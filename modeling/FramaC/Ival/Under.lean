import FramaC.Ival.ArithSound

/-! # Under-approximations

`link` under-approximates a union, `add_int_under` and `sub_int_under` a sum and a difference, `complement_int_under` the
complement in the range of an integer type.
-/
namespace FramaC.Ival
open Integer Progression Pointwise

def setToIvalUnder (sc : ℕ) (set : List ℤ) : Ival :=
  let card := set.length
  if card ≤ sc then shareArray set card
  else if set.getLastD 0 - set.headD 0 = card - 1 then
    -- the remainder is one and the modulus zero, as in the source
    .topItv (some (set.headD 0)) (some (set.getLastD 0)) 1 0
  else .set (set.take sc)

def extendMax (m : ℤ) (s : List ℤ) (max : ℤ) : ℤ :=
  s.foldl (fun curmax elt => if elt = curmax + m then elt else curmax) max

def extendMin (m : ℤ) (s : List ℤ) (min : ℤ) : ℤ :=
  s.foldr (fun elt curmin => if elt = curmin - m then elt else curmin) min

def linkTopSet (sc : ℕ) (mn mx : Option ℤ) (r m : ℤ) (s : List ℤ) : Res Ival :=
  injectTop sc (mn.map (extendMin m s)) (mx.map (extendMax m s)) r m

def link (sc : ℕ) (v1 v2 : Ival) : Res Ival :=
  match v1, v2 with
  | .set a1, .set a2 =>
    let s1 := a1.foldr O.add []
    let s2 := a2.foldr O.add s1
    return setToIvalUnder sc s2
  | .topItv mn1 mx1 r1 m1, .topItv mn2 mx2 r2 m2 =>
    if r1 = r2 ∧ m1 = m2 then injectTop sc (opt2 min mn1 mn2) (opt2 max mx1 mx2) r1 m1
    else return v1
  | .topItv mn mx r m, .set s => linkTopSet sc mn mx r m s
  | .set s, .topItv mn mx r m => linkTopSet sc mn mx r m s

def sumsUnder (s1 s2 : List ℤ) : List ℤ :=
  s1.foldl (fun acc i1 => s2.foldl (fun acc i2 => O.add (i1 + i2) acc) acc) []

def addSetTopUnder (s : List ℤ) (t : Ival) : Ival :=
  if s.length = 0 then bottom else addSingletonInt (s.headD 0) t

def addIntUnder (sc : ℕ) (v1 v2 : Ival) : Res Ival :=
  match v1, v2 with
  | .set [x], .set s => return applyBin1StrictIncr (· + ·) x s
  | .set s, .set [x] => return applyBin1StrictIncr (· + ·) x s
  | .set s1, .set s2 => return setToIvalUnder sc (sumsUnder s1 s2)
  | .topItv min1 max1 r1 modu1, .topItv min2 max2 r2 modu2 =>
    if modu1 = modu2 then
      injectTop sc (opt2 (· + ·) min1 min2) (opt2 (· + ·) max1 max2) ((r1 + r2) % modu1) modu1
    else return bottom
  | .set s, .topItv mn mx r m => return addSetTopUnder s (.topItv mn mx r m)
  | .topItv mn mx r m, .set s => return addSetTopUnder s (.topItv mn mx r m)

def subIntUnder (sc : ℕ) (v1 v2 : Ival) : Res Ival := addIntUnder sc v1 (negInt v2)

section Sets
variable {sc : ℕ} {s s1 s2 : List ℤ} {x : ℤ}

/-- An interval of consecutive integers with more than `sc` elements. -/
def LongRange (sc : ℕ) (E : Set ℤ) : Prop := ∃ a b : ℤ, sc ≤ b - a ∧ E = Set.Icc a b

theorem toFinset_eq_Icc {a b : ℤ} (h : {y | y ∈ s} = Set.Icc a b) : s.toFinset = Finset.Icc a b := by
  ext y
  rw [List.mem_toFinset,Finset.mem_Icc]
  exact Set.ext_iff.mp h y

theorem card_eq_length (hs : s.Pairwise (· < ·)) : s.toFinset.card = s.length :=
  List.toFinset_card_of_nodup (hs.imp fun h => ne_of_lt h)

theorem eq_Icc_of_span (hs : s.Pairwise (· < ·)) (h : s.getLastD 0 - s.headD 0 = s.length - 1) :
    {y | y ∈ s} = Set.Icc (s.headD 0) (s.getLastD 0) := by
  have hsub : s.toFinset ⊆ Finset.Icc (s.headD 0) (s.getLastD 0) := by
    intro y hy
    rw [List.mem_toFinset] at hy
    exact Finset.mem_Icc.mpr ⟨head_le_of_pairwise hs hy,le_last_of_pairwise hs hy⟩
  have hcard : (Finset.Icc (s.headD 0) (s.getLastD 0)).card ≤ s.toFinset.card := by
    rw [card_eq_length hs,Int.card_Icc]
    omega
  have heq := Finset.eq_of_subset_of_card_le hsub hcard
  ext y
  rw [← Finset.coe_Icc,← heq]
  simp

theorem not_longRange (h : Wf sc (.set s)) : ¬ LongRange sc (concr (.set s)) := by
  rintro ⟨a,b,hab,heq⟩
  have hl : s.length = (b + 1 - a).toNat := by
    rw [← card_eq_length h.1,toFinset_eq_Icc heq,Int.card_Icc]
  have := h.2
  omega

theorem setToIvalUnder_iff (sc : ℕ) (hs : s.Pairwise (· < ·)) :
    (Wf sc (setToIvalUnder sc s) ∧ concr (setToIvalUnder sc s) ⊆ {y | y ∈ s}) ↔ ¬ LongRange sc {y | y ∈ s} := by
  unfold setToIvalUnder
  dsimp only
  split
  · rename_i hcard
    rw [shareArray_eq]
    exact iff_of_true ⟨⟨hs,hcard⟩,fun y hy => hy⟩ (not_longRange ⟨hs,hcard⟩)
  · rename_i hcard
    have hne : s ≠ [] := by
      rintro rfl
      simp at hcard
    split
    · rename_i hspan
      refine iff_of_false (fun h => ?_) (not_not.mpr ⟨s.headD 0,s.getLastD 0,by omega,eq_Icc_of_span hs hspan⟩)
      have := h.1.1
      omega
    · rename_i hspan
      refine iff_of_true ⟨⟨hs.sublist (List.take_sublist _ _),by simp⟩,fun y hy => List.mem_of_mem_take hy⟩ ?_
      rintro ⟨a,b,hab,heq⟩
      have hl : s.length = (b + 1 - a).toNat := by
        rw [← card_eq_length hs,toFinset_eq_Icc heq,Int.card_Icc]
      have hmem : ∀ y, y ∈ s ↔ a ≤ y ∧ y ≤ b := fun y => Set.ext_iff.mp heq y
      have hhead := (hmem _).mp (headD_mem hne)
      have hlast := (hmem _).mp (getLastD_mem hne)
      have ha := head_le_of_pairwise hs ((hmem a).mpr ⟨le_rfl,by omega⟩)
      have hb := le_last_of_pairwise hs ((hmem b).mpr ⟨by omega,le_rfl⟩)
      omega

theorem foldr_add_spec (a : List ℤ) (hs : s.Pairwise (· < ·)) :
    (a.foldr O.add s).Pairwise (· < ·) ∧ ∀ y, y ∈ a.foldr O.add s ↔ y ∈ a ∨ y ∈ s := by
  induction a with
  | nil => exact ⟨hs,by simp⟩
  | cons x a ih =>
    obtain ⟨h1,h2⟩ := ih
    refine ⟨O.add_pairwise h1,fun y => ?_⟩
    rw [List.foldr_cons,O.mem_add,h2,List.mem_cons,or_assoc]

theorem foldl_add_image (f : ℤ → ℤ) (a : List ℤ) (hs : s.Pairwise (· < ·)) :
    (a.foldl (fun acc i => O.add (f i) acc) s).Pairwise (· < ·) ∧
      ∀ y, y ∈ a.foldl (fun acc i => O.add (f i) acc) s ↔ (∃ i ∈ a, f i = y) ∨ y ∈ s := by
  induction a generalizing s with
  | nil => exact ⟨hs,by simp⟩
  | cons x a ih =>
    obtain ⟨h1,h2⟩ := ih (O.add_pairwise (x := f x) hs)
    refine ⟨h1,fun y => ?_⟩
    rw [List.foldl_cons,h2,O.mem_add]
    simp only [List.mem_cons,exists_eq_or_imp]
    rw [eq_comm (a := y)]
    exact or_left_comm.trans or_assoc.symm

theorem sumsUnder_aux (s1 s2 : List ℤ) (hs : s.Pairwise (· < ·)) :
    (s1.foldl (fun acc i1 => s2.foldl (fun acc i2 => O.add (i1 + i2) acc) acc) s).Pairwise (· < ·) ∧
      ∀ y, y ∈ s1.foldl (fun acc i1 => s2.foldl (fun acc i2 => O.add (i1 + i2) acc) acc) s ↔
        (∃ i ∈ s1, ∃ j ∈ s2, i + j = y) ∨ y ∈ s := by
  induction s1 generalizing s with
  | nil => exact ⟨hs,by simp⟩
  | cons x s1 ih =>
    obtain ⟨hp,hm⟩ := foldl_add_image (x + ·) s2 hs
    obtain ⟨h1,h2⟩ := ih hp
    refine ⟨h1,fun y => ?_⟩
    rw [List.foldl_cons,h2,hm]
    simp only [List.mem_cons,exists_eq_or_imp]
    exact or_left_comm.trans or_assoc.symm

theorem sumsUnder_spec (s1 s2 : List ℤ) :
    (sumsUnder s1 s2).Pairwise (· < ·) ∧ ∀ y, y ∈ sumsUnder s1 s2 ↔ ∃ i ∈ s1, ∃ j ∈ s2, i + j = y := by
  obtain ⟨h1,h2⟩ := sumsUnder_aux s1 s2 (List.Pairwise.nil (R := (· < ·)))
  exact ⟨h1,fun y => by rw [sumsUnder,h2]; simp⟩

end Sets

section Progressions
variable {sc : ℕ} {mn mx mn1 mx1 mn2 mx2 : Option ℤ} {r m r1 r2 x : ℤ} {s : List ℤ}

def Gap (v1 v2 : Ival) : Prop :=
  ∃ mn b a mx r m, v1 = .topItv mn (some b) r m ∧ v2 = .topItv (some a) mx r m ∧ b + m < a

theorem reduced_hull (h1 : Reduced mn1 mx1 r m) (h2 : Reduced mn2 mx2 r m) :
    Reduced (opt2 min mn1 mn2) (opt2 max mx1 mx2) r m := by
  refine ⟨h1.pos,h1.nonneg,h1.lt,?_,?_⟩
  · cases mn1 with
    | none => simp [opt2]
    | some a =>
      cases mn2 with
      | none => simp [opt2]
      | some b =>
        rintro _ ⟨⟩
        rcases min_choice a b with h | h <;> rw [h]
        · exact h1.lower a rfl
        · exact h2.lower b rfl
  · cases mx1 with
    | none => simp [opt2]
    | some a =>
      cases mx2 with
      | none => simp [opt2]
      | some b =>
        rintro _ ⟨⟩
        rcases max_choice a b with h | h <;> rw [h]
        · exact h1.upper a rfl
        · exact h2.upper b rfl

theorem mem_hull : x ∈ prog (opt2 min mn1 mn2) (opt2 max mx1 mx2) r m ↔ x % m = r ∧
    ((∀ a ∈ mn1, a ≤ x) ∨ ∀ a ∈ mn2, a ≤ x) ∧ ((∀ b ∈ mx1, x ≤ b) ∨ ∀ b ∈ mx2, x ≤ b) := by
  rw [mem_prog]
  refine and_congr_right fun _ => and_congr ?_ ?_
  · cases mn1 <;> cases mn2 <;> simp [opt2]
  · cases mx1 <;> cases mx2 <;> simp [opt2]

theorem hull_subset_iff (h1 : Reduced mn1 mx1 r m) (h2 : Reduced mn2 mx2 r m) (hl1 : Long sc mn1 mx1 m)
    (hl2 : Long sc mn2 mx2 m) :
    prog (opt2 min mn1 mn2) (opt2 max mx1 mx2) r m ⊆ prog mn1 mx1 r m ∪ prog mn2 mx2 r m ↔
      ¬ Gap (.topItv mn1 mx1 r m) (.topItv mn2 mx2 r m) ∧ ¬ Gap (.topItv mn2 mx2 r m) (.topItv mn1 mx1 r m) := by
  have hm := h1.pos
  constructor
  · intro hsub
    refine ⟨?_,?_⟩
    · rintro ⟨_,b,a,_,_,_,⟨⟩,⟨⟩,hlt⟩
      have hb := h1.upper b rfl
      have hmem : b + m ∈ prog (opt2 min mn1 (some a)) (opt2 max (some b) mx2) r m := by
        refine (mem_hull).mpr ⟨by rw [Int.add_emod_right,hb],Or.inl fun c hc => ?_,Or.inr fun c hc => ?_⟩
        · have := hl1.le hm hc rfl
          omega
        · have := hl2.le hm rfl hc
          omega
      rcases hsub hmem with h | h
      · have := h.2.2 b rfl
        omega
      · have := h.2.1 a rfl
        omega
    · rintro ⟨_,b,a,_,_,_,⟨⟩,⟨⟩,hlt⟩
      have hb := h2.upper b rfl
      have hmem : b + m ∈ prog (opt2 min (some a) mn2) (opt2 max mx1 (some b)) r m := by
        refine (mem_hull).mpr ⟨by rw [Int.add_emod_right,hb],Or.inr fun c hc => ?_,Or.inl fun c hc => ?_⟩
        · have := hl2.le hm hc rfl
          omega
        · have := hl1.le hm rfl hc
          omega
      rcases hsub hmem with h | h
      · have := h.2.1 a rfl
        omega
      · have := h.2.2 b rfl
        omega
  · rintro ⟨hg1,hg2⟩ x hx
    obtain ⟨hxr,hlo,hhi⟩ := (mem_hull).mp hx
    by_contra hout
    simp only [Set.mem_union,mem_prog,hxr,true_and,not_or,not_and_or] at hout
    obtain ⟨hout1,hout2⟩ := hout
    -- the member is above one progression and below the other
    rcases hlo with hlo | hlo
    · obtain hn1 | hn1 := hout1
      · exact hn1 hlo
      obtain ⟨b,rfl,hb⟩ : ∃ b, mx1 = some b ∧ b < x := by simpa using hn1
      have hhi2 : ∀ c ∈ mx2, x ≤ c := hhi.resolve_left hn1
      obtain ⟨a,rfl,ha⟩ : ∃ a, mn2 = some a ∧ x < a := by simpa using hout2.resolve_right fun h => h hhi2
      have hbx := add_le_of_emod_eq (h1.upper b rfl) hxr hb
      exact hg1 ⟨_,b,a,_,r,m,rfl,rfl,by omega⟩
    · obtain hn2 | hn2 := hout2
      · exact hn2 hlo
      obtain ⟨b,rfl,hb⟩ : ∃ b, mx2 = some b ∧ b < x := by simpa using hn2
      have hhi1 : ∀ c ∈ mx1, x ≤ c := hhi.resolve_right hn2
      obtain ⟨a,rfl,ha⟩ : ∃ a, mn1 = some a ∧ x < a := by simpa using hout1.resolve_right fun h => h hhi1
      have hbx := add_le_of_emod_eq (h2.upper b rfl) hxr hb
      exact hg2 ⟨_,b,a,_,r,m,rfl,rfl,by omega⟩

theorem extendMax_spec (s : List ℤ) (b : ℤ) (hm : 1 ≤ m) (hb : b % m = r) :
    b ≤ extendMax m s b ∧ extendMax m s b % m = r ∧
      ∀ x, x % m = r → b < x → x ≤ extendMax m s b → x ∈ s := by
  induction s generalizing b with
  | nil => exact ⟨le_rfl,hb,fun x _ h1 h2 => absurd (h1.trans_le h2) (lt_irrefl b)⟩
  | cons e s ih =>
    simp only [extendMax,List.foldl_cons]
    split
    · rename_i he
      obtain ⟨h1,h2,h3⟩ := ih e (by rw [he,Int.add_emod_right,hb])
      refine ⟨by simp only [extendMax] at h1; omega,h2,fun x hx hbx hxe => ?_⟩
      have hle := add_le_of_emod_eq hb hx hbx
      rcases (he ▸ hle).eq_or_lt with h | h
      · exact h ▸ List.mem_cons_self
      · exact List.mem_cons_of_mem _ (h3 x hx h hxe)
    · obtain ⟨h1,h2,h3⟩ := ih b hb
      exact ⟨h1,h2,fun x hx hbx hxe => List.mem_cons_of_mem _ (h3 x hx hbx hxe)⟩

theorem extendMin_spec (s : List ℤ) (a : ℤ) (hm : 1 ≤ m) (ha : a % m = r) :
    extendMin m s a ≤ a ∧ extendMin m s a % m = r ∧
      ∀ x, x % m = r → extendMin m s a ≤ x → x < a → x ∈ s := by
  induction s with
  | nil => exact ⟨le_rfl,ha,fun x _ h1 h2 => absurd (h1.trans_lt h2) (lt_irrefl a)⟩
  | cons e s ih =>
    obtain ⟨h1,h2,h3⟩ := ih
    simp only [extendMin,List.foldr_cons] at h1 h2 h3 ⊢
    split
    · rename_i he
      refine ⟨by omega,by rw [he,Int.sub_emod_right,h2],fun x hx hex hxa => ?_⟩
      rcases hex.eq_or_lt with h | h
      · exact h ▸ List.mem_cons_self
      · have hle := add_le_of_emod_eq (by rw [he,Int.sub_emod_right,h2]) hx h
        exact List.mem_cons_of_mem _ (h3 x hx (by omega) hxa)
    · exact ⟨h1,h2,fun x hx hex hxa => List.mem_cons_of_mem _ (h3 x hx hex hxa)⟩

theorem linkTopSet_spec (hsc : 2 ≤ sc) (h : Wf sc (.topItv mn mx r m)) (s : List ℤ) :
    ∃ v, linkTopSet sc mn mx r m s = .ok v ∧ Wf sc v ∧ concr v ⊆ prog mn mx r m ∪ {y | y ∈ s} := by
  obtain ⟨hr,_⟩ := wf_topItv_iff.mp h
  have hm := hr.pos
  have hred : Reduced (mn.map (extendMin m s)) (mx.map (extendMax m s)) r m := by
    refine ⟨hm,hr.nonneg,hr.lt,?_,?_⟩
    · intro c hc
      obtain ⟨a,ha,rfl⟩ := Option.mem_map.mp hc
      exact (extendMin_spec s a hm (hr.lower a ha)).2.1
    · intro c hc
      obtain ⟨b,hb,rfl⟩ := Option.mem_map.mp hc
      exact (extendMax_spec s b hm (hr.upper b hb)).2.1
  obtain ⟨v,hv,hvw,hc⟩ := injectTop_spec hsc hred
  refine ⟨v,hv,hvw,?_⟩
  rw [hc]
  rintro x ⟨hxr,hlo,hhi⟩
  by_cases hxa : ∀ a ∈ mn, a ≤ x
  · by_cases hxb : ∀ b ∈ mx, x ≤ b
    · exact Or.inl ⟨hxr,hxa,hxb⟩
    · push Not at hxb
      obtain ⟨b,hb,hlt⟩ := hxb
      exact Or.inr ((extendMax_spec s b hm (hr.upper b hb)).2.2 x hxr hlt (hhi _ (Option.mem_map.mpr ⟨b,hb,rfl⟩)))
  · push Not at hxa
    obtain ⟨a,ha,hlt⟩ := hxa
    exact Or.inr ((extendMin_spec s a hm (hr.lower a ha)).2.2 x hxr (hlo _ (Option.mem_map.mpr ⟨a,ha,rfl⟩)) hlt)

theorem exists_mem_between (h0 : 0 ≤ r) (hr : r < m) {l1 l2 u1 u2 : Option ℤ} (hl1 : ∀ c ∈ l1, c % m = r)
    (hl2 : ∀ c ∈ l2, c % m = r) (hu1 : ∀ c ∈ u1, c % m = r) (hu2 : ∀ c ∈ u2, c % m = r)
    (h11 : ∀ c ∈ l1, ∀ d ∈ u1, c ≤ d) (h12 : ∀ c ∈ l1, ∀ d ∈ u2, c ≤ d) (h21 : ∀ c ∈ l2, ∀ d ∈ u1, c ≤ d)
    (h22 : ∀ c ∈ l2, ∀ d ∈ u2, c ≤ d) : ∃ a, a % m = r ∧ (∀ c ∈ l1, c ≤ a) ∧ (∀ c ∈ l2, c ≤ a) ∧
      (∀ d ∈ u1, a ≤ d) ∧ ∀ d ∈ u2, a ≤ d := by
  cases l1 with
  | some c1 =>
    cases l2 with
    | none => exact ⟨c1,hl1 c1 rfl,by simp,by simp,h11 c1 rfl,h12 c1 rfl⟩
    | some c2 =>
      refine ⟨max c1 c2,?_,by simp,by simp,fun d hd => max_le (h11 c1 rfl d hd) (h21 c2 rfl d hd),
        fun d hd => max_le (h12 c1 rfl d hd) (h22 c2 rfl d hd)⟩
      rcases max_choice c1 c2 with h | h <;> rw [h]
      · exact hl1 c1 rfl
      · exact hl2 c2 rfl
  | none =>
    cases l2 with
    | some c2 => exact ⟨c2,hl2 c2 rfl,by simp,by simp,h21 c2 rfl,h22 c2 rfl⟩
    | none =>
      cases u1 with
      | some d1 =>
        cases u2 with
        | none => exact ⟨d1,hu1 d1 rfl,by simp,by simp,by simp,by simp⟩
        | some d2 =>
          refine ⟨min d1 d2,?_,by simp,by simp,by simp,by simp⟩
          rcases min_choice d1 d2 with h | h <;> rw [h]
          · exact hu1 d1 rfl
          · exact hu2 d2 rfl
      | none =>
        cases u2 with
        | some d2 => exact ⟨d2,hu2 d2 rfl,by simp,by simp,by simp,by simp⟩
        | none => exact ⟨r,Int.emod_eq_of_lt h0 hr,by simp,by simp,by simp,by simp⟩

theorem sub_emod_of_add {c : ℤ} (h0 : 0 ≤ r1) (hr : r1 < m) (hx : x % m = (r1 + r2) % m) (hc : c % m = r2) :
    (x - c) % m = r1 := by
  rw [Int.sub_emod,hx,hc,Int.emod_sub_emod,add_sub_cancel_right,Int.emod_eq_of_lt h0 hr]

theorem prog_add_subset (h1 : Reduced mn1 mx1 r1 m) (h2 : Reduced mn2 mx2 r2 m) (hl1 : Long sc mn1 mx1 m)
    (hl2 : Long sc mn2 mx2 m) :
    prog (opt2 (· + ·) mn1 mn2) (opt2 (· + ·) mx1 mx2) ((r1 + r2) % m) m ⊆ prog mn1 mx1 r1 m + prog mn2 mx2 r2 m := by
  have hm := h1.pos
  rintro x ⟨hxr,hlo,hhi⟩
  have hcls : ∀ {b : Option ℤ}, (∀ c ∈ b, c % m = r2) → ∀ d ∈ b.map (x - ·), d % m = r1 := by
    intro b hb d hd
    obtain ⟨c,hc,rfl⟩ := Option.mem_map.mp hd
    exact sub_emod_of_add h1.nonneg h1.lt hxr (hb c hc)
  obtain ⟨a,har,ha1,ha2,ha3,ha4⟩ := exists_mem_between h1.nonneg h1.lt h1.lower (hcls h2.upper) h1.upper (hcls h2.lower)
    (fun c hc d hd => hl1.le hm hc hd)
    (by
      intro c hc d hd
      obtain ⟨e,he,rfl⟩ := Option.mem_map.mp hd
      cases hc
      cases he
      have := hlo (c + e) rfl
      omega)
    (by
      intro c hc d hd
      obtain ⟨e,he,rfl⟩ := Option.mem_map.mp hc
      cases hd
      cases he
      have := hhi (d + e) rfl
      omega)
    (by
      intro c hc d hd
      obtain ⟨e,he,rfl⟩ := Option.mem_map.mp hc
      obtain ⟨e',he',rfl⟩ := Option.mem_map.mp hd
      have := hl2.le hm he' he
      omega)
  refine Set.mem_add.mpr ⟨a,⟨har,ha1,ha3⟩,x - a,⟨?_,?_,?_⟩,by omega⟩
  · exact sub_emod_of_add h2.nonneg h2.lt (by rw [add_comm]; exact hxr) har
  · intro c hc
    have := ha4 (x - c) (Option.mem_map.mpr ⟨c,hc,rfl⟩)
    omega
  · intro c hc
    have := ha2 (x - c) (Option.mem_map.mpr ⟨c,hc,rfl⟩)
    omega

theorem reduced_add (h1 : Reduced mn1 mx1 r1 m) (h2 : Reduced mn2 mx2 r2 m) :
    Reduced (opt2 (· + ·) mn1 mn2) (opt2 (· + ·) mx1 mx2) ((r1 + r2) % m) m := by
  have hm := h1.pos
  refine ⟨hm,Int.emod_nonneg _ (by omega),Int.emod_lt_of_pos _ (by omega),?_,?_⟩
  · cases mn1 with
    | none => simp [opt2]
    | some a =>
      cases mn2 with
      | none => simp [opt2]
      | some b =>
        rintro _ ⟨⟩
        rw [← h1.lower a rfl,← h2.lower b rfl,← Int.add_emod]
  · cases mx1 with
    | none => simp [opt2]
    | some a =>
      cases mx2 with
      | none => simp [opt2]
      | some b =>
        rintro _ ⟨⟩
        rw [← h1.upper a rfl,← h2.upper b rfl,← Int.add_emod]

end Progressions

section Results
variable {sc : ℕ} {v1 v2 : Ival}

def BothSets (v1 v2 : Ival) : Prop := (∃ s, v1 = .set s) ∧ ∃ s, v2 = .set s

theorem link_iff (hsc : 2 ≤ sc) (h1 : Wf sc v1) (h2 : Wf sc v2) :
    (∃ v, link sc v1 v2 = .ok v ∧ Wf sc v ∧ concr v ⊆ concr v1 ∪ concr v2) ↔
      ¬ (BothSets v1 v2 ∧ LongRange sc (concr v1 ∪ concr v2)) ∧ ¬ Gap v1 v2 ∧ ¬ Gap v2 v1 := by
  have hgap : ∀ {w1 w2 : Ival} {s : List ℤ}, w1 = .set s ∨ w2 = .set s → ¬ Gap w1 w2 := by
    rintro w1 w2 s (rfl | rfl) ⟨_,_,_,_,_,_,h1,h2,_⟩
    · cases h1
    · cases h2
  cases v1 with
  | set s1 =>
    cases v2 with
    | set s2 =>
      obtain ⟨hp1,hm1⟩ := foldr_add_spec s1 (List.Pairwise.nil (R := (· < ·)))
      obtain ⟨hp2,hm2⟩ := foldr_add_spec s2 hp1
      have hunion : {y | y ∈ s2.foldr O.add (s1.foldr O.add [])} = concr (.set s1) ∪ concr (.set s2) := by
        ext y
        simp only [Set.mem_ofPred_eq,hm2,hm1,List.not_mem_nil,or_false,Set.mem_union,mem_concr_set]
        exact or_comm
      have hset := setToIvalUnder_iff sc hp2
      rw [hunion] at hset
      have hlink : link sc (.set s1) (.set s2) = .ok (setToIvalUnder sc (s2.foldr O.add (s1.foldr O.add []))) := rfl
      simp only [hlink,Except.ok.injEq,exists_eq_left',hset]
      have hboth : BothSets (.set s1) (.set s2) := ⟨⟨s1,rfl⟩,s2,rfl⟩
      simp only [hboth,true_and,hgap (Or.inl rfl),not_false_eq_true,and_true]
    | topItv mn mx r m =>
      obtain ⟨v,hv,hvw,hs⟩ := linkTopSet_spec hsc h2 s1
      have hsets : ¬ BothSets (.set s1) (.topItv mn mx r m) := by
        rintro ⟨_,_,h⟩
        cases h
      exact iff_of_true ⟨v,hv,hvw,hs.trans (Set.union_comm _ _).subset⟩
        ⟨fun h => hsets h.1,hgap (Or.inl rfl),hgap (Or.inr rfl)⟩
  | topItv mn1 mx1 r1 m1 =>
    have hsets : ¬ BothSets (.topItv mn1 mx1 r1 m1) v2 := by
      rintro ⟨⟨_,h⟩,_⟩
      cases h
    cases v2 with
    | set s2 =>
      obtain ⟨v,hv,hvw,hs⟩ := linkTopSet_spec hsc h1 s2
      exact iff_of_true ⟨v,hv,hvw,hs⟩ ⟨fun h => hsets h.1,hgap (Or.inr rfl),hgap (Or.inl rfl)⟩
    | topItv mn2 mx2 r2 m2 =>
      simp only [hsets,false_and,not_false_eq_true,true_and]
      by_cases heq : r1 = r2 ∧ m1 = m2
      · obtain ⟨rfl,rfl⟩ := heq
        obtain ⟨hr1,hl1⟩ := wf_topItv_iff.mp h1
        obtain ⟨hr2,hl2⟩ := wf_topItv_iff.mp h2
        obtain ⟨v,hv,hvw,hc⟩ := injectTop_spec hsc (reduced_hull hr1 hr2)
        have hlink : link sc (.topItv mn1 mx1 r1 m1) (.topItv mn2 mx2 r1 m1) = .ok v := by
          rw [link,if_pos ⟨rfl,rfl⟩,hv]
        simp only [hlink,Except.ok.injEq,exists_eq_left',hvw,true_and,hc,concr_topItv]
        exact hull_subset_iff hr1 hr2 hl1 hl2
      · refine iff_of_true ⟨_,by rw [link,if_neg heq]; rfl,h1,Set.subset_union_left⟩ ⟨?_,?_⟩
        · rintro ⟨_,_,_,_,_,_,h,h',_⟩
          cases h
          cases h'
          exact heq ⟨rfl,rfl⟩
        · rintro ⟨_,_,_,_,_,_,h,h',_⟩
          cases h
          cases h'
          exact heq ⟨rfl,rfl⟩

theorem mem_add_singleton {s : List ℤ} {x y : ℤ} :
    y ∈ concr (applyBin1StrictIncr (· + ·) x s) ↔ y ∈ concr (.set [x]) + concr (.set s) := by
  simp only [mem_applyBin1StrictIncr,Set.mem_add,mem_concr_set,List.mem_singleton,exists_eq_left]

theorem addSingleton_under {s : List ℤ} (h : Wf sc (.set s)) (x : ℤ) : ∃ t, applyBin1StrictIncr (· + ·) x s = .set t ∧
    Wf sc (.set t) ∧ concr (.set t) = concr (.set [x]) + concr (.set s) := by
  have hw : Wf sc (applyBin1StrictIncr (· + ·) x s) := applyBin1StrictIncr_wf h fun a b hab => by omega
  have hset : applyBin1StrictIncr (· + ·) x s = .set (s.map (x + ·)) := by
    have hl : s.length = (s.map (x + ·)).length := by simp
    rw [applyBin1StrictIncr,hl,shareArray_eq]
  rw [hset] at hw
  exact ⟨_,hset,hw,by rw [← hset]; exact Set.ext fun y => mem_add_singleton⟩

theorem addSetTopUnder_spec {s : List ℤ} {mn mx : Option ℤ} {r m : ℤ} (h : Wf sc (.topItv mn mx r m)) :
    Wf sc (addSetTopUnder s (.topItv mn mx r m)) ∧
      concr (addSetTopUnder s (.topItv mn mx r m)) ⊆ concr (.set s) + prog mn mx r m := by
  unfold addSetTopUnder
  split
  · exact ⟨wf_bottom sc,fun y hy => absurd hy List.not_mem_nil⟩
  · rename_i hs
    refine ⟨addSingletonInt_wf h _,fun y hy => ?_⟩
    obtain ⟨a,ha,rfl⟩ := (mem_addSingletonInt h _).mp hy
    exact Set.add_mem_add (headD_mem (fun he => hs (by simp [he]))) ha

theorem addIntUnder_sets_iff {s1 s2 : List ℤ} (h1 : Wf sc (.set s1)) (h2 : Wf sc (.set s2)) :
    ∃ v, addIntUnder sc (.set s1) (.set s2) = .ok v ∧ ((Wf sc v ∧ concr v ⊆ concr (.set s1) + concr (.set s2)) ↔
      ¬ LongRange sc (concr (.set s1) + concr (.set s2))) := by
  have hsing : ∀ {x : ℤ} {s : List ℤ}, Wf sc (.set s) → (Wf sc (applyBin1StrictIncr (· + ·) x s) ∧
      concr (applyBin1StrictIncr (· + ·) x s) ⊆ concr (.set [x]) + concr (.set s) ↔
      ¬ LongRange sc (concr (.set [x]) + concr (.set s))) := by
    intro x s h
    obtain ⟨t,ht,htw,hc⟩ := addSingleton_under h x
    rw [ht,← hc]
    exact iff_of_true ⟨htw,subset_rfl⟩ (not_longRange htw)
  have hmany : Wf sc (setToIvalUnder sc (sumsUnder s1 s2)) ∧
      concr (setToIvalUnder sc (sumsUnder s1 s2)) ⊆ concr (.set s1) + concr (.set s2) ↔
      ¬ LongRange sc (concr (.set s1) + concr (.set s2)) := by
    obtain ⟨hp,hm⟩ := sumsUnder_spec s1 s2
    have hsum : {y | y ∈ sumsUnder s1 s2} = concr (.set s1) + concr (.set s2) := Set.ext fun y => hm y
    have hset := setToIvalUnder_iff sc hp
    rwa [hsum] at hset
  match s1, s2 with
  | [x], s2 => exact ⟨_,rfl,hsing h2⟩
  | [], [x] => exact ⟨_,rfl,by rw [add_comm]; exact hsing h1⟩
  | a :: b :: t, [x] => exact ⟨_,rfl,by rw [add_comm]; exact hsing h1⟩
  | [], [] => exact ⟨_,rfl,hmany⟩
  | [], a :: b :: t => exact ⟨_,rfl,hmany⟩
  | a :: b :: t, [] => exact ⟨_,rfl,hmany⟩
  | a :: b :: t, c :: d :: t' => exact ⟨_,rfl,hmany⟩

theorem addIntUnder_iff (hsc : 2 ≤ sc) (h1 : Wf sc v1) (h2 : Wf sc v2) :
    (∃ v, addIntUnder sc v1 v2 = .ok v ∧ Wf sc v ∧ concr v ⊆ concr v1 + concr v2) ↔
      ¬ (BothSets v1 v2 ∧ LongRange sc (concr v1 + concr v2)) := by
  cases v1 with
  | set s1 =>
    cases v2 with
    | set s2 =>
      obtain ⟨v,hv,hiff⟩ := addIntUnder_sets_iff h1 h2
      have hboth : BothSets (.set s1) (.set s2) := ⟨⟨s1,rfl⟩,s2,rfl⟩
      simp only [hv,Except.ok.injEq,exists_eq_left',hiff,hboth,true_and]
    | topItv mn mx r m =>
      have hadd : addIntUnder sc (.set s1) (.topItv mn mx r m) = .ok (addSetTopUnder s1 (.topItv mn mx r m)) := by
        match s1 with
        | [] => rfl
        | [x] => rfl
        | _ :: _ :: _ => rfl
      exact iff_of_true ⟨_,hadd,addSetTopUnder_spec h2⟩ fun ⟨⟨_,_,h⟩,_⟩ => by cases h
  | topItv mn1 mx1 r1 m1 =>
    refine iff_of_true ?_ fun ⟨⟨⟨_,h⟩,_⟩,_⟩ => by cases h
    cases v2 with
    | set s2 =>
      have hadd : addIntUnder sc (.topItv mn1 mx1 r1 m1) (.set s2) = .ok (addSetTopUnder s2 (.topItv mn1 mx1 r1 m1)) := by
        match s2 with
        | [] => rfl
        | [x] => rfl
        | _ :: _ :: _ => rfl
      exact ⟨_,hadd,by rw [add_comm]; exact addSetTopUnder_spec h1⟩
    | topItv mn2 mx2 r2 m2 =>
      by_cases heq : m1 = m2
      · subst heq
        obtain ⟨hr1,hl1⟩ := wf_topItv_iff.mp h1
        obtain ⟨hr2,hl2⟩ := wf_topItv_iff.mp h2
        obtain ⟨v,hv,hvw,hc⟩ := injectTop_spec hsc (reduced_add hr1 hr2)
        refine ⟨v,by rw [addIntUnder,if_pos rfl,hv],hvw,?_⟩
        rw [hc]
        exact prog_add_subset hr1 hr2 hl1 hl2
      · exact ⟨bottom,by rw [addIntUnder,if_neg heq]; rfl,wf_bottom sc,fun y hy => absurd hy List.not_mem_nil⟩

theorem concr_negInt (h : Wf sc v2) : concr (negInt v2) = -concr v2 := by
  ext y
  rw [mem_negInt h,Set.mem_neg]
  constructor
  · rintro ⟨a,ha,rfl⟩
    rwa [neg_neg]
  · intro hy
    exact ⟨-y,hy,(neg_neg y).symm⟩

theorem bothSets_negInt : BothSets v1 (negInt v2) ↔ BothSets v1 v2 := by
  refine and_congr_right fun _ => ?_
  cases v2 with
  | set s =>
    have hl : s.length = (s.map fun x => -x).reverse.length := by simp
    rw [negInt,mapSetStrictDecr,hl,shareArray_eq]
    exact iff_of_true ⟨_,rfl⟩ ⟨_,rfl⟩
  | topItv mn mx r m =>
    have hno : ∀ {mn mx : Option ℤ} {r m : ℤ}, ¬ ∃ s, Ival.topItv mn mx r m = .set s := by
      rintro mn mx r m ⟨_,h⟩
      cases h
    exact iff_of_false hno hno

end Results

/-- Each under-approximation is well-formed and sound, exactly when its sets do not make a long range and, for a link,
when no gap separates two progressions of one class. -/
theorem under_approximations_iff {sc : ℕ} (hsc : 2 ≤ sc) {v1 v2 : Ival} (h1 : Wf sc v1) (h2 : Wf sc v2) :
    ((∃ v, link sc v1 v2 = .ok v ∧ Wf sc v ∧ concr v ⊆ concr v1 ∪ concr v2) ↔
      ¬ (BothSets v1 v2 ∧ LongRange sc (concr v1 ∪ concr v2)) ∧ ¬ Gap v1 v2 ∧ ¬ Gap v2 v1) ∧
    ((∃ v, addIntUnder sc v1 v2 = .ok v ∧ Wf sc v ∧ concr v ⊆ concr v1 + concr v2) ↔
      ¬ (BothSets v1 v2 ∧ LongRange sc (concr v1 + concr v2))) ∧
    ((∃ v, subIntUnder sc v1 v2 = .ok v ∧ Wf sc v ∧ concr v ⊆ concr v1 - concr v2) ↔
      ¬ (BothSets v1 v2 ∧ LongRange sc (concr v1 - concr v2))) := by
  refine ⟨link_iff hsc h1 h2,addIntUnder_iff hsc h1 h2,?_⟩
  have hsub := addIntUnder_iff hsc h1 (negInt_wf h2)
  rwa [concr_negInt h2,← sub_eq_add_neg,bothSets_negInt] at hsub

theorem under_approximations_adjacent :
    ∃ v, link 8 (.topItv (some 0) (some 9) 0 1) (.topItv (some 10) (some 20) 0 1) = .ok v ∧ Wf 8 v ∧
      concr v ⊆ concr (.topItv (some 0) (some 9) 0 1) ∪ concr (.topItv (some 10) (some 20) 0 1) := by
  have h1 : Wf 8 (.topItv (some 0) (some 9) 0 1) := ⟨by decide,by decide,by decide,by simp,by simp,by simp⟩
  have h2 : Wf 8 (.topItv (some 10) (some 20) 0 1) := ⟨by decide,by decide,by decide,by simp,by simp,by simp⟩
  refine (under_approximations_iff (by decide) h1 h2).1.mpr ⟨?_,?_,?_⟩
  · rintro ⟨⟨⟨_,h⟩,_⟩,_⟩
    cases h
  · rintro ⟨_,_,_,_,_,_,h,h',hgap⟩
    cases h
    cases h'
    omega
  · rintro ⟨_,_,_,_,_,_,h,h',hgap⟩
    cases h
    cases h'
    omega

/-- Nine consecutive integers give a progression of modulus zero, and a link fills the gap between two progressions. -/
theorem link_ill_formed_and_unsound :
    (Wf 8 (.set [0,1,2,3,4]) ∧ Wf 8 (.set [5,6,7,8]) ∧
      link 8 (.set [0,1,2,3,4]) (.set [5,6,7,8]) = .ok (.topItv (some 0) (some 8) 1 0) ∧
      ¬ Wf 8 (.topItv (some 0) (some 8) 1 0)) ∧
    Wf 8 (.topItv (some 0) (some 9) 0 1) ∧ Wf 8 (.topItv (some 20) (some 30) 0 1) ∧
      link 8 (.topItv (some 0) (some 9) 0 1) (.topItv (some 20) (some 30) 0 1) = .ok (.topItv (some 0) (some 30) 0 1) ∧
      15 ∈ concr (.topItv (some 0) (some 30) 0 1) ∧
      15 ∉ concr (.topItv (some 0) (some 9) 0 1) ∪ concr (.topItv (some 20) (some 30) 0 1) := by
  refine ⟨⟨⟨by simp,by decide⟩,⟨by simp,by decide⟩,by decide,fun h => absurd h.1 (by decide)⟩,
    ⟨by decide,by decide,by decide,by simp,by simp,by simp⟩,⟨by decide,by decide,by decide,by simp,by simp,by simp⟩,
    by decide,⟨by decide,by simp,by simp⟩,?_⟩
  rintro (h | h)
  · have := h.2.2 9 rfl
    omega
  · have := h.2.1 20 rfl
    omega

end FramaC.Ival
