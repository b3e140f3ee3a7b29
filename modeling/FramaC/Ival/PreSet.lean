import FramaC.Ival.Basic

/-! # Enumerated results

Operations on small sets enumerate their results into a `pre_set`, which becomes a
progression as soon as more than `small_cardinal` distinct integers have been added. The sets
`O.t` are strictly increasing lists.
-/
namespace FramaC.Ival
open Integer Progression

@[grind =] def O.add (x : ℤ) : List ℤ → List ℤ
  | [] => [x]
  | y :: o => if x < y then x :: y :: o else if x = y then y :: o else y :: O.add x o

inductive PreSet
  | preSet (o : List ℤ) (s : ℕ)
  | preTop (min max modu : ℤ)
  deriving DecidableEq, Repr

/-- The step of every loop that computes the modulus of a set with least element `m`. -/
def accumModu (m : ℤ) (acc x : ℤ) : ℤ := if x = m then acc else pgcd (x - m) acc

def unsafeMakeTopFromSet4 (s : List ℤ) : ℤ × ℤ × ℤ × ℤ :=
  let m := s.headD 0
  let modu := s.foldl (accumModu m) 0
  (m,s.getLastD 0,m % modu,modu)

def unsafeMakeTopFromArray4 (s : List ℤ) : Res (Option ℤ × Option ℤ × ℤ × ℤ) := do
  let l := s.length
  assertion (decide (l ≥ 2))
  let m := s.headD 0
  let modu := s.foldl (accumModu m) 0
  let r := m % modu
  let max := some (s.getLastD 0)
  let min := some m
  check min max r modu
  return (min,max,r,modu)

def unsafeMakeTopFromArray (s : List ℤ) : Res Ival := do
  let (min,max,r,modu) ← unsafeMakeTopFromArray4 s
  return shareTop min max r modu

def emptyPs : PreSet := .preSet [] 0

def addPs (sc : ℕ) (ps : PreSet) (x : ℤ) : PreSet :=
  match ps with
  | .preSet o s =>
    if x ∈ o then ps
    else
      let no := O.add x o
      if s < sc then .preSet no (s + 1)
      else
        let (min,max,_,modu) := unsafeMakeTopFromSet4 no
        .preTop min max modu
  | .preTop min max modu =>
    let newModu := if x = min then modu else pgcd (x - min) modu
    .preTop (Min.min min x) (Max.max max x) newModu

def injectPs : PreSet → Ival
  | .preSet o s => shareSet o s
  | .preTop min max modu => .topItv (some min) (some max) (min % modu) modu

def minMaxRMod : Ival → Res (Option ℤ × Option ℤ × ℤ × ℤ)
  | .set s => do
    assertion (decide (s.length ≥ 2))
    unsafeMakeTopFromArray4 s
  | .topItv a b c d => return (a,b,c,d)

def minAndMax : Ival → Res (Option ℤ × Option ℤ)
  | .set s => if s.length = 0 then .error .errorBottom else return (some (s.headD 0),some (s.getLastD 0))
  | .topItv a b _ _ => return (a,b)

def mapSetExnsafe (sc : ℕ) (f : ℤ → ℤ) (s : List ℤ) : Ival :=
  injectPs (s.foldl (fun acc v => addPs sc acc (f v)) emptyPs)

def apply2Notzero (sc : ℕ) (f : ℤ → ℤ → ℤ) (s1 s2 : List ℤ) : Ival :=
  injectPs (s1.foldl (fun acc v1 =>
    s2.foldl (fun acc v2 => if v2 = 0 then acc else addPs sc acc (f v1 v2)) acc) emptyPs)

def apply2N (sc : ℕ) (f : ℤ → ℤ → ℤ) (s1 s2 : List ℤ) : Ival :=
  injectPs (s1.foldl (fun ps e1 => s2.foldl (fun ps e2 => addPs sc ps (f e1 e2)) ps) emptyPs)

theorem O.mem_add {x y : ℤ} {o : List ℤ} : y ∈ O.add x o ↔ y = x ∨ y ∈ o := by
  induction o with
  | nil => simp [O.add]
  | cons z o ih =>
    unfold O.add
    split
    · simp
    · split
      · rename_i h
        simp [h]
      · rw [List.mem_cons,ih,List.mem_cons]
        tauto

theorem O.add_pairwise {x : ℤ} {o : List ℤ} (ho : o.Pairwise (· < ·)) :
    (O.add x o).Pairwise (· < ·) := by
  induction o with
  | nil => simp [O.add]
  | cons z o ih =>
    obtain ⟨hz,ho'⟩ := List.pairwise_cons.mp ho
    unfold O.add
    split
    · rename_i hxz
      refine List.pairwise_cons.mpr ⟨?_,ho⟩
      intro y hy
      rcases List.mem_cons.mp hy with rfl | hy
      · exact hxz
      · exact hxz.trans (hz y hy)
    · split
      · exact ho
      · refine List.pairwise_cons.mpr ⟨?_,ih ho'⟩
        intro y hy
        rcases (O.mem_add).mp hy with rfl | hy
        · omega
        · exact hz y hy

theorem O.length_add {x : ℤ} {o : List ℤ} (hx : x ∉ o) : (O.add x o).length = o.length + 1 := by
  induction o with
  | nil => rfl
  | cons z o ih =>
    rw [List.mem_cons,not_or] at hx
    obtain ⟨hne,hx⟩ := hx
    unfold O.add
    split
    · rfl
    · rw [List.length_cons,ih hx,List.length_cons]

theorem head_le_of_pairwise {s : List ℤ} (hs : s.Pairwise (· < ·)) {x : ℤ} (hx : x ∈ s) :
    s.headD 0 ≤ x := by
  cases s with
  | nil => simp at hx
  | cons a s =>
    rcases List.mem_cons.mp hx with rfl | hx
    · exact le_rfl
    · exact (List.rel_of_pairwise_cons hs hx).le

theorem getLastD_mem {s : List ℤ} (h : s ≠ []) : s.getLastD 0 ∈ s := by
  rw [List.getLastD_eq_getLast?,List.getLast?_eq_some_getLast h]
  exact List.getLast_mem h

theorem headD_mem {s : List ℤ} (h : s ≠ []) : s.headD 0 ∈ s := by
  cases s with
  | nil => exact absurd rfl h
  | cons a s => simp

theorem le_last_of_pairwise {s : List ℤ} (hs : s.Pairwise (· < ·)) {x : ℤ} (hx : x ∈ s) :
    x ≤ s.getLastD 0 := by
  induction s with
  | nil => simp at hx
  | cons a s ih =>
    obtain ⟨ha,hs'⟩ := List.pairwise_cons.mp hs
    cases s with
    | nil => simp_all
    | cons b s =>
      rw [List.getLastD_cons]
      have hlast : (b :: s).getLastD a = (b :: s).getLastD 0 := rfl
      rw [hlast]
      rcases List.mem_cons.mp hx with rfl | hx
      · exact (ha _ (getLastD_mem (by simp))).le
      · exact ih hs' hx

theorem dvd_foldl_accumModu {m : ℤ} (l : List ℤ) {acc k : ℤ} :
    k ∣ l.foldl (accumModu m) acc ↔ k ∣ acc ∧ ∀ x ∈ l, k ∣ x - m := by
  induction l generalizing acc with
  | nil => simp
  | cons x l ih =>
    rw [List.foldl_cons,ih,List.forall_mem_cons]
    unfold accumModu
    split
    · rename_i h
      subst h
      simp
    · rw [dvd_pgcd_iff]
      tauto

theorem foldl_accumModu_nonneg {m : ℤ} (l : List ℤ) {acc : ℤ} (h : 0 ≤ acc) :
    0 ≤ l.foldl (accumModu m) acc := by
  induction l generalizing acc with
  | nil => exact h
  | cons x l ih =>
    refine ih ?_
    unfold accumModu
    split
    · exact h
    · exact pgcd_nonneg _ _

theorem foldl_accumModu_pos {m x : ℤ} {l : List ℤ} (hx : x ∈ l) (hne : x ≠ m) :
    1 ≤ l.foldl (accumModu m) 0 := by
  have h0 : 0 ≤ l.foldl (accumModu m) 0 := foldl_accumModu_nonneg l le_rfl
  have hd : l.foldl (accumModu m) 0 ∣ x - m := ((dvd_foldl_accumModu l).mp dvd_rfl).2 x hx
  rcases h0.eq_or_lt with h | h
  · rw [← h,zero_dvd_iff] at hd
    omega
  · omega

theorem span_set {s : List ℤ} (hs : s.Pairwise (· < ·)) (h2 : 2 ≤ s.length) :
    Reduced (some (s.headD 0)) (some (s.getLastD 0)) (s.headD 0 % s.foldl (accumModu (s.headD 0)) 0)
        (s.foldl (accumModu (s.headD 0)) 0) ∧
      Long (s.length - 1) (some (s.headD 0)) (some (s.getLastD 0)) (s.foldl (accumModu (s.headD 0)) 0) ∧
      ∀ x ∈ s, x ∈ prog (some (s.headD 0)) (some (s.getLastD 0))
        (s.headD 0 % s.foldl (accumModu (s.headD 0)) 0) (s.foldl (accumModu (s.headD 0)) 0) := by
  have hne : s ≠ [] := by rintro rfl; simp at h2
  set a := s.headD 0 with ha
  set m := s.foldl (accumModu a) 0 with hm
  have hmem := headD_mem hne
  have hdvd : ∀ x ∈ s, m ∣ x - a := fun x hx => (dvd_foldl_accumModu s).mp dvd_rfl |>.2 x hx
  have hpos : 1 ≤ m := by
    cases s with
    | nil => exact absurd rfl hne
    | cons y s =>
      cases s with
      | nil => simp at h2
      | cons z s =>
        have hyz : y < z := List.rel_of_pairwise_cons hs (by simp)
        exact foldl_accumModu_pos (x := z) (by simp) (by simp [ha]; omega)
  have hcls : ∀ x ∈ s, x % m = a % m := fun x hx => by
    rw [Int.emod_eq_emod_iff_emod_sub_eq_zero,← Int.dvd_iff_emod_eq_zero]
    exact hdvd x hx
  refine ⟨⟨hpos,Int.emod_nonneg _ (by omega),Int.emod_lt_of_pos _ (by omega),?_,?_⟩,?_,?_⟩
  · rintro _ ⟨⟩
    rfl
  · rintro _ ⟨⟩
    exact hcls _ (getLastD_mem hne)
  · rintro _ ⟨⟩ _ ⟨⟩
    cases s with
    | nil => exact absurd rfl hne
    | cons y s =>
      have := span_of_pairwise hs (m := m) fun x hx => hdvd x (by simp [hx])
      rw [List.getLastD_eq_getLast?,List.getLast?_eq_some_getLast hne]
      simpa [ha] using this
  · intro x hx
    refine ⟨hcls x hx,?_,?_⟩
    · rintro _ ⟨⟩
      exact head_le_of_pairwise hs hx
    · rintro _ ⟨⟩
      exact le_last_of_pairwise hs hx

theorem unsafeMakeTopFromArray4_ok {s : List ℤ} (hs : s.Pairwise (· < ·)) (h2 : 2 ≤ s.length) :
    unsafeMakeTopFromArray4 s = .ok (some (s.headD 0),some (s.getLastD 0),
      s.headD 0 % s.foldl (accumModu (s.headD 0)) 0,s.foldl (accumModu (s.headD 0)) 0) := by
  have h := check_ok (span_set hs h2).1
  simp only [unsafeMakeTopFromArray4,ge_iff_le,h2,decide_true,assertion_true,Res.ok_bind,h]
  rfl

/-- The accumulator holds exactly `E` while it is a set, and covers `E` afterwards. -/
def PreSet.Holds (sc : ℕ) (E : Set ℤ) : PreSet → Prop
  | .preSet o s => o.Pairwise (· < ·) ∧ s = o.length ∧ s ≤ sc ∧ ∀ x, x ∈ o ↔ x ∈ E
  | .preTop min max modu => 1 ≤ modu ∧ modu ∣ max - min ∧ sc * modu ≤ max - min ∧
      ∀ x ∈ E, min ≤ x ∧ x ≤ max ∧ modu ∣ x - min

theorem emptyPs_holds (sc : ℕ) : emptyPs.Holds sc ∅ := ⟨List.Pairwise.nil,rfl,by simp,by simp⟩

theorem addPs_holds {sc : ℕ} (hsc : 2 ≤ sc) {ps : PreSet} {E : Set ℤ} (h : ps.Holds sc E) (x : ℤ) :
    (addPs sc ps x).Holds sc (insert x E) := by
  cases ps with
  | preSet o s =>
    obtain ⟨ho,rfl,hle,hE⟩ := h
    simp only [addPs]
    split
    · rename_i hx
      refine ⟨ho,rfl,hle,fun y => ?_⟩
      rw [hE,Set.mem_insert_iff]
      constructor
      · exact .inr
      · rintro (rfl | hy)
        · exact (hE y).mp hx
        · exact hy
    · rename_i hx
      have hlen := O.length_add hx
      have hmem : ∀ y, y ∈ O.add x o ↔ y ∈ insert x E := fun y => by
        rw [O.mem_add,Set.mem_insert_iff,hE]
      split
      · rename_i hlt
        exact ⟨O.add_pairwise ho,hlen.symm,hlt,hmem⟩
      · rename_i hge
        have hs := O.add_pairwise (x := x) ho
        obtain ⟨hr,hl,hall⟩ := span_set hs (by omega)
        refine ⟨hr.pos,?_,?_,?_⟩
        · exact dvd_sub_of_emod_eq (hr.upper _ rfl)
        · have := hl _ rfl _ rfl
          rwa [hlen,show o.length + 1 - 1 = sc by omega] at this
        · intro y hy
          obtain ⟨hy1,hy2,hy3⟩ := hall y ((hmem y).mpr hy)
          exact ⟨hy2 _ rfl,hy3 _ rfl,dvd_sub_of_emod_eq hy1⟩
  | preTop min max modu =>
    obtain ⟨hpos,hd,hlong,hE⟩ := h
    simp only [addPs]
    set nm := if x = min then modu else pgcd (x - min) modu with hnm
    have hnm1 : 1 ≤ nm := by
      rw [hnm]
      split
      · exact hpos
      · exact one_le_pgcd_right hpos
    have hnmd : nm ∣ modu := by
      rw [hnm]
      split
      · exact dvd_rfl
      · exact pgcd_dvd_right _ _
    have hnmx : nm ∣ x - min := by
      rw [hnm]
      split
      · simp [*]
      · exact pgcd_dvd_left _ _
    have hmin : nm ∣ Min.min min x - min := by
      rcases min_choice min x with h | h <;> rw [h]
      · simp
      · exact hnmx
    have hmax : nm ∣ Max.max max x - min := by
      rcases max_choice max x with h | h <;> rw [h]
      · exact hnmd.trans hd
      · exact hnmx
    have hle : nm ≤ modu := Int.le_of_dvd (by omega) hnmd
    refine ⟨hnm1,?_,?_,?_⟩
    · have := dvd_sub hmax hmin
      rwa [show Max.max max x - min - (Min.min min x - min) = Max.max max x - Min.min min x by ring] at this
    · have h1 : (sc : ℤ) * nm ≤ sc * modu := by gcongr
      have h2 := min_le_left min x
      have h3 := le_max_left max x
      omega
    · intro y hy
      have hnmy : nm ∣ y - min ∧ Min.min min x ≤ y ∧ y ≤ Max.max max x := by
        rcases Set.mem_insert_iff.mp hy with rfl | hy
        · exact ⟨hnmx,min_le_right _ _,le_max_right _ _⟩
        · obtain ⟨h1,h2,h3⟩ := hE y hy
          exact ⟨hnmd.trans h3,(min_le_left _ _).trans h1,h2.trans (le_max_left _ _)⟩
      refine ⟨hnmy.2.1,hnmy.2.2,?_⟩
      have := dvd_sub hnmy.1 hmin
      rwa [show y - min - (Min.min min x - min) = y - Min.min min x by ring] at this

theorem shareSet_eq (o : List ℤ) : shareSet o o.length = .set o := by
  unfold shareSet
  split
  · rename_i h0
    rw [bottom,List.length_eq_zero_iff.mp h0]
  · split
    · rename_i h1
      obtain ⟨a,rfl⟩ := List.length_eq_one_iff.mp h1
      rfl
    · rfl

theorem injectPs_spec {sc : ℕ} {ps : PreSet} {E : Set ℤ} (h : ps.Holds sc E) :
    Wf sc (injectPs ps) ∧ E ⊆ concr (injectPs ps) := by
  cases ps with
  | preSet o s =>
    obtain ⟨ho,rfl,hle,hE⟩ := h
    rw [injectPs,shareSet_eq]
    exact ⟨⟨ho,hle⟩,fun x hx => (hE x).mpr hx⟩
  | preTop min max modu =>
    obtain ⟨hpos,hd,hlong,hE⟩ := h
    have hmod : ∀ x, modu ∣ x - min → x % modu = min % modu := fun x hx => by
      rw [Int.emod_eq_emod_iff_emod_sub_eq_zero,← Int.dvd_iff_emod_eq_zero]
      exact hx
    constructor
    · refine wf_topItv_iff.mpr ⟨⟨hpos,Int.emod_nonneg _ (by omega),Int.emod_lt_of_pos _ (by omega),?_,?_⟩,?_⟩
      · rintro _ ⟨⟩
        rfl
      · rintro _ ⟨⟩
        exact hmod _ hd
      · rintro _ ⟨⟩ _ ⟨⟩
        exact hlong
    · intro x hx
      obtain ⟨h1,h2,h3⟩ := hE x hx
      exact ⟨hmod x h3,by rintro _ ⟨⟩; exact h1,by rintro _ ⟨⟩; exact h2⟩

theorem foldl_addPs_holds {sc : ℕ} (hsc : 2 ≤ sc) {α : Type} (l : List α) (f : α → ℤ) {ps : PreSet}
    {E : Set ℤ} (h : ps.Holds sc E) :
    (l.foldl (fun acc v => addPs sc acc (f v)) ps).Holds sc (E ∪ {y | ∃ v ∈ l, f v = y}) := by
  induction l generalizing ps E with
  | nil => simpa using h
  | cons v l ih =>
    have := ih (addPs_holds hsc h (f v))
    rw [List.foldl_cons]
    convert this using 1
    ext y
    simp only [Set.mem_union,Set.mem_ofPred_eq,List.exists_mem_cons_iff,Set.mem_insert_iff]
    constructor
    · rintro (h | rfl | h) <;> tauto
    · rintro ((rfl | h) | h) <;> tauto

theorem mapSetExnsafe_spec {sc : ℕ} (hsc : 2 ≤ sc) (f : ℤ → ℤ) (s : List ℤ) :
    Wf sc (mapSetExnsafe sc f s) ∧ ∀ x ∈ s, f x ∈ concr (mapSetExnsafe sc f s) := by
  obtain ⟨hw,hE⟩ := injectPs_spec (foldl_addPs_holds hsc s f (emptyPs_holds sc))
  exact ⟨hw,fun x hx => hE (.inr ⟨x,hx,rfl⟩)⟩

theorem foldl_foldl_addPs_holds {sc : ℕ} (hsc : 2 ≤ sc) (f : ℤ → ℤ → ℤ) (p : ℤ → Prop) [DecidablePred p]
    (s1 s2 : List ℤ) {ps : PreSet} {E : Set ℤ} (h : ps.Holds sc E) :
    (s1.foldl (fun acc v1 => s2.foldl (fun acc v2 => if p v2 then acc else addPs sc acc (f v1 v2)) acc)
      ps).Holds sc (E ∪ {y | ∃ v1 ∈ s1, ∃ v2 ∈ s2, ¬ p v2 ∧ f v1 v2 = y}) := by
  have inner : ∀ (s2 : List ℤ) (v1 : ℤ) {ps : PreSet} {E : Set ℤ}, ps.Holds sc E →
      (s2.foldl (fun acc v2 => if p v2 then acc else addPs sc acc (f v1 v2)) ps).Holds sc
        (E ∪ {y | ∃ v2 ∈ s2, ¬ p v2 ∧ f v1 v2 = y}) := by
    intro s2 v1
    induction s2 with
    | nil => intro ps E h; simpa using h
    | cons v2 s2 ih =>
      intro ps E h
      rw [List.foldl_cons]
      by_cases hp : p v2
      · rw [if_pos hp]
        convert ih h using 1
        ext y
        simp [hp]
      · rw [if_neg hp]
        convert ih (addPs_holds hsc h (f v1 v2)) using 1
        ext y
        simp only [Set.mem_union,Set.mem_ofPred_eq,List.exists_mem_cons_iff,Set.mem_insert_iff,hp,
          not_false_eq_true,true_and]
        constructor
        · rintro (h | rfl | h) <;> tauto
        · rintro ((rfl | h) | h) <;> tauto
  induction s1 generalizing ps E with
  | nil => simpa using h
  | cons v1 s1 ih =>
    rw [List.foldl_cons]
    convert ih (inner s2 v1 h) using 1
    ext y
    simp only [Set.mem_union,Set.mem_ofPred_eq,List.exists_mem_cons_iff]
    exact or_assoc.symm

theorem apply2Notzero_spec {sc : ℕ} (hsc : 2 ≤ sc) (f : ℤ → ℤ → ℤ) (s1 s2 : List ℤ) :
    Wf sc (apply2Notzero sc f s1 s2) ∧
      ∀ x ∈ s1, ∀ y ∈ s2, y ≠ 0 → f x y ∈ concr (apply2Notzero sc f s1 s2) := by
  obtain ⟨hw,hE⟩ := injectPs_spec
    (foldl_foldl_addPs_holds hsc f (fun v => v = 0) s1 s2 (emptyPs_holds sc))
  exact ⟨hw,fun x hx y hy h0 => hE (.inr ⟨x,hx,y,hy,h0,rfl⟩)⟩

theorem apply2N_spec {sc : ℕ} (hsc : 2 ≤ sc) (f : ℤ → ℤ → ℤ) (s1 s2 : List ℤ) :
    Wf sc (apply2N sc f s1 s2) ∧ ∀ x ∈ s1, ∀ y ∈ s2, f x y ∈ concr (apply2N sc f s1 s2) := by
  obtain ⟨hw,hE⟩ := injectPs_spec
    (foldl_foldl_addPs_holds hsc f (fun _ => False) s1 s2 (emptyPs_holds sc))
  simp only [if_false] at hw hE
  exact ⟨hw,fun x hx y hy => hE (.inr ⟨x,hx,y,hy,not_false,rfl⟩)⟩

end FramaC.Ival
