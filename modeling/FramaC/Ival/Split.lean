import FramaC.Ival.Compare

/-! # Splitting

`subdiv_int` cuts an ival in two halves. `fold_int_bounds` takes the finite bounds apart from the rest.
-/
namespace FramaC.Ival
open Integer Progression

def subdivInt (sc : ℕ) (v : Ival) : Res (Ival × Ival) :=
  match v with
  | .set arr => do
    let len := arr.length
    assertion (decide (len > 0))
    if len ≤ 1 then .error .canNotSubdiv
    else
      let m := len / 2
      let lenhi := len - m
      let lo := arr.take m
      let hi := arr.drop m
      return (shareArray lo m,shareArray hi lenhi)
  | .topItv (some lo) (some hi) rem modu => do
    let mean := (lo + hi) / 2
    let succmean := mean + 1
    return (← injectInterval sc (some lo) (some mean) rem modu,← injectInterval sc (some succmean) (some hi) rem modu)
  | .topItv .. => .error .canNotSubdiv

section Fold
variable {α : Type}

/-- `on_bound` of `fold_int_bounds`. -/
def onBound (sc : ℕ) (f : Ival → α → α) (b : Option ℤ) (v : Ival) (acc : α) : Res (Ival × α) :=
  match b with
  | none => return (v,acc)
  | some b => do
    let b := injectSingleton b
    return (← diffIfOne sc v b,f b acc)

def foldIntBounds (sc : ℕ) (f : Ival → α → α) (v : Ival) (acc : α) : Res α :=
  if cardinalZeroOrOne v then return f v acc
  else do
    let (min,max) ← minAndMax v
    let (v,acc) ← onBound sc f min v acc
    let (v,acc) ← onBound sc f max v acc
    -- a cardinal of two leaves bottom
    if equal v bottom then return acc else return f v acc

/-- `fold_int`, with the enumeration of `Int.fold`. -/
def foldInt (f : ℤ → α → α) (v : Ival) (acc : α) : Res α :=
  match v with
  | .topItv (some inf) (some sup) _ step =>
    return (Progression.steps step ((sup - inf) / step + 1).toNat inf).foldl (fun acc x => f x acc) acc
  | .topItv .. => .error .errorTop
  | .set s => return s.foldl (fun acc x => f x acc) acc

end Fold

def cardinalLessThan (v : Ival) (n : ℤ) : Res ℤ := do
  let c ← match v with
    | .topItv (some mn) (some mx) _ m => .ok ((mx - mn) / m + 1)
    | .topItv .. => .error .notLessThan
    | .set s => .ok (s.length : ℤ)
  if c ≤ n then return c else .error .notLessThan

/-- Pairwise disjoint ivals that cover a set exactly. -/
structure Partition (E : Set ℤ) (parts : List Ival) : Prop where
  disjoint : parts.Pairwise fun p q => Disjoint (concr p) (concr q)
  cover : ∀ x, x ∈ E ↔ ∃ p ∈ parts, x ∈ concr p

section Partitions
variable {sc : ℕ} {v : Ival} {E : Set ℤ} {parts : List Ival}

theorem Partition.single (v : Ival) : Partition (concr v) [v] :=
  ⟨List.pairwise_singleton _ _,fun x => by simp⟩

theorem Partition.cons_bound {b : Option ℤ} (hb : ∀ x ∈ b, x ∈ E) (h : Partition (E \ {x | x ∈ b}) parts) :
    Partition E (b.toList.map injectSingleton ++ parts) := by
  cases b with
  | none =>
    have hE : E \ {x | x ∈ (none : Option ℤ)} = E := by simp
    rwa [hE] at h
  | some b =>
    have hmem : ∀ x, x ∈ E ∧ x ≠ b ↔ ∃ p ∈ parts, x ∈ concr p := fun x => by
      rw [← h.cover x]
      simp [eq_comm]
    refine ⟨List.pairwise_cons.mpr ⟨fun p hp => ?_,h.disjoint⟩,fun x => ?_⟩
    · refine Set.disjoint_left.mpr fun x hx hxp => ?_
      have hxb : x = b := by simpa [injectSingleton] using hx
      exact ((hmem x).mpr ⟨p,hp,hxp⟩).2 hxb
    · simp only [Option.toList_some,List.map_cons,List.map_nil,List.singleton_append,List.mem_cons,exists_eq_or_imp,
        ← hmem,injectSingleton,mem_concr_set,List.not_mem_nil,or_false]
      by_cases hx : x = b
      · simp [hx,hb b rfl]
      · simp [hx]

theorem Partition.halves {v w1 w2 : Ival} {c : ℤ} (h1 : concr w1 = {x ∈ concr v | x ≤ c})
    (h2 : concr w2 = {x ∈ concr v | c < x}) : Partition (concr v) [w1,w2] := by
  refine ⟨List.pairwise_pair.mpr (Set.disjoint_left.mpr fun x hx1 hx2 => ?_),fun x => ?_⟩
  · rw [h1] at hx1
    rw [h2] at hx2
    exact absurd hx1.2 (not_le.mpr hx2.2)
  · simp only [List.mem_cons,List.not_mem_nil,or_false,exists_eq_or_imp,exists_eq_left,h1,h2]
    constructor
    · intro hx
      rcases le_or_gt x c with hxc | hxc
      · exact Or.inl ⟨hx,hxc⟩
      · exact Or.inr ⟨hx,hxc⟩
    · rintro (hx | hx)
      · exact hx.1
      · exact hx.1

end Partitions

section Subdivision
variable {sc : ℕ} {v : Ival}

/-- The ivals that `subdiv_int` accepts. -/
def Divisible (v : Ival) : Prop :=
  match v with
  | .set s => 2 ≤ s.length
  | .topItv mn mx _ _ => mn ≠ none ∧ mx ≠ none

theorem subdivSet_spec {s : List ℤ} (h : Wf sc (.set s)) (h2 : 2 ≤ s.length) :
    ∃ lo hi, subdivInt sc (.set s) = .ok (lo,hi) ∧ Wf sc lo ∧ Wf sc hi ∧ lo ≠ bottom ∧ hi ≠ bottom ∧
      Partition (concr (.set s)) [lo,hi] := by
  have hhalf : s.length / 2 = (s.take (s.length / 2)).length := by
    rw [List.length_take]
    omega
  have hrest : s.length - s.length / 2 = (s.drop (s.length / 2)).length := by rw [List.length_drop]
  have hlo : shareArray (s.take (s.length / 2)) (s.length / 2) = .set (s.take (s.length / 2)) := by
    conv_lhs => arg 2; rw [hhalf]
    exact shareArray_eq _
  have hhi : shareArray (s.drop (s.length / 2)) (s.length - s.length / 2) = .set (s.drop (s.length / 2)) := by
    rw [hrest]
    exact shareArray_eq _
  have hsplit : (s.take (s.length / 2) ++ s.drop (s.length / 2)).Pairwise (· < ·) := by
    rw [List.take_append_drop]
    exact h.1
  obtain ⟨hp1,hp2,hlt⟩ := List.pairwise_append.mp hsplit
  have hwlo : Wf sc (.set (s.take (s.length / 2))) := ⟨hp1,(List.length_take_le' _ _).trans h.2⟩
  have hwhi : Wf sc (.set (s.drop (s.length / 2))) := ⟨hp2,(List.drop_sublist _ _).length_le.trans h.2⟩
  refine ⟨_,_,?_,hwlo,hwhi,?_,?_,⟨List.pairwise_pair.mpr ?_,?_⟩⟩
  · have hpos : decide (s.length > 0) = true := by simp; omega
    simp only [subdivInt,hpos,assertion_true,Res.ok_bind,if_neg (by omega : ¬ s.length ≤ 1),hlo,hhi]
    rfl
  · intro he
    have := congrArg List.length (Ival.set.inj he)
    rw [← hhalf,List.length_nil] at this
    omega
  · intro he
    have := congrArg List.length (Ival.set.inj he)
    rw [← hrest,List.length_nil] at this
    omega
  · exact Set.disjoint_left.mpr fun x hx1 hx2 => lt_irrefl x (hlt x hx1 x hx2)
  · intro x
    simp only [List.mem_cons,List.not_mem_nil,or_false,exists_eq_or_imp,exists_eq_left,mem_concr_set]
    rw [← List.mem_append,List.take_append_drop]

theorem subdivTop_spec (hsc : 2 ≤ sc) {lo hi r m : ℤ} (h : Wf sc (.topItv (some lo) (some hi) r m)) :
    ∃ v1 v2, subdivInt sc (.topItv (some lo) (some hi) r m) = .ok (v1,v2) ∧ Wf sc v1 ∧ Wf sc v2 ∧ v1 ≠ bottom ∧
      v2 ≠ bottom ∧ Partition (concr (.topItv (some lo) (some hi) r m)) [v1,v2] := by
  obtain ⟨hr,hl⟩ := wf_topItv_iff.mp h
  have hlt : lo < hi := by
    have hlong := hl lo rfl hi rfl
    have := Int.mul_le_mul_of_nonneg_left hr.pos (Int.natCast_nonneg sc)
    omega
  obtain ⟨v1,hv1,hw1,hc1⟩ := injectInterval_spec hsc (some lo) (some ((lo + hi) / 2)) hr.pos hr.nonneg hr.lt
  obtain ⟨v2,hv2,hw2,hc2⟩ := injectInterval_spec hsc (some ((lo + hi) / 2 + 1)) (some hi) hr.pos hr.nonneg hr.lt
  have hlom : lo ∈ concr v1 := by
    rw [hc1]
    refine ⟨hr.lower lo rfl,by simp,?_⟩
    rintro _ ⟨⟩
    omega
  have hhim : hi ∈ concr v2 := by
    rw [hc2]
    refine ⟨hr.upper hi rfl,?_,by simp⟩
    rintro _ ⟨⟩
    omega
  refine ⟨v1,v2,by simp only [subdivInt,hv1,hv2,Res.ok_bind]; rfl,hw1,hw2,?_,?_,Partition.halves (c := (lo + hi) / 2) ?_ ?_⟩
  · rintro rfl
    exact absurd hlom List.not_mem_nil
  · rintro rfl
    exact absurd hhim List.not_mem_nil
  · rw [hc1]
    ext x
    simp only [mem_prog,concr_topItv,Set.mem_ofPred_eq,Option.mem_def,Option.some.injEq,forall_eq']
    omega
  · rw [hc2]
    ext x
    simp only [mem_prog,concr_topItv,Set.mem_ofPred_eq,Option.mem_def,Option.some.injEq,forall_eq']
    omega

end Subdivision

section Folding
variable {sc : ℕ} {v w : Ival} {x : ℤ}

theorem removable_of_extreme (h : Wf sc w) (hx : x ∈ concr w) (hext : (∀ y ∈ concr w, x ≤ y) ∨ ∀ y ∈ concr w, y ≤ x) :
    Removable sc w x := by
  obtain ⟨mn,mx,hb,_,_,hE⟩ := extremes_of_wf h (by rintro rfl; exact List.not_mem_nil hx)
  cases w with
  | set s => trivial
  | topItv mn' mx' r m =>
    cases hb
    rcases hext with hleast | hgreatest
    · cases mn with
      | none =>
        obtain ⟨y,hy,hlt⟩ := hE.below rfl (x - 1)
        have := hleast y hy
        omega
      | some a =>
        obtain ⟨ha,hale⟩ := hE.lower a rfl
        exact Or.inl (congrArg some (le_antisymm (hale x hx) (hleast a ha)))
    · cases mx with
      | none =>
        obtain ⟨y,hy,hlt⟩ := hE.above rfl (x + 1)
        have := hgreatest y hy
        omega
      | some b =>
        obtain ⟨hb,hble⟩ := hE.upper b rfl
        exact Or.inr (Or.inl (congrArg some (le_antisymm (hgreatest b hb) (hble x hx))))

theorem onBound_spec (hsc : 2 ≤ sc) (h : Wf sc v) {b : Option ℤ} (hb : ∀ x ∈ b, Removable sc v x) :
    ∃ w, Wf sc w ∧ concr w = concr v \ {x | x ∈ b} ∧ ∀ {α : Type} (f : Ival → α → α) (acc : α),
      onBound sc f b v acc = .ok (w,(b.toList.map injectSingleton).foldl (fun acc p => f p acc) acc) := by
  cases b with
  | none => exact ⟨v,h,by simp,fun f acc => rfl⟩
  | some b =>
    obtain ⟨w,hw,hww,hrem,_⟩ := diffIfOne_spec hsc h b
    refine ⟨w,hww,?_,fun f acc => ?_⟩
    · rw [hrem (hb b rfl)]
      simp
    · rw [onBound,injectSingleton,hw,Res.ok_bind]
      rfl

theorem foldIntBounds_spec (hsc : 2 ≤ sc) (h : Wf sc v) (hne : v ≠ bottom) :
    ∃ parts, Partition (concr v) parts ∧ ∀ {α : Type} (f : Ival → α → α) (acc : α),
      foldIntBounds sc f v acc = .ok (parts.foldl (fun acc p => f p acc) acc) := by
  by_cases hone : cardinalZeroOrOne v = true
  · exact ⟨[v],.single v,fun f acc => by rw [foldIntBounds,if_pos hone]; rfl⟩
  · obtain ⟨mn,mx,hb,_,_,hE⟩ := extremes_of_wf h hne
    obtain ⟨a,ha,c,hc,hac⟩ := exists_two hsc h (by simpa using hone)
    obtain ⟨w1,hw1,hc1,hf1⟩ := onBound_spec hsc h (b := mn) fun x hx =>
      removable_of_extreme h (hE.lower x hx).1 (Or.inl (hE.lower x hx).2)
    have hmx : ∀ x ∈ mx, x ∈ concr w1 ∧ ∀ y ∈ concr w1, y ≤ x := by
      intro x hx
      obtain ⟨hxv,hxmax⟩ := hE.upper x hx
      rw [hc1]
      refine ⟨⟨hxv,fun hxmn => ?_⟩,fun y hy => hxmax y hy.1⟩
      -- with two members the bounds differ
      have := (hE.lower x hxmn).2 a ha
      have := hxmax c hc
      omega
    obtain ⟨w2,hw2,hc2,hf2⟩ := onBound_spec hsc hw1 (b := mx) fun x hx =>
      removable_of_extreme hw1 (hmx x hx).1 (Or.inr (hmx x hx).2)
    have hrest : Partition (concr w2) (if w2 = bottom then [] else [w2]) := by
      by_cases hw : w2 = bottom
      · rw [if_pos hw,hw]
        exact ⟨List.Pairwise.nil,fun x => by simp [bottom]⟩
      · rw [if_neg hw]
        exact .single w2
    rw [hc2] at hrest
    have hpart1 := Partition.cons_bound (fun x hx => (hmx x hx).1) hrest
    rw [hc1] at hpart1
    have hpart := Partition.cons_bound (fun x hx => (hE.lower x hx).1) hpart1
    refine ⟨_,hpart,fun f acc => ?_⟩
    rw [foldIntBounds,if_neg hone,hb]
    simp only [Res.ok_bind,hf1,hf2,List.foldl_append,equal_iff]
    by_cases hw : w2 = bottom
    · rw [if_pos hw,if_pos hw]
      rfl
    · rw [if_neg hw,if_neg hw]
      rfl

end Folding

/-- Both splits lose and duplicate no integer. -/
theorem subdivInt_foldIntBounds_partition {sc : ℕ} (hsc : 2 ≤ sc) {v : Ival} (h : Wf sc v) :
    (Divisible v → ∃ lo hi, subdivInt sc v = .ok (lo,hi) ∧ Wf sc lo ∧ Wf sc hi ∧ lo ≠ bottom ∧ hi ≠ bottom ∧
      Disjoint (concr lo) (concr hi) ∧ concr lo ∪ concr hi = concr v) ∧
    (v ≠ bottom → ∃ parts, Partition (concr v) parts ∧ ∀ {α : Type} (f : Ival → α → α) (acc : α),
      foldIntBounds sc f v acc = .ok (parts.foldl (fun acc p => f p acc) acc)) := by
  refine ⟨fun hd => ?_,foldIntBounds_spec hsc h⟩
  obtain ⟨lo,hi,hv,hlo,hhi,hlb,hhb,hpart⟩ : ∃ lo hi, subdivInt sc v = .ok (lo,hi) ∧ Wf sc lo ∧ Wf sc hi ∧
      lo ≠ bottom ∧ hi ≠ bottom ∧ Partition (concr v) [lo,hi] := by
    cases v with
    | set s => exact subdivSet_spec h hd
    | topItv mn mx r m =>
      obtain ⟨a,rfl⟩ := Option.ne_none_iff_exists'.mp hd.1
      obtain ⟨b,rfl⟩ := Option.ne_none_iff_exists'.mp hd.2
      exact subdivTop_spec hsc h
  have hdisj : Disjoint (concr lo) (concr hi) := List.rel_of_pairwise_cons hpart.disjoint (by simp)
  refine ⟨lo,hi,hv,hlo,hhi,hlb,hhb,hdisj,?_⟩
  ext x
  rw [hpart.cover x]
  simp

theorem subdivInt_foldIntBounds_partition_small :
    (∃ lo hi, subdivInt 8 (.set [1,4,6]) = .ok (lo,hi) ∧ Wf 8 lo ∧ Wf 8 hi ∧ lo ≠ bottom ∧ hi ≠ bottom ∧
      Disjoint (concr lo) (concr hi) ∧ concr lo ∪ concr hi = concr (.set [1,4,6])) ∧
    ∃ parts, Partition (concr (.set [1,4,6])) parts ∧ ∀ {α : Type} (f : Ival → α → α) (acc : α),
      foldIntBounds 8 f (.set [1,4,6]) acc = .ok (parts.foldl (fun acc p => f p acc) acc) := by
  have h := @subdivInt_foldIntBounds_partition 8 (by decide) (.set [1,4,6]) ⟨by simp,by decide⟩
  exact ⟨h.1 (by decide : 2 ≤ [1,4,6].length),h.2 (by simp [bottom])⟩

end FramaC.Ival
