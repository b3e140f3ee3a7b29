import FramaC.Ival.Cast
import FramaC.Ival.RangeSound
import FramaC.Ival.Widen

/-! # Forward and backward comparisons

A forward comparison answers from the bounds of its operands, a backward one reduces its left operand.
-/
namespace FramaC.Ival
open Integer Progression Outcome

/-- `Abstract_interp.truth`. -/
inductive Truth
  | true
  | false
  | unknown
  deriving DecidableEq, Repr

def invTruth : Truth → Truth
  | .unknown => .unknown
  | .true => .false
  | .false => .true

@[grind =] def compareMinMax (min max : Option ℤ) : ℤ :=
  match min, max with
  | none, _ => -1
  | _, none => -1
  | some min, some max => intCompare min max

@[grind =] def compareMaxMin (max min : Option ℤ) : ℤ :=
  match max, min with
  | none, _ => 1
  | _, none => 1
  | some max, some min => intCompare max min

def forwardLeInt (i1 i2 : Ival) : Res Truth := do
  if compareMaxMin (← maxInt i1) (← minInt i2) ≤ 0 then return .true
  else if compareMinMax (← minInt i1) (← maxInt i2) > 0 then return .false
  else return .unknown

def forwardLtInt (i1 i2 : Ival) : Res Truth := do
  if compareMaxMin (← maxInt i1) (← minInt i2) < 0 then return .true
  else if compareMinMax (← minInt i1) (← maxInt i2) ≥ 0 then return .false
  else return .unknown

def forwardEqInt (sc : ℕ) (i1 i2 : Ival) : Res Truth := do
  if cardinalZeroOrOne i1 && equal i1 i2 then return .true
  else if ← intersects sc i2 i2 then return .unknown
  else return .false

def forwardCompInt (sc : ℕ) (op : Comp) (i1 i2 : Ival) : Res Truth :=
  match op with
  | .le => forwardLeInt i1 i2
  | .ge => forwardLeInt i2 i1
  | .lt => forwardLtInt i1 i2
  | .gt => forwardLtInt i2 i1
  | .eq => forwardEqInt sc i1 i2
  | .ne => do return invTruth (← forwardEqInt sc i1 i2)

/-- Each bound is a member that bounds the others, and a missing bound is missing for good. -/
structure Extremes (E : Set ℤ) (mn mx : Option ℤ) : Prop where
  lower : ∀ a ∈ mn, a ∈ E ∧ ∀ x ∈ E, a ≤ x
  upper : ∀ b ∈ mx, b ∈ E ∧ ∀ x ∈ E, x ≤ b
  below : mn = none → ∀ c, ∃ x ∈ E, x ≤ c
  above : mx = none → ∀ c, ∃ x ∈ E, c ≤ x

theorem extremes_of_wf {sc : ℕ} {v : Ival} (h : Wf sc v) (hne : v ≠ bottom) :
    ∃ mn mx, minAndMax v = .ok (mn,mx) ∧ minInt v = .ok mn ∧ maxInt v = .ok mx ∧ Extremes (concr v) mn mx := by
  obtain ⟨⟨mn,mx⟩,hb⟩ := minAndMax_ok hne
  obtain ⟨hmn,hmx⟩ := minAndMax_mem h hb
  have hbound := fun x hx => minAndMax_bounds h hb (a := x) hx
  have hlower : ∀ a ∈ mn, a ∈ concr v ∧ ∀ x ∈ concr v, a ≤ x :=
    fun a ha => ⟨hmn a ha,fun x hx => (hbound x hx).1 a ha⟩
  have hupper : ∀ b ∈ mx, b ∈ concr v ∧ ∀ x ∈ concr v, x ≤ b :=
    fun b hb' => ⟨hmx b hb',fun x hx => (hbound x hx).2 b hb'⟩
  cases v with
  | set s =>
    rw [minAndMax] at hb
    split at hb
    · cases hb
    · rename_i hs
      cases hb
      exact ⟨_,_,by rw [minAndMax,if_neg hs]; rfl,by rw [minInt,if_neg hs]; rfl,by rw [maxInt,if_neg hs]; rfl,hlower,
        hupper,by simp,by simp⟩
  | topItv mn' mx' r m =>
    cases hb
    have hr := (wf_topItv_iff.mp h).1
    refine ⟨mn,mx,rfl,rfl,rfl,hlower,hupper,?_,?_⟩
    · rintro rfl
      exact hr.unbounded_below
    · rintro rfl
      exact hr.unbounded_above

section Extremes
variable {E F : Set ℤ} {mn mx mn' mx' : Option ℤ}

theorem intCompare_nonpos {x y : ℤ} : intCompare x y ≤ 0 ↔ x ≤ y := by
  unfold intCompare
  split
  · omega
  · split <;> omega

theorem intCompare_neg {x y : ℤ} : intCompare x y < 0 ↔ x < y := by
  unfold intCompare
  split
  · omega
  · split <;> omega

theorem compareMinMax_eq (min max : Option ℤ) :
    (compareMinMax min max > 0 ↔ compareMaxMin max min < 0) ∧ (compareMinMax min max ≥ 0 ↔ compareMaxMin max min ≤ 0) := by
  cases min with
  | none => cases max <;> simp [compareMinMax,compareMaxMin]
  | some a =>
    cases max with
    | none => simp [compareMinMax,compareMaxMin]
    | some b =>
      simp only [compareMinMax,compareMaxMin,intCompare_neg,intCompare_nonpos]
      unfold intCompare
      split
      · omega
      · split <;> omega

theorem Extremes.forall_le_iff (h : Extremes E mn mx) (h' : Extremes F mn' mx') (hE : E.Nonempty) (hF : F.Nonempty) :
    (∀ a ∈ E, ∀ b ∈ F, a ≤ b) ↔ compareMaxMin mx mn' ≤ 0 := by
  obtain ⟨a,ha⟩ := hE
  obtain ⟨b,hb⟩ := hF
  cases mx with
  | none =>
    obtain ⟨x,hx,hbx⟩ := h.above rfl (b + 1)
    refine iff_of_false (fun hall => ?_) (by simp [compareMaxMin])
    have := hall x hx b hb
    omega
  | some c =>
    obtain ⟨hc,hcE⟩ := h.upper c rfl
    cases mn' with
    | none =>
      obtain ⟨y,hy,hya⟩ := h'.below rfl (a - 1)
      refine iff_of_false (fun hall => ?_) (by simp [compareMaxMin])
      have := hall a ha y hy
      omega
    | some d =>
      obtain ⟨hd,hdF⟩ := h'.lower d rfl
      rw [compareMaxMin,intCompare_nonpos]
      exact ⟨fun hall => hall c hc d hd,fun hle x hx y hy => (hcE x hx).trans (hle.trans (hdF y hy))⟩

theorem Extremes.forall_lt_iff (h : Extremes E mn mx) (h' : Extremes F mn' mx') (hE : E.Nonempty) (hF : F.Nonempty) :
    (∀ a ∈ E, ∀ b ∈ F, a < b) ↔ compareMaxMin mx mn' < 0 := by
  obtain ⟨a,ha⟩ := hE
  obtain ⟨b,hb⟩ := hF
  cases mx with
  | none =>
    obtain ⟨x,hx,hbx⟩ := h.above rfl b
    refine iff_of_false (fun hall => ?_) (by simp [compareMaxMin])
    have := hall x hx b hb
    omega
  | some c =>
    obtain ⟨hc,hcE⟩ := h.upper c rfl
    cases mn' with
    | none =>
      obtain ⟨y,hy,hya⟩ := h'.below rfl a
      refine iff_of_false (fun hall => ?_) (by simp [compareMaxMin])
      have := hall a ha y hy
      omega
    | some d =>
      obtain ⟨hd,hdF⟩ := h'.lower d rfl
      rw [compareMaxMin,intCompare_neg]
      exact ⟨fun hall => hall c hc d hd,fun hlt x hx y hy => (hcE x hx).trans_lt (hlt.trans_le (hdF y hy))⟩

end Extremes

def Comp.Holds : Comp → ℤ → ℤ → Prop
  | .lt, a, b => a < b
  | .gt, a, b => a > b
  | .le, a, b => a ≤ b
  | .ge, a, b => a ≥ b
  | .eq, a, b => a = b
  | .ne, a, b => a ≠ b

/-- A sound answer, that is unknown only when the pairs of members disagree. -/
structure Answers (P : ℤ → ℤ → Prop) (l r : Ival) (t : Truth) : Prop where
  whenTrue : t = .true → ∀ a ∈ concr l, ∀ b ∈ concr r, P a b
  whenFalse : t = .false → ∀ a ∈ concr l, ∀ b ∈ concr r, ¬ P a b
  decided : (∀ a ∈ concr l, ∀ b ∈ concr r, P a b) ∨ (∀ a ∈ concr l, ∀ b ∈ concr r, ¬ P a b) → t ≠ .unknown

section Forward
variable {sc : ℕ} {l r : Ival} {P : ℤ → ℤ → Prop} {t : Truth}

theorem Answers.swap (h : Answers P l r t) : Answers (fun a b => P b a) r l t := by
  refine ⟨fun ht b hb a ha => h.whenTrue ht a ha b hb,fun ht b hb a ha => h.whenFalse ht a ha b hb,?_⟩
  rintro (hall | hnone)
  · exact h.decided (Or.inl fun a ha b hb => hall b hb a ha)
  · exact h.decided (Or.inr fun a ha b hb => hnone b hb a ha)

theorem Answers.inv (h : Answers P l r t) : Answers (fun a b => ¬ P a b) l r (invTruth t) := by
  cases t with
  | true => exact ⟨nofun,fun _ a ha b hb hn => hn (h.whenTrue rfl a ha b hb),nofun⟩
  | false => exact ⟨fun _ => h.whenFalse rfl,nofun,nofun⟩
  | unknown =>
    refine ⟨nofun,nofun,?_⟩
    rintro (hall | hnone)
    · exact absurd rfl (h.decided (Or.inr hall))
    · exact absurd rfl (h.decided (Or.inl fun a ha b hb => not_not.mp (hnone a ha b hb)))

theorem answers_of_tests {p q : Prop} [Decidable p] [Decidable q] (hp : (∀ a ∈ concr l, ∀ b ∈ concr r, P a b) ↔ p)
    (hq : (∀ a ∈ concr l, ∀ b ∈ concr r, ¬ P a b) ↔ q) :
    Answers P l r (if p then .true else if q then .false else .unknown) := by
  by_cases h1 : p
  · rw [if_pos h1]
    exact ⟨fun _ => hp.mpr h1,nofun,nofun⟩
  rw [if_neg h1]
  by_cases h2 : q
  · rw [if_pos h2]
    exact ⟨nofun,fun _ => hq.mpr h2,nofun⟩
  rw [if_neg h2]
  refine ⟨nofun,nofun,?_⟩
  rintro (hall | hnone)
  · exact absurd (hp.mp hall) h1
  · exact absurd (hq.mp hnone) h2

theorem forwardLeInt_answers (hl : Wf sc l) (hr : Wf sc r) (hlne : l ≠ bottom) (hrne : r ≠ bottom) :
    ∃ t, forwardLeInt l r = .ok t ∧ Answers (· ≤ ·) l r t := by
  obtain ⟨mn,mx,_,hmn,hmx,hext⟩ := extremes_of_wf hl hlne
  obtain ⟨mn',mx',_,hmn',hmx',hext'⟩ := extremes_of_wf hr hrne
  have hEl : (concr l).Nonempty := exists_mem_of_wf hl hlne
  have hEr : (concr r).Nonempty := exists_mem_of_wf hr hrne
  refine ⟨_,?_,answers_of_tests (p := compareMaxMin mx mn' ≤ 0) (q := compareMinMax mn mx' > 0)
    (hext.forall_le_iff hext' hEl hEr) ?_⟩
  · rw [forwardLeInt,hmx,hmn']
    simp only [Res.ok_bind,hmn,hmx']
    split
    · rfl
    · split <;> rfl
  · rw [(compareMinMax_eq mn mx').1,← hext'.forall_lt_iff hext hEr hEl]
    exact ⟨fun h b hb a ha => not_le.mp (h a ha b hb),fun h a ha b hb => not_le.mpr (h b hb a ha)⟩

theorem forwardLtInt_answers (hl : Wf sc l) (hr : Wf sc r) (hlne : l ≠ bottom) (hrne : r ≠ bottom) :
    ∃ t, forwardLtInt l r = .ok t ∧ Answers (· < ·) l r t := by
  obtain ⟨mn,mx,_,hmn,hmx,hext⟩ := extremes_of_wf hl hlne
  obtain ⟨mn',mx',_,hmn',hmx',hext'⟩ := extremes_of_wf hr hrne
  have hEl : (concr l).Nonempty := exists_mem_of_wf hl hlne
  have hEr : (concr r).Nonempty := exists_mem_of_wf hr hrne
  refine ⟨_,?_,answers_of_tests (p := compareMaxMin mx mn' < 0) (q := compareMinMax mn mx' ≥ 0)
    (hext.forall_lt_iff hext' hEl hEr) ?_⟩
  · rw [forwardLtInt,hmx,hmn']
    simp only [Res.ok_bind,hmn,hmx']
    split
    · rfl
    · split <;> rfl
  · rw [(compareMinMax_eq mn mx').2,← hext'.forall_le_iff hext hEr hEl]
    exact ⟨fun h b hb a ha => not_lt.mp (h a ha b hb),fun h a ha b hb => not_lt.mpr (h b hb a ha)⟩

theorem eq_of_cardinalZeroOrOne {v : Ival} (h : cardinalZeroOrOne v = true) {x y : ℤ} (hx : x ∈ concr v)
    (hy : y ∈ concr v) : x = y := by
  by_contra hne
  rcases lt_or_gt_of_ne hne with hlt | hlt
  · rw [not_card_of_two hx hy hlt] at h
    cases h
  · rw [not_card_of_two hy hx hlt] at h
    cases h

theorem exists_eq_ne (hsc : 2 ≤ sc) (hl : Wf sc l) (hr : Wf sc r) (hne : ¬ (cardinalZeroOrOne l = true ∧ l = r)) {a : ℤ}
    (hal : a ∈ concr l) (har : a ∈ concr r) : ∃ x ∈ concr l, ∃ y ∈ concr r, x ≠ y := by
  by_contra hall
  push Not at hall
  have hl1 : concr l = {a} := Set.eq_singleton_iff_unique_mem.mpr ⟨hal,fun x hx => hall x hx a har⟩
  have hr1 : concr r = {a} := Set.eq_singleton_iff_unique_mem.mpr ⟨har,fun y hy => (hall a hal y hy).symm⟩
  refine hne ⟨?_,eq_of_concr_eq hsc hl hr (hl1.trans hr1.symm)⟩
  by_contra hc
  obtain ⟨x,hx,y,hy,hlt⟩ := exists_two hsc hl (by simpa using hc)
  rw [hl1] at hx hy
  have : x = y := hx.trans hy.symm
  omega

theorem forwardEqInt_spec (hsc : 2 ≤ sc) (hl : Wf sc l) (hr : Wf sc r) (hrne : r ≠ bottom) :
    ∃ t, forwardEqInt sc l r = .ok t ∧ ((concr l ∩ concr r).Nonempty → Answers (· = ·) l r t) ∧
      (¬ (concr l ∩ concr r).Nonempty → t = .unknown) := by
  by_cases hone : cardinalZeroOrOne l = true ∧ l = r
  · obtain ⟨hc,rfl⟩ := hone
    obtain ⟨a,ha⟩ := exists_mem_of_wf hr hrne
    refine ⟨.true,by simp [forwardEqInt,hc]; rfl,fun _ => ⟨fun _ x hx y hy => eq_of_cardinalZeroOrOne hc hx hy,nofun,nofun⟩,
      fun hno => absurd ⟨a,ha,ha⟩ hno⟩
  · have hself : intersects sc r r = .ok true := by
      unfold intersects
      exact if_pos rfl
    refine ⟨.unknown,?_,?_,fun _ => rfl⟩
    · have hc : ¬ (cardinalZeroOrOne l && equal l r) = true := by simpa using hone
      rw [forwardEqInt,if_neg hc,hself]
      rfl
    · rintro ⟨a,hal,har⟩
      refine ⟨nofun,nofun,?_⟩
      obtain ⟨x,hx,y,hy,hxy⟩ := exists_eq_ne hsc hl hr hone hal har
      rintro (hall | hnone)
      · exact absurd (hall x hx y hy) hxy
      · exact absurd rfl (hnone a hal a har)

theorem forwardCompInt_answers_iff (hsc : 2 ≤ sc) (op : Comp) (hl : Wf sc l) (hr : Wf sc r) (hlne : l ≠ bottom)
    (hrne : r ≠ bottom) : (∃ t, forwardCompInt sc op l r = .ok t ∧ Answers op.Holds l r t) ↔
      (op = .eq ∨ op = .ne → (concr l ∩ concr r).Nonempty) := by
  obtain ⟨t,ht,hmeet,hapart⟩ := forwardEqInt_spec hsc hl hr hrne
  have hnone : ¬ (concr l ∩ concr r).Nonempty → ∀ a ∈ concr l, ∀ b ∈ concr r, a ≠ b := by
    rintro hno a ha b hb rfl
    exact hno ⟨a,ha,hb⟩
  cases op with
  | le => exact iff_of_true (forwardLeInt_answers hl hr hlne hrne) (by simp)
  | lt => exact iff_of_true (forwardLtInt_answers hl hr hlne hrne) (by simp)
  | ge =>
    obtain ⟨t,ht,ha⟩ := forwardLeInt_answers hr hl hrne hlne
    exact iff_of_true ⟨t,ht,ha.swap⟩ (by simp)
  | gt =>
    obtain ⟨t,ht,ha⟩ := forwardLtInt_answers hr hl hrne hlne
    exact iff_of_true ⟨t,ht,ha.swap⟩ (by simp)
  | eq =>
    constructor
    · rintro ⟨t',ht',ha⟩ _
      rw [show forwardCompInt sc .eq l r = forwardEqInt sc l r from rfl,ht] at ht'
      cases ht'
      by_contra hno
      exact ha.decided (Or.inr (hnone hno)) (hapart hno)
    · intro h
      exact ⟨t,ht,hmeet (h (Or.inl rfl))⟩
  | ne =>
    have hcomp : forwardCompInt sc .ne l r = .ok (invTruth t) := by
      simp only [forwardCompInt,ht,Res.ok_bind]
      rfl
    constructor
    · rintro ⟨t',ht',ha⟩ _
      rw [hcomp] at ht'
      cases ht'
      by_contra hno
      refine ha.decided (Or.inl (hnone hno)) ?_
      rw [hapart hno]
      rfl
    · intro h
      exact ⟨_,hcomp,(hmeet (h (Or.inr rfl))).inv⟩

end Forward

section Differences
variable {sc : ℕ} {v l r : Ival} {x y m c : ℤ} {n : ℕ}

theorem diffTerms_of_lt (hm : 1 ≤ m) (hx : x < c) : diffTerms x m n c = steps m n c := by
  induction n generalizing c with
  | zero => rfl
  | succ n ih =>
    have hne : ¬ c = x := by omega
    simp only [diffTerms,if_neg hne,steps]
    rw [ih (by omega)]

theorem mem_diffTerms (hm : 1 ≤ m) {j : ℕ} (hj : j ≤ n) (hx : x = c + m * j) :
    y ∈ diffTerms x m n c ↔ (∃ k : ℕ, k ≤ n ∧ y = c + m * k) ∧ y ≠ x := by
  induction n generalizing c j with
  | zero =>
    obtain rfl : j = 0 := by omega
    constructor
    · intro h
      cases h
    · rintro ⟨⟨k,hk,rfl⟩,hne⟩
      obtain rfl : k = 0 := by omega
      exact absurd hx.symm hne
  | succ n ih =>
    cases j with
    | zero =>
      have hcx : c = x := by simpa using hx.symm
      subst hcx
      simp only [diffTerms,if_pos]
      rw [diffTerms_of_lt hm (by omega),List.mem_cons,mem_steps]
      constructor
      · rintro (rfl | ⟨k,hk,rfl⟩)
        · exact ⟨⟨1,by omega,by simp⟩,by omega⟩
        · have : 0 ≤ m * k := by positivity
          exact ⟨⟨k + 2,by omega,by push_cast; ring⟩,by omega⟩
      · rintro ⟨⟨k,hk,rfl⟩,hne⟩
        cases k with
        | zero => simp at hne
        | succ k =>
          cases k with
          | zero => exact Or.inl (by simp)
          | succ k => exact Or.inr ⟨k,by omega,by push_cast; ring⟩
    | succ j =>
      have hmj : 0 ≤ m * j := by positivity
      have hcx : ¬ c = x := by
        rw [hx]
        push_cast
        rw [mul_add]
        omega
      simp only [diffTerms,if_neg hcx]
      rw [List.mem_cons,ih (by omega : j ≤ n) (by rw [hx]; push_cast; ring)]
      constructor
      · rintro (rfl | ⟨⟨k,hk,rfl⟩,hne⟩)
        · exact ⟨⟨0,by omega,by simp⟩,hcx⟩
        · exact ⟨⟨k + 1,by omega,by push_cast; ring⟩,hne⟩
      · rintro ⟨⟨k,hk,rfl⟩,hne⟩
        cases k with
        | zero => exact Or.inl (by simp)
        | succ k => exact Or.inr ⟨⟨k,by omega,by push_cast; ring⟩,hne⟩

theorem mem_eraseIdx_of_arrayMem {a : List ℤ} (ha : a.Pairwise (· < ·)) {i : ℕ} (hi : arrayMem x a = some i) :
    y ∈ a.take i ++ a.drop (i + 1) ↔ y ∈ a ∧ y ≠ x := by
  obtain ⟨hlt,hget⟩ := List.getElem?_eq_some_iff.mp (getElem?_of_arrayMem hi)
  have hnd : a.Nodup := ha.imp fun h => ne_of_lt h
  rw [← List.eraseIdx_eq_take_drop_succ,← hnd.erase_getElem i hlt,hget,hnd.mem_erase_iff,and_comm]

theorem prog_remove_lower (hm : 1 ≤ m) {mx : Option ℤ} {r : ℤ} (hx : x % m = r) :
    prog (some (x + m)) mx r m = prog (some x) mx r m \ {x} := by
  ext y
  simp only [mem_prog,Set.mem_sdiff,Set.mem_singleton_iff,Option.mem_def,Option.some.injEq,forall_eq']
  constructor
  · rintro ⟨hy,hlo,hhi⟩
    exact ⟨⟨hy,by omega,hhi⟩,by omega⟩
  · rintro ⟨⟨hy,hlo,hhi⟩,hne⟩
    refine ⟨hy,?_,hhi⟩
    exact add_le_of_emod_eq hx hy (by omega)

theorem prog_remove_upper (hm : 1 ≤ m) {mn : Option ℤ} {r : ℤ} (hx : x % m = r) :
    prog mn (some (x - m)) r m = prog mn (some x) r m \ {x} := by
  ext y
  simp only [mem_prog,Set.mem_sdiff,Set.mem_singleton_iff,Option.mem_def,Option.some.injEq,forall_eq']
  constructor
  · rintro ⟨hy,hlo,hhi⟩
    exact ⟨⟨hy,hlo,by omega⟩,by omega⟩
  · rintro ⟨⟨hy,hlo,hhi⟩,hne⟩
    refine ⟨hy,hlo,?_⟩
    have := add_le_of_emod_eq hy hx (by omega)
    omega

theorem mem_terms_iff {a b r : ℤ} (hm : 1 ≤ m) (ha : a % m = r) (hab : b - a = m * n) :
    y ∈ prog (some a) (some b) r m ↔ ∃ k : ℕ, k ≤ n ∧ y = a + m * k := by
  have hq : (b - a) / m = n := by
    rw [hab]
    exact Int.mul_ediv_cancel_left _ (by omega)
  have hn : 0 ≤ m * n := by positivity
  rw [← mem_steps_iff hm ha (by omega),mem_steps,hq]
  constructor
  · rintro ⟨k,hk,rfl⟩
    exact ⟨k,by omega,rfl⟩
  · rintro ⟨k,hk,rfl⟩
    exact ⟨k,by omega,rfl⟩

/-- The integers that `diff_if_one` takes out of an ival: the members of a set, the bounds of a progression, and any
member of a progression that becomes a set. -/
def Removable (sc : ℕ) (v : Ival) (x : ℤ) : Prop :=
  match v with
  | .set _ => True
  | .topItv mn mx _ m => mn = some x ∨ mx = some x ∨ ∃ a ∈ mn, ∃ b ∈ mx, b - a = m * sc

theorem diffIfOne_set {a : List ℤ} (h : Wf sc (.set a)) (x : ℤ) :
    ∃ w, diffIfOne sc (.set a) (.set [x]) = .ok w ∧ concr w = concr (.set a) \ {x} := by
  simp only [diffIfOne]
  split
  · rename_i i hi
    have hlen : a.length - 1 = (a.take i ++ a.drop (i + 1)).length := by
      have := arrayMem_lt hi
      rw [List.length_append,List.length_take,List.length_drop]
      omega
    refine ⟨_,rfl,?_⟩
    rw [hlen,shareArray_eq]
    ext y
    exact mem_eraseIdx_of_arrayMem h.1 hi
  · rename_i hi
    have hx : x ∉ a := fun hx => by simpa [hi] using (arrayMem_isSome h.1).mpr hx
    exact ⟨_,rfl,(Set.sdiff_singleton_eq_self (s := concr (.set a)) hx).symm⟩

theorem diffIfOne_lower (hsc : 2 ≤ sc) {mx : Option ℤ} {r : ℤ} (h : Wf sc (.topItv (some x) mx r m)) :
    ∃ w, diffIfOne sc (.topItv (some x) mx r m) (.set [x]) = .ok w ∧ concr w = prog (some x) mx r m \ {x} := by
  obtain ⟨hr,-⟩ := wf_topItv_iff.mp h
  have hxr : x % m = r := hr.lower x rfl
  have hred : Reduced (some (x + m)) mx r m :=
    ⟨hr.pos,hr.nonneg,hr.lt,by rintro _ ⟨⟩; rw [Int.add_emod_right,hxr],hr.upper⟩
  obtain ⟨w,hw,_,hc⟩ := injectTop_spec hsc hred
  exact ⟨w,(if_pos rfl).trans hw,hc.trans (prog_remove_lower hr.pos hxr)⟩

theorem diffIfOne_upper (hsc : 2 ≤ sc) {mn : Option ℤ} {r : ℤ} (h : Wf sc (.topItv mn (some x) r m)) (hmn : mn ≠ some x) :
    ∃ w, diffIfOne sc (.topItv mn (some x) r m) (.set [x]) = .ok w ∧ concr w = prog mn (some x) r m \ {x} := by
  obtain ⟨hr,-⟩ := wf_topItv_iff.mp h
  have hxr : x % m = r := hr.upper x rfl
  have hred : Reduced mn (some (x - m)) r m :=
    ⟨hr.pos,hr.nonneg,hr.lt,hr.lower,by rintro _ ⟨⟩; rw [Int.sub_emod_right,hxr]⟩
  obtain ⟨w,hw,_,hc⟩ := injectTop_spec hsc hred
  exact ⟨w,((if_neg hmn).trans (if_pos rfl)).trans hw,hc.trans (prog_remove_upper hr.pos hxr)⟩

theorem diffIfOne_inside {mn mx : Option ℤ} {r : ℤ} (h : Wf sc (.topItv mn mx r m)) (hmn : mn ≠ some x) (hmx : mx ≠ some x) :
    ∃ w, diffIfOne sc (.topItv mn mx r m) (.set [x]) = .ok w ∧
      ((∃ a ∈ mn, ∃ b ∈ mx, b - a = m * sc) → concr w = prog mn mx r m \ {x}) ∧
      ((¬ ∃ a ∈ mn, ∃ b ∈ mx, b - a = m * sc) → w = .topItv mn mx r m) := by
  obtain ⟨hr,-⟩ := wf_topItv_iff.mp h
  simp only [diffIfOne,if_neg hmn,if_neg hmx]
  split
  · rename_i a b
    have ha : a % m = r := hr.lower a rfl
    split
    · rename_i hcond
      obtain ⟨hlen,hin⟩ := hcond
      obtain ⟨j,hj,hxj⟩ := (mem_terms_iff hr.pos ha hlen).mp (inInterval_iff.mp hin)
      refine ⟨_,rfl,fun _ => ?_,fun hn => absurd ⟨a,rfl,b,rfl,hlen⟩ hn⟩
      ext y
      rw [mem_concr_set,mem_diffTerms hr.pos hj hxj,← mem_terms_iff hr.pos ha hlen]
      rfl
    · rename_i hcond
      refine ⟨_,rfl,?_,fun _ => rfl⟩
      rintro ⟨_,⟨⟩,_,⟨⟩,hlen⟩
      have hx : x ∉ prog (some a) (some b) r m := fun hx => hcond ⟨hlen,inInterval_iff.mpr hx⟩
      exact (Set.sdiff_singleton_eq_self hx).symm
  · rename_i hfin
    refine ⟨_,rfl,?_,fun _ => rfl⟩
    rintro ⟨a,rfl,b,rfl,_⟩
    exact absurd rfl (hfin a b rfl)

theorem diffIfOne_spec (hsc : 2 ≤ sc) (h : Wf sc v) (x : ℤ) : ∃ w, diffIfOne sc v (.set [x]) = .ok w ∧ Wf sc w ∧
    (Removable sc v x → concr w = concr v \ {x}) ∧ (¬ Removable sc v x → w = v) := by
  obtain ⟨w,hw,hww⟩ : ∃ w, diffIfOne sc v (.set [x]) = .ok w ∧ Wf sc w := diffIfOne_wf hsc h
  refine ⟨w,hw,hww,?_⟩
  cases v with
  | set a =>
    obtain ⟨w',hw',hc⟩ := diffIfOne_set h x
    cases hw.symm.trans hw'
    exact ⟨fun _ => hc,fun hn => absurd trivial hn⟩
  | topItv mn mx r m =>
    by_cases hmn : mn = some x
    · subst hmn
      obtain ⟨w',hw',hc⟩ := diffIfOne_lower hsc h
      cases hw.symm.trans hw'
      exact ⟨fun _ => hc,fun hn => absurd (Or.inl rfl) hn⟩
    by_cases hmx : mx = some x
    · subst hmx
      obtain ⟨w',hw',hc⟩ := diffIfOne_upper hsc h hmn
      cases hw.symm.trans hw'
      exact ⟨fun _ => hc,fun hn => absurd (Or.inr (Or.inl rfl)) hn⟩
    obtain ⟨w',hw',hc,hsame⟩ := diffIfOne_inside h hmn hmx
    cases hw.symm.trans hw'
    constructor
    · rintro (he | he | hlen)
      · exact absurd he hmn
      · exact absurd he hmx
      · exact hc hlen
    · exact fun hn => hsame fun hlen => hn (Or.inr (Or.inr hlen))

theorem diffIfOne_keeps (hsc : 2 ≤ sc) (hl : Wf sc l) (r : Ival) : ∃ w, diffIfOne sc l r = .ok w ∧
    concr w ⊆ concr l ∧ ∀ a ∈ concr l, ∀ b ∈ concr r, a ≠ b → a ∈ concr w := by
  by_cases hone : ∃ x, r = .set [x]
  · obtain ⟨x,rfl⟩ := hone
    obtain ⟨w,hw,_,hrem,hkeep⟩ := diffIfOne_spec hsc hl x
    refine ⟨w,hw,?_⟩
    by_cases hx : Removable sc l x
    · rw [hrem hx]
      refine ⟨Set.sdiff_subset,fun a ha b hb hne => ⟨ha,?_⟩⟩
      obtain rfl : b = x := List.mem_singleton.mp hb
      exact hne
    · rw [hkeep hx]
      exact ⟨subset_rfl,fun a ha _ _ _ => ha⟩
  · refine ⟨l,?_,subset_rfl,fun a ha _ _ _ => ha⟩
    match r with
    | .topItv .. => rfl
    | .set [] => rfl
    | .set [x] => exact absurd ⟨x,rfl⟩ hone
    | .set (_ :: _ :: _) => rfl

theorem narrow_half_line (hsc : 2 ≤ sc) (hl : Wf sc l) (mn mx : Option ℤ) (hinf : mn = none ∨ mx = none) :
    ∃ v, narrow sc l (.topItv mn mx 0 1) = .ok v ∧ concr v = concr l ∩ prog mn mx 0 1 := by
  obtain ⟨v,hv,_,hc⟩ := narrow_spec hsc hl (wf_half_line sc mn mx hinf)
  exact ⟨v,hv,hc⟩

theorem backwardCompIntLeft_spec (hsc : 2 ≤ sc) (op : Comp) (hl : Wf sc l) (hr : Wf sc r) (hrne : r ≠ bottom) :
    ∃ v, backwardCompIntLeft sc op l r = .ok v ∧ concr v ⊆ concr l ∧
      ∀ a ∈ concr l, ∀ b ∈ concr r, op.Holds a b → a ∈ concr v := by
  obtain ⟨mn,mx,_,hmn,hmx,hext⟩ := extremes_of_wf hr hrne
  have hupper : ∀ d : ℤ, ∃ v, narrow sc l (.topItv none (opt1 (· + d) mx) 0 1) = .ok v ∧ concr v ⊆ concr l ∧
      ∀ a ∈ concr l, ∀ b ∈ concr r, a ≤ b + d → a ∈ concr v := by
    intro d
    obtain ⟨v,hv,hc⟩ := narrow_half_line hsc hl none (opt1 (· + d) mx) (Or.inl rfl)
    refine ⟨v,hv,hc ▸ Set.inter_subset_left,fun a ha b hb hab => ?_⟩
    rw [hc]
    refine ⟨ha,Int.emod_one a,by simp,?_⟩
    intro c hcm
    rw [opt1_eq_map] at hcm
    obtain ⟨e,he,rfl⟩ := Option.mem_map.mp hcm
    have := (hext.upper e he).2 b hb
    omega
  have hlower : ∀ d : ℤ, ∃ v, narrow sc l (.topItv (opt1 (· + d) mn) none 0 1) = .ok v ∧ concr v ⊆ concr l ∧
      ∀ a ∈ concr l, ∀ b ∈ concr r, b + d ≤ a → a ∈ concr v := by
    intro d
    obtain ⟨v,hv,hc⟩ := narrow_half_line hsc hl (opt1 (· + d) mn) none (Or.inr rfl)
    refine ⟨v,hv,hc ▸ Set.inter_subset_left,fun a ha b hb hab => ?_⟩
    rw [hc]
    refine ⟨ha,Int.emod_one a,?_,by simp⟩
    intro c hcm
    rw [opt1_eq_map] at hcm
    obtain ⟨e,he,rfl⟩ := Option.mem_map.mp hcm
    have := (hext.lower e he).2 b hb
    omega
  have hzero : ∀ b : Option ℤ, opt1 (· + 0) b = b := by
    intro b
    cases b <;> simp [opt1]
  cases op with
  | le =>
    obtain ⟨v,hv,hsub,hmem⟩ := hupper 0
    rw [hzero] at hv
    refine ⟨v,by simp only [backwardCompIntLeft,hmx,Res.ok_bind,backwardLeInt,hv,catchBottom],hsub,?_⟩
    exact fun a ha b hb hab => hmem a ha b hb (by simpa [Comp.Holds] using hab)
  | ge =>
    obtain ⟨v,hv,hsub,hmem⟩ := hlower 0
    rw [hzero] at hv
    refine ⟨v,by simp only [backwardCompIntLeft,hmn,Res.ok_bind,backwardGeInt,hv,catchBottom],hsub,?_⟩
    exact fun a ha b hb hab => hmem a ha b hb (by simpa [Comp.Holds] using hab)
  | lt =>
    obtain ⟨v,hv,hsub,hmem⟩ := hupper (-1)
    refine ⟨v,?_,hsub,fun a ha b hb hab => hmem a ha b hb (Int.le_sub_one_of_lt hab)⟩
    simp only [backwardCompIntLeft,hmx,Res.ok_bind,backwardLtInt,backwardLeInt,Int.sub_eq_add_neg,hv,catchBottom]
  | gt =>
    obtain ⟨v,hv,hsub,hmem⟩ := hlower 1
    refine ⟨v,?_,hsub,fun a ha b hb hab => hmem a ha b hb (Int.add_one_le_of_lt hab)⟩
    simp only [backwardCompIntLeft,hmn,Res.ok_bind,backwardGtInt,backwardGeInt,hv,catchBottom]
  | eq =>
    obtain ⟨v,hv,_,hc⟩ := narrow_spec hsc hl hr
    refine ⟨v,by simp only [backwardCompIntLeft,hv,catchBottom],hc ▸ Set.inter_subset_left,?_⟩
    rintro a ha b hb rfl
    exact hc ▸ ⟨ha,hb⟩
  | ne =>
    obtain ⟨v,hv,hsub,hmem⟩ := diffIfOne_keeps hsc hl r
    exact ⟨v,by simp only [backwardCompIntLeft,hv,catchBottom],hsub,hmem⟩

end Differences

/-- Forward and backward comparisons agree with the comparison of integers, exactly when equality and difference are not
asked of operands without a common member. -/
theorem comparisons_agree_iff {sc : ℕ} (hsc : 2 ≤ sc) (op : Comp) {l r : Ival} (hl : Wf sc l) (hr : Wf sc r)
    (hlne : l ≠ bottom) (hrne : r ≠ bottom) :
    ((∃ t, forwardCompInt sc op l r = .ok t ∧ Answers op.Holds l r t) ∧
      ∃ v, backwardCompIntLeft sc op l r = .ok v ∧ concr v ⊆ concr l ∧
        ∀ a ∈ concr l, ∀ b ∈ concr r, op.Holds a b → a ∈ concr v) ↔
      (op = .eq ∨ op = .ne → (concr l ∩ concr r).Nonempty) := by
  rw [← forwardCompInt_answers_iff hsc op hl hr hlne hrne]
  exact and_iff_left (backwardCompIntLeft_spec hsc op hl hr hrne)

theorem comparisons_agree_overlap :
    ∃ t, forwardCompInt 8 .ne (.set [1,2]) (.topItv (some 2) none 0 1) = .ok t ∧
      Answers Comp.ne.Holds (.set [1,2]) (.topItv (some 2) none 0 1) t := by
  have hl : Wf 8 (.set [1,2]) := ⟨by simp,by decide⟩
  have hr : Wf 8 (.topItv (some 2) none 0 1) := wf_half_line 8 _ _ (Or.inr rfl)
  have hmeet : (concr (.set [1,2]) ∩ concr (.topItv (some 2) none 0 1)).Nonempty := ⟨2,by simp,by simp [mem_prog]⟩
  exact ((comparisons_agree_iff (by decide) .ne hl hr (by simp [bottom]) (by simp [bottom])).mpr fun _ => hmeet).1

/-- The equality of two distinct integers is unknown. -/
theorem forwardCompInt_unknown_apart :
    Wf 8 (.set [1]) ∧ Wf 8 (.set [2]) ∧ forwardCompInt 8 .eq (.set [1]) (.set [2]) = .ok .unknown ∧
      ∀ a ∈ concr (.set [1]), ∀ b ∈ concr (.set [2]), ¬ Comp.eq.Holds a b := by
  refine ⟨⟨by simp,by decide⟩,⟨by simp,by decide⟩,by decide,?_⟩
  intro a ha b hb hab
  simp only [mem_concr_set,List.mem_singleton] at ha hb
  have : a = b := hab
  omega

end FramaC.Ival
