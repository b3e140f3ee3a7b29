import FramaC.Ival.CastSound

/-! # Complement in an integer type

`complement_int_under` answers with the widest gap between consecutive members of a small set, or with the wider side
of a progression.
-/
namespace FramaC.Ival
open Integer Progression

@[grind =] def widestGap : List ℤ → ℕ → Option ℕ → ℤ → Option ℕ
  | x :: y :: array, i, index, maxDelta =>
    let delta := y - x
    if delta > maxDelta then widestGap (y :: array) (i + 1) (some i) delta
    else widestGap (y :: array) (i + 1) index maxDelta
  | _, _, index, _ => index

def complementIntUnder (sc : ℕ) (size : ℤ) (signed : Bool) (i : Ival) : Res (OrBottom Ival) := do
  let e ← twoPowerOfInt (if signed then size - 1 else size)
  let b := if signed then -e else 0
  let e := e - 1
  let injectRange (min max : ℤ) : Res (OrBottom Ival) := do return .value (← injectRange sc (some min) (some max))
  match i with
  | .set [] => injectRange b e
  | .set s =>
    let array := b :: (s ++ [e])
    match widestGap array 0 none 0 with
    | none => .error .invalidArgument
    | some index => injectRange (array.getD index 0) (array.getD (index + 1) 0)
  | .topItv none none _ _ => return .bottom
  | .topItv (some min) none _ _ => injectRange b (min - 1)
  | .topItv none (some max) _ _ => injectRange (max + 1) e
  | .topItv (some min) (some max) _ _ =>
    let deltaMin := min - b
    let deltaMax := e - max
    if deltaMin ≤ deltaMax then injectRange (max + 1) e else injectRange b (min - 1)

section Gaps
variable {array : List ℤ} {i n : ℕ} {index : Option ℕ} {maxDelta : ℤ}

theorem widestGap_spec (h : widestGap array i index maxDelta = some n) (h0 : 0 ≤ maxDelta) :
    index = some n ∨ ∃ k, n = i + k ∧ k + 1 < array.length ∧ array.getD k 0 < array.getD (k + 1) 0 := by
  induction array generalizing i index maxDelta with
  | nil => exact Or.inl h
  | cons x array ih =>
    cases array with
    | nil => exact Or.inl h
    | cons y array =>
      rw [widestGap] at h
      split at h
      · rename_i hlt
        right
        rcases ih h (by omega) with hs | ⟨k,rfl,hk,hkl⟩
        · cases hs
          exact ⟨0,rfl,by simp,by simp; omega⟩
        · exact ⟨k + 1,by omega,by simpa using hk,by simpa using hkl⟩
      · rcases ih h h0 with hs | ⟨k,rfl,hk,hkl⟩
        · exact Or.inl hs
        · exact Or.inr ⟨k + 1,by omega,by simpa using hk,by simpa using hkl⟩

theorem widestGap_isSome (hi : index ≠ none) : widestGap array i index maxDelta ≠ none := by
  induction array generalizing i index maxDelta with
  | nil => exact hi
  | cons x array ih =>
    cases array with
    | nil => exact hi
    | cons y array =>
      rw [widestGap]
      split
      · exact ih (by simp)
      · exact ih hi

theorem widestGap_ne_none {x : ℤ} (h : x < (x :: array).getLast (by simp)) : widestGap (x :: array) i index 0 ≠ none := by
  induction array generalizing x i index with
  | nil => simp at h
  | cons y array ih =>
    rw [widestGap]
    split
    · exact widestGap_isSome (by simp)
    · rw [List.getLast_cons (by simp)] at h
      exact ih (by omega)

end Gaps

section Complement
variable {sc : ℕ} {size : ℤ} (signed : Bool)

theorem typeMin_lt_typeMax (hs : 1 ≤ size) : typeMin size signed < typeMax size signed := by
  have hpos : (2 : ℤ) ≤ 2 ^ size.toNat := by
    obtain ⟨k,hk⟩ : ∃ k : ℕ, size.toNat = k + 1 := ⟨(size - 1).toNat,by omega⟩
    have : (0 : ℤ) < 2 ^ k := by positivity
    rw [hk,pow_succ]
    omega
  rw [typeMax_eq hs]
  omega

theorem ends_of_type (hs : 1 ≤ size) :
    twoPowerOfInt (if signed then size - 1 else size) = .ok (typeMax size signed + 1) ∧
      (if signed = true then -(typeMax size signed + 1) else 0) = typeMin size signed := by
  refine ⟨?_,?_⟩
  · rw [twoPowerOfInt_ok (by split <;> omega),typeMax]
    cases signed <;> simp
  · cases signed <;> simp [typeMin,typeMax]

def Avoids (size : ℤ) (signed : Bool) (i : Ival) (o : OrBottom Ival) : Prop :=
  ∀ v, o = .value v → ∀ x ∈ concr v, typeMin size signed ≤ x ∧ x ≤ typeMax size signed ∧ x ∉ concr i

theorem avoids_range_iff (size : ℤ) (i : Ival) (hsc : 2 ≤ sc) (mn mx : ℤ) :
    ∃ o, (do return .value (← injectRange sc (some mn) (some mx)) : Res (OrBottom Ival)) = .ok o ∧
      (Avoids size signed i o ↔ ∀ x, mn ≤ x → x ≤ mx → typeMin size signed ≤ x ∧ x ≤ typeMax size signed ∧ x ∉ concr i) := by
  obtain ⟨v,hv,_,hc⟩ := injectRange_spec hsc (some mn) (some mx)
  refine ⟨.value v,by rw [hv]; rfl,?_⟩
  have hmem : ∀ x, x ∈ concr v ↔ mn ≤ x ∧ x ≤ mx := fun x => by simp [hc,mem_prog]
  constructor
  · intro h x h1 h2
    exact h v rfl x ((hmem x).mpr ⟨h1,h2⟩)
  · rintro h _ ⟨⟩ x hx
    obtain ⟨h1,h2⟩ := (hmem x).mp hx
    exact h x h1 h2

def BoundsTouch (size : ℤ) (signed : Bool) (mn mx : Option ℤ) : Prop :=
  (∀ a ∈ mn, a ≤ typeMax size signed + 1) ∧ ∀ b ∈ mx, typeMin size signed - 1 ≤ b

theorem complement_top_iff (hsc : 2 ≤ sc) (hs : 1 ≤ size) {mn mx : Option ℤ} {r m : ℤ}
    (hw : Wf sc (.topItv mn mx r m)) :
    ∃ o, complementIntUnder sc size signed (.topItv mn mx r m) = .ok o ∧
      (Avoids size signed (.topItv mn mx r m) o ↔ BoundsTouch size signed mn mx) := by
  have hlt := typeMin_lt_typeMax signed hs
  obtain ⟨hr,hl⟩ := wf_topItv_iff.mp hw
  obtain ⟨htwo,hmin⟩ := ends_of_type signed hs
  have hab : ∀ a ∈ mn, ∀ b ∈ mx, a ≤ b := fun a ha b hb => hl.le hr.pos ha hb
  have habove : ∀ max, mx = some max → ∃ o, (do return .value (← injectRange sc (some (max + 1))
      (some (typeMax size signed))) : Res (OrBottom Ival)) = .ok o ∧
      (Avoids size signed (.topItv mn mx r m) o ↔ typeMin size signed - 1 ≤ max) := by
    rintro max rfl
    obtain ⟨o,ho,hiff⟩ := avoids_range_iff signed size (.topItv mn (some max) r m) hsc (max + 1)
      (typeMax size signed)
    refine ⟨o,ho,hiff.trans ⟨fun h => ?_,fun h x h1 h2 => ⟨by omega,h2,fun hx => ?_⟩⟩⟩
    · by_contra hout
      have := (h (max + 1) le_rfl (by omega)).1
      omega
    · have := hx.2.2 max rfl
      omega
  have hbelow : ∀ min, mn = some min → ∃ o, (do return .value (← injectRange sc (some (typeMin size signed))
      (some (min - 1))) : Res (OrBottom Ival)) = .ok o ∧
      (Avoids size signed (.topItv mn mx r m) o ↔ min ≤ typeMax size signed + 1) := by
    rintro min rfl
    obtain ⟨o,ho,hiff⟩ := avoids_range_iff signed size (.topItv (some min) mx r m) hsc
      (typeMin size signed) (min - 1)
    refine ⟨o,ho,hiff.trans ⟨fun h => ?_,fun h x h1 h2 => ⟨h1,by omega,fun hx => ?_⟩⟩⟩
    · by_contra hout
      have := (h (min - 1) (by omega) le_rfl).2.1
      omega
    · have := hx.2.1 min rfl
      omega
  simp only [complementIntUnder,htwo,Res.ok_bind,hmin,add_sub_cancel_right]
  cases mn with
  | none =>
    cases mx with
    | none => exact ⟨.bottom,rfl,iff_of_true (by simp [Avoids]) ⟨by simp,by simp⟩⟩
    | some max =>
      obtain ⟨o,ho,hiff⟩ := habove max rfl
      exact ⟨o,ho,hiff.trans (by simp [BoundsTouch])⟩
  | some min =>
    cases mx with
    | none =>
      obtain ⟨o,ho,hiff⟩ := hbelow min rfl
      exact ⟨o,ho,hiff.trans (by simp [BoundsTouch])⟩
    | some max =>
      have hle := hab min rfl max rfl
      simp only [BoundsTouch,Option.mem_def,Option.some.injEq,forall_eq']
      -- the bound on the narrower side lies in the type or next to it
      split
      · obtain ⟨o,ho,hiff⟩ := habove max rfl
        exact ⟨o,ho,hiff.trans ⟨fun h => ⟨by omega,h⟩,fun h => h.2⟩⟩
      · obtain ⟨o,ho,hiff⟩ := hbelow min rfl
        exact ⟨o,ho,hiff.trans ⟨fun h => ⟨h,by omega⟩,fun h => h.1⟩⟩

theorem complement_set (hsc : 2 ≤ sc) (hs : 1 ≤ size) {s : List ℤ} (hne : s ≠ []) :
    ∃ o, complementIntUnder sc size signed (.set s) = .ok o ∧ ¬ Avoids size signed (.set s) o := by
  have hlt := typeMin_lt_typeMax signed hs
  obtain ⟨htwo,hmin⟩ := ends_of_type signed hs
  set array := typeMin size signed :: (s ++ [typeMax size signed]) with harray
  have hlast : typeMin size signed < array.getLast (by simp [harray]) := by simpa [harray] using hlt
  obtain ⟨n,hn⟩ := Option.ne_none_iff_exists'.mp
    (show widestGap (typeMin size signed :: (s ++ [typeMax size signed])) 0 none 0 ≠ none from widestGap_ne_none hlast)
  obtain ⟨k,rfl,hk,hkl⟩ := (widestGap_spec hn le_rfl).resolve_left (by simp)
  obtain ⟨o,ho,hiff⟩ := avoids_range_iff signed size (.set s) hsc (array.getD (0 + k) 0)
    (array.getD (0 + k + 1) 0)
  refine ⟨o,?_,fun hav => ?_⟩
  · simp only [complementIntUnder,htwo,Res.ok_bind,hmin,add_sub_cancel_right]
    rw [← harray,hn]
    exact ho
  · have hall := hiff.mp hav
    rw [Nat.zero_add] at hall
    -- one of the two end points is a member
    cases k with
    | zero =>
      cases s with
      | nil => exact hne rfl
      | cons a s => exact (hall _ hkl.le le_rfl).2.2 (by simp)
    | succ k =>
      have hks : k < s.length := by simp at hk; omega
      refine (hall _ le_rfl hkl.le).2.2 ?_
      rw [harray,List.getD_cons_succ,List.getD_append _ _ _ _ hks,List.getD_eq_getElem _ _ hks]
      exact List.getElem_mem hks

end Complement

/-- The answer is in the type and outside the ival, exactly when the ival is bottom or a progression whose bounds are in
the type or touch it. -/
theorem complementIntUnder_avoids_iff {sc : ℕ} (hsc : 2 ≤ sc) {size : ℤ} (hs : 1 ≤ size) (signed : Bool) {i : Ival}
    (hw : Wf sc i) : (∃ o, complementIntUnder sc size signed i = .ok o ∧ Avoids size signed i o) ↔
      i = bottom ∨ ∃ mn mx r m, i = .topItv mn mx r m ∧ BoundsTouch size signed mn mx := by
  cases i with
  | topItv mn mx r m =>
    obtain ⟨o,ho,hiff⟩ := complement_top_iff signed hsc hs hw
    simp only [ho,Except.ok.injEq,exists_eq_left',hiff]
    constructor
    · intro h
      exact Or.inr ⟨mn,mx,r,m,rfl,h⟩
    · rintro (h | ⟨_,_,_,_,⟨⟩,h⟩)
      · cases h
      · exact h
  | set s =>
    by_cases hne : s = []
    · subst hne
      refine iff_of_true ?_ (Or.inl rfl)
      obtain ⟨htwo,hmin⟩ := ends_of_type signed hs
      obtain ⟨o,ho,hiff⟩ := avoids_range_iff signed size (.set []) hsc (typeMin size signed)
        (typeMax size signed)
      refine ⟨o,?_,hiff.mpr fun x h1 h2 => ⟨h1,h2,List.not_mem_nil⟩⟩
      simp only [complementIntUnder,htwo,Res.ok_bind,hmin,add_sub_cancel_right]
      exact ho
    · obtain ⟨o,ho,hno⟩ := complement_set signed hsc hs hne
      refine iff_of_false ?_ ?_
      · rintro ⟨o',ho',hav⟩
        rw [ho] at ho'
        cases ho'
        exact hno hav
      · rintro (h | ⟨_,_,_,_,h,_⟩)
        · exact hne (Ival.set.inj h)
        · cases h

theorem complementIntUnder_avoids_byte :
    ∃ o, complementIntUnder 8 8 false (.topItv (some 10) (some 200) 0 1) = .ok o ∧
      Avoids 8 false (.topItv (some 10) (some 200) 0 1) o := by
  have hw : Wf 8 (.topItv (some 10) (some 200) 0 1) := ⟨by decide,by decide,by decide,by simp,by simp,by simp⟩
  refine (complementIntUnder_avoids_iff (by decide) (by decide) false hw).mpr (Or.inr ⟨_,_,_,_,rfl,?_,?_⟩)
  · rintro _ ⟨⟩
    decide
  · rintro _ ⟨⟩
    decide

/-- The end points of the widest gap are returned with it. -/
theorem complementIntUnder_keeps_member :
    Wf 8 (.set [3]) ∧ complementIntUnder 8 3 false (.set [3]) = .ok (.value (.set [3,4,5,6,7])) ∧
      3 ∈ concr (.set [3,4,5,6,7]) ∧ 3 ∈ concr (.set [3]) :=
  ⟨⟨by simp,by decide⟩,by decide,by simp,by simp⟩

end FramaC.Ival
