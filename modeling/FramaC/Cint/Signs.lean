import FramaC.Cint.Values

/-! # Signs of bitwise terms

A term that is taken for positive or null is so in every interpretation, and a term that is taken for negative is negative.
-/
set_option linter.unusedSectionVars false
namespace FramaC.Cint
open Qed Integer Bits
variable {ADT Field Fun : Type} [DecidableEq Fun] [FunSymbol Fun] {S : Cbits Fun} {E : Build ADT Field Fun}

theorem allPositiveOrNull_eq (ts : List (Term ADT Field Fun)) : allPositiveOrNull S E ts = ts.all (isPositiveOrNull S E) := by
  induction ts with
  | nil => rfl
  | cons t ts ih => rw [allPositiveOrNull,ih,List.all_cons]

theorem anyPositiveOrNull_eq (ts : List (Term ADT Field Fun)) : anyPositiveOrNull S E ts = ts.any (isPositiveOrNull S E) := by
  induction ts with
  | nil => rfl
  | cons t ts ih => rw [anyPositiveOrNull,ih,List.any_cons]

theorem allNegative_eq (ts : List (Term ADT Field Fun)) : allNegative S E ts = ts.all (isNegative S E) := by
  induction ts with
  | nil => rfl
  | cons t ts ih => rw [allNegative,ih,List.all_cons]

theorem anyNegative_eq (ts : List (Term ADT Field Fun)) : anyNegative S E ts = ts.any (isNegative S E) := by
  induction ts with
  | nil => rfl
  | cons t ts ih => rw [anyNegative,ih,List.any_cons]

theorem landAll_neg_iff (xs : List ℤ) : landAll xs < 0 ↔ ∀ x ∈ xs, x < 0 := by
  induction xs with
  | nil => simp [landAll]
  | cons x xs ih =>
    have hcons : landAll (x :: xs) = Int.land x (landAll xs) := rfl
    rw [hcons,land_neg_iff,ih,List.forall_mem_cons]

theorem lorAll_neg_iff (xs : List ℤ) : lorAll xs < 0 ↔ ∃ x ∈ xs, x < 0 := by
  induction xs with
  | nil => simp [lorAll]
  | cons x xs ih =>
    have hcons : lorAll (x :: xs) = Int.lor x (lorAll xs) := rfl
    rw [hcons,lor_neg_iff,ih]
    simp

theorem shl_neg_iff (I : Interp ADT Field Fun) {x n : ℤ} (hn : 0 ≤ n) : I.shl x n < 0 ↔ x < 0 := by
  have hp : (0 : ℤ) < 2 ^ n.toNat := by positivity
  rw [Interp.shl,if_pos hn]
  exact ⟨fun h => neg_of_mul_neg_left h hp.le,fun h => mul_neg_of_neg_of_pos h hp⟩

theorem shr_neg_iff (I : Interp ADT Field Fun) {x n : ℤ} (hn : 0 ≤ n) : I.shr x n < 0 ↔ x < 0 := by
  have hp : (0 : ℤ) < 2 ^ n.toNat := by positivity
  rw [Interp.shr,if_pos hn]
  rw [Int.ediv_lt_iff_lt_mul hp,zero_mul]

section Valuations
variable {v : Term ADT Field Fun → Value}

abbrev IntsOf (v : Term ADT Field Fun → Value) (ts : List (Term ADT Field Fun)) (xs : List ℤ) : Prop :=
  List.Forall₂ (fun t x => v t = .int x) ts xs

/-- A valuation that is right about the comparisons with 0 and gives bitwise terms and sums the signs of their values. -/
structure Arithmetic (S : Cbits Fun) (E : Build ADT Field Fun) (v : Term ADT Field Fun → Value) : Prop where
  leq : ∀ {t : Term ADT Field Fun} {x : ℤ}, isTrue (E.eLeq eZero t) = some true → v t = .int x → 0 ≤ x
  lt : ∀ {t : Term ADT Field Fun} {x : ℤ}, isTrue (E.eLt t eZero) = some true → v t = .int x → x < 0
  lnot : ∀ {ts : List (Term ADT Field Fun)} {z : ℤ}, v (.node (.func S.lnot) ts) = .int z →
    ∃ x, IntsOf v ts [x] ∧ z = Int.lnot x
  lor : ∀ {ts : List (Term ADT Field Fun)} {z : ℤ}, v (.node (.func S.lor) ts) = .int z →
    ∃ xs, IntsOf v ts xs ∧ z = lorAll xs
  land : ∀ {ts : List (Term ADT Field Fun)} {z : ℤ}, v (.node (.func S.land) ts) = .int z →
    ∃ xs, IntsOf v ts xs ∧ z = landAll xs
  lxor : ∀ {ts : List (Term ADT Field Fun)} {z : ℤ}, v (.node (.func S.lxor) ts) = .int z →
    ∃ xs, IntsOf v ts xs ∧ z = lxorAll xs
  lsl : ∀ {ts : List (Term ADT Field Fun)} {z : ℤ}, v (.node (.func S.lsl) ts) = .int z →
    ∃ x n, IntsOf v ts [x,n] ∧ (0 ≤ n → (z < 0 ↔ x < 0))
  lsr : ∀ {ts : List (Term ADT Field Fun)} {z : ℤ}, v (.node (.func S.lsr) ts) = .int z →
    ∃ x n, IntsOf v ts [x,n] ∧ (0 ≤ n → (z < 0 ↔ x < 0))
  add : ∀ {ts : List (Term ADT Field Fun)} {z : ℤ}, v (.node .add ts) = .int z → ∃ xs, IntsOf v ts xs ∧ xs ≠ [] ∧ z = xs.sum

theorem forall_ints {ts : List (Term ADT Field Fun)} {xs : List ℤ} (h : IntsOf v ts xs)
    {P : ℤ → Prop} (hP : ∀ t ∈ ts, ∀ x, v t = .int x → P x) : ∀ x ∈ xs, P x := by
  induction h with
  | nil => simp
  | cons hx _ ih =>
    rw [List.forall_mem_cons]
    exact ⟨hP _ (by simp) _ hx,ih fun t ht => hP t (by simp [ht])⟩

theorem exists_ints {ts : List (Term ADT Field Fun)} {xs : List ℤ} (h : IntsOf v ts xs)
    {P : ℤ → Prop} (hP : ∃ t ∈ ts, ∀ x, v t = .int x → P x) : ∃ x ∈ xs, P x := by
  by_contra hno
  push Not at hno
  obtain ⟨t,ht,hPt⟩ := hP
  induction h with
  | nil => cases ht
  | cons hx _ ih =>
    rcases List.mem_cons.mp ht with rfl | ht
    · exact hno _ (by simp) (hPt _ hx)
    · exact ih (fun x hx => hno x (by simp [hx])) ht

def SignsRight (S : Cbits Fun) (E : Build ADT Field Fun) (v : Term ADT Field Fun → Value) (t : Term ADT Field Fun) : Prop :=
  (isPositiveOrNull S E t = true → ∀ x, v t = .int x → 0 ≤ x) ∧
    (isNegative S E t = true → ∀ x, v t = .int x → x < 0)

theorem all_nonneg {ts : List (Term ADT Field Fun)} (ht : ∀ t ∈ ts, SignsRight S E v t)
    (h : allPositiveOrNull S E ts = true) {xs : List ℤ} (hxs : IntsOf v ts xs) : ∀ x ∈ xs, 0 ≤ x := by
  rw [allPositiveOrNull_eq,List.all_eq_true] at h
  exact forall_ints hxs fun t hm => (ht t hm).1 (h t hm)

theorem all_neg {ts : List (Term ADT Field Fun)} (ht : ∀ t ∈ ts, SignsRight S E v t) (h : allNegative S E ts = true)
    {xs : List ℤ} (hxs : IntsOf v ts xs) : ∀ x ∈ xs, x < 0 := by
  rw [allNegative_eq,List.all_eq_true] at h
  exact forall_ints hxs fun t hm => (ht t hm).2 (h t hm)

theorem any_nonneg {ts : List (Term ADT Field Fun)} (ht : ∀ t ∈ ts, SignsRight S E v t)
    (h : anyPositiveOrNull S E ts = true) {xs : List ℤ} (hxs : IntsOf v ts xs) : ∃ x ∈ xs, 0 ≤ x := by
  rw [anyPositiveOrNull_eq,List.any_eq_true] at h
  obtain ⟨t,hm,h⟩ := h
  exact exists_ints hxs ⟨t,hm,(ht t hm).1 h⟩

theorem any_neg {ts : List (Term ADT Field Fun)} (ht : ∀ t ∈ ts, SignsRight S E v t) (h : anyNegative S E ts = true)
    {xs : List ℤ} (hxs : IntsOf v ts xs) : ∃ x ∈ xs, x < 0 := by
  rw [anyNegative_eq,List.any_eq_true] at h
  obtain ⟨t,hm,h⟩ := h
  exact exists_ints hxs ⟨t,hm,(ht t hm).2 h⟩

theorem xorSign_sound {ts : List (Term ADT Field Fun)} (ht : ∀ t ∈ ts, SignsRight S E v t) {acc b : Bool}
    (h : xorSign S E acc ts = some b) {xs : List ℤ} (hxs : IntsOf v ts xs) : (lxorAll xs < 0 ↔ b ≠ acc) := by
  induction hxs generalizing acc with
  | nil =>
    obtain rfl := Option.some.inj h
    simp [lxorAll]
  | @cons t x ts xs hx hxs ih =>
    have hcons : lxorAll (x :: xs) = Int.xor x (lxorAll xs) := rfl
    have htail := @ih (fun u hu => ht u (by simp [hu]))
    rw [xorSign] at h
    rw [hcons,xor_neg_iff]
    split at h
    · next hpos =>
      have hx0 := (ht t (by simp)).1 hpos x hx
      rw [htail h]
      have hnot : ¬ x < 0 := by omega
      simp [hnot]
    · split at h
      · next hneg =>
        have hx0 := (ht t (by simp)).2 hneg x hx
        rw [htail h]
        cases b <;> cases acc <;> simp [hx0]
      · cases h

theorem sum_neg {xs : List ℤ} (hne : xs ≠ []) (h : ∀ x ∈ xs, x < 0) : xs.sum < 0 := by
  induction xs with
  | nil => exact absurd rfl hne
  | cons x xs ih =>
    rw [List.forall_mem_cons] at h
    rw [List.sum_cons]
    cases xs with
    | nil => simpa using h.1
    | cons y ys => exact add_neg h.1 (ih (by simp) h.2)

theorem nonneg_func (hv : Arithmetic S E v) {f : Fun} {ts : List (Term ADT Field Fun)} (ih : ∀ t ∈ ts, SignsRight S E v t)
    (h : isPositiveOrNull S E (.node (.func f) ts) = true) {x : ℤ} (hx : v (.node (.func f) ts) = .int x) : 0 ≤ x := by
  rw [isPositiveOrNull] at h
  split at h
  · next hf =>
    obtain ⟨rfl,_⟩ := hf
    obtain ⟨y,hy,rfl⟩ := hv.lnot hx
    have hneg := all_neg ih h hy y (by simp)
    have := (lnot_neg_iff y).not
    omega
  split at h
  · next hf =>
    subst hf
    obtain ⟨xs,hxs,rfl⟩ := hv.land hx
    obtain ⟨y,hy,h0⟩ := any_nonneg ih h hxs
    by_contra hlt
    have := (landAll_neg_iff xs).mp (by omega) y hy
    omega
  split at h
  · next hf =>
    subst hf
    obtain ⟨xs,hxs,rfl⟩ := hv.lor hx
    by_contra hlt
    obtain ⟨y,hy,hneg⟩ := (lorAll_neg_iff xs).mp (by omega)
    have := all_nonneg ih h hxs y hy
    omega
  split at h
  · next hf =>
    subst hf
    obtain ⟨xs,hxs,rfl⟩ := hv.lxor hx
    cases hb : xorSign S E true ts with
    | some b =>
      simp only [hb] at h
      subst h
      have := (xorSign_sound ih hb hxs).not
      simp only [ne_eq,not_true_eq_false,not_false_eq_true,iff_true] at this
      omega
    | none => simp [hb] at h
  split at h
  · next hf =>
    have hshift : ∀ {y n : ℤ}, IntsOf v ts [y,n] → (0 ≤ n → (x < 0 ↔ y < 0)) → 0 ≤ x := by
      intro y n hxs hz
      have hall := all_nonneg ih h hxs
      have := (hz (hall n (by simp))).not
      have := hall y (by simp)
      omega
    rcases hf with rfl | rfl
    · obtain ⟨y,n,hxs,hz⟩ := hv.lsr hx
      exact hshift hxs hz
    · obtain ⟨y,n,hxs,hz⟩ := hv.lsl hx
      exact hshift hxs hz
  · exact hv.leq (of_decide_eq_true h) hx

theorem neg_func (hv : Arithmetic S E v) {f : Fun} {ts : List (Term ADT Field Fun)} (ih : ∀ t ∈ ts, SignsRight S E v t)
    (h : isNegative S E (.node (.func f) ts) = true) {x : ℤ} (hx : v (.node (.func f) ts) = .int x) : x < 0 := by
  rw [isNegative] at h
  split at h
  · next hf =>
    obtain ⟨rfl,_⟩ := hf
    obtain ⟨y,hy,rfl⟩ := hv.lnot hx
    exact (lnot_neg_iff y).mpr (all_nonneg ih h hy y (by simp))
  split at h
  · next hf =>
    subst hf
    obtain ⟨xs,hxs,rfl⟩ := hv.lor hx
    exact (lorAll_neg_iff xs).mpr (any_neg ih h hxs)
  split at h
  · next hf =>
    subst hf
    obtain ⟨xs,hxs,rfl⟩ := hv.land hx
    exact (landAll_neg_iff xs).mpr (all_neg ih h hxs)
  split at h
  · next hf =>
    subst hf
    obtain ⟨xs,hxs,rfl⟩ := hv.lxor hx
    cases hb : xorSign S E true ts with
    | some b => exact (xorSign_sound ih hb hxs).mpr (by simpa [hb] using h)
    | none => simp [hb] at h
  split at h
  · next hf =>
    have hshift : ∀ {y n : ℤ}, IntsOf v ts [y,n] → (0 ≤ n → (x < 0 ↔ y < 0)) → x < 0 := by
      intro y n hxs hz
      cases hxs with
      | @cons k _ ns _ hk hns =>
        rw [shiftNegative,Bool.and_eq_true] at h
        have hn := all_nonneg (fun t ht => ih t (by simp [ht])) h.1 hns n (by simp)
        exact (hz hn).mpr ((ih k (by simp)).2 h.2 y hk)
    rcases hf.1 with rfl | rfl
    · obtain ⟨y,n,hxs,hz⟩ := hv.lsr hx
      exact hshift hxs hz
    · obtain ⟨y,n,hxs,hz⟩ := hv.lsl hx
      exact hshift hxs hz
  · exact hv.lt (of_decide_eq_true h) hx

theorem signsRight (hv : Arithmetic S E v) (t : Term ADT Field Fun) : SignsRight S E v t := by
  induction t using Rose.induct with
  | h r ts ih =>
    cases r with
    | func f => exact ⟨fun h _ hx => nonneg_func hv ih h hx,fun h _ hx => neg_func hv ih h hx⟩
    | add =>
      simp only [SignsRight,isPositiveOrNull,isNegative,Bool.or_eq_true,decide_eq_true_eq]
      constructor
      · rintro (h | h) x hx
        · obtain ⟨xs,hxs,_,rfl⟩ := hv.add hx
          exact List.sum_nonneg (all_nonneg ih h hxs)
        · exact hv.leq h hx
      · rintro (h | h) x hx
        · obtain ⟨xs,hxs,hne,rfl⟩ := hv.add hx
          exact sum_neg hne (all_neg ih h hxs)
        · exact hv.lt h hx
    | _ =>
      simp only [SignsRight,isPositiveOrNull,isNegative,decide_eq_true_eq]
      exact ⟨fun h _ hx => hv.leq h hx,fun h _ hx => hv.lt h hx⟩

end Valuations

section Soundness
variable {I : Interp ADT Field Fun}

def SignSound (S : Cbits Fun) (E : Build ADT Field Fun) (I : Interp ADT Field Fun) (t : Term ADT Field Fun) : Prop :=
  (isPositiveOrNull S E t = true → ∀ x, I.value S t = .int x → 0 ≤ x) ∧
    (isNegative S E t = true → ∀ x, I.value S t = .int x → x < 0)

theorem Build.Sound.arithmetic (hE : E.Sound S I) : Arithmetic S E (I.value S) where
  leq h hx := by
    have hv := value_of_isTrue (S := S) (I := I) h
    rw [hE.leq (value_eZero S I) hx] at hv
    simpa using hv
  lt h hx := by
    have hv := value_of_isTrue (S := S) (I := I) h
    rw [hE.lt hx (value_eZero S I)] at hv
    simpa using hv
  lnot h := value_lnot.mp h
  lor h := value_lor.mp h
  land h := value_land.mp h
  lxor h := value_lxor.mp h
  lsl h := by
    obtain ⟨x,n,hxs,rfl⟩ := value_lsl.mp h
    exact ⟨x,n,hxs,shl_neg_iff I⟩
  lsr h := by
    obtain ⟨x,n,hxs,rfl⟩ := value_lsr.mp h
    exact ⟨x,n,hxs,shr_neg_iff I⟩
  add h := value_add.mp h

theorem signSound (hE : E.Sound S I) (t : Term ADT Field Fun) : SignSound S E I t := signsRight hE.arithmetic t

end Soundness
end FramaC.Cint
