import FramaC.Cint.RightShift

/-! # Comparisons of left shifts

Two shifts are compared by what is shifted when the amounts are equal, and by the amounts when what is shifted is the same
term, which is only right of a number that is not zero.
-/
set_option linter.unusedSectionVars false
namespace FramaC.Cint
open Qed Integer Bits
variable {ADT Field Fun : Type} [DecidableEq ADT] [DecidableEq Field] [DecidableEq Fun] [FunSymbol Fun]

/-- The comparisons that are passed to `smp_cmp_with_lsl`. -/
inductive Cmp
  | eq
  | leq
  deriving DecidableEq

def Cmp.apply (E : Build ADT Field Fun) : Cmp → Term ADT Field Fun → Term ADT Field Fun → Term ADT Field Fun
  | .eq => E.eEq
  | .leq => E.eLeq

section Rules
variable (S : Cbits Fun) (E : Build ADT Field Fun)

def smpEqWithLslCst (a0 b0 : Term ADT Field Fun) : Res (Term ADT Field Fun) := do
  let b1 ← matchInteger b0
  let es ← matchFun S.lsl a0
  handle
    (do
      let (e,a2) ← matchPositiveOrNullIntegerArg2 es
      let m ← twoPowerKMinus1 a2
      if logand b1 m ≠ 0 then return eFalse
      else return E.eEq e (eZint (← shiftRight b1 a2)))
    (do
      let (a1,e) ← matchIntegerArg1 es
      if isNegative S E e then .error .notFound
      else if 0 ≤ a1 ∧ b1 < a1 then return eFalse
      else if 0 ≥ a1 ∧ b1 > a1 then return eFalse
      else .error .notFound)

def smpCmpWithLsl (cmp : Cmp) (a0 b0 : Term ADT Field Fun) : Res (Term ADT Field Fun) :=
  if a0 = eZero then do
    let (b,_) ← matchPositiveOrNullArg2 S E (← matchFun S.lsl b0)
    return cmp.apply E eZero b
  else if b0 = eZero then do
    let (a,_) ← matchPositiveOrNullArg2 S E (← matchFun S.lsl a0)
    return cmp.apply E a eZero
  else do
    let (a,p) ← matchPositiveOrNullArg2 S E (← matchFun S.lsl a0)
    let (b,q) ← matchPositiveOrNullArg2 S E (← matchFun S.lsl b0)
    if p = q then return cmp.apply E a b
    else if a = b ∧ (cmp = .eq ∨ isPositiveOrNull S E a = true) then return cmp.apply E p q
    else if a = b ∧ isNegative S E a = true then return cmp.apply E q p
    else
      let p ← matchInteger p
      let q ← matchInteger q
      if p < q then return cmp.apply E a (E.eFun S.lsl [b,eZint (q - p)])
      else if q < p then return cmp.apply E (E.eFun S.lsl [a,eZint (p - q)]) b
      else return cmp.apply E a b

def smpEqWithLsl (a b : Term ADT Field Fun) : Res (Term ADT Field Fun) :=
  handle (smpEqWithLslCst S E a b) (smpCmpWithLsl S E .eq a b)

def smpLeqWithLsl (a0 b0 : Term ADT Field Fun) : Res (Term ADT Field Fun) := smpCmpWithLsl S E .leq a0 b0

end Rules

section Numbers

def Cmp.rel : Cmp → ℤ → ℤ → Bool
  | .eq, x, y => x = y
  | .leq, x, y => x ≤ y

theorem Cmp.rel_mul (cmp : Cmp) (x y : ℤ) {k : ℤ} (hk : 0 < k) : cmp.rel (x * k) (y * k) = cmp.rel x y := by
  cases cmp with
  | eq => simp [Cmp.rel,hk.ne']
  | leq => simp [Cmp.rel,mul_le_mul_iff_left₀ hk]

theorem mul_two_pow_le_iff (z : ℤ) (m n : ℕ) :
    (0 < z → (z * 2 ^ m ≤ z * 2 ^ n ↔ m ≤ n)) ∧ (z < 0 → (z * 2 ^ m ≤ z * 2 ^ n ↔ n ≤ m)) := by
  have hpow : ∀ i j : ℕ, (2 : ℤ) ^ i ≤ 2 ^ j ↔ i ≤ j := fun i j => pow_le_pow_iff_right₀ (by omega)
  constructor
  · intro hz
    rw [mul_le_mul_iff_right₀ hz,hpow]
  · intro hz
    rw [mul_le_mul_left_of_neg hz,hpow]

theorem mul_two_pow_eq_iff (z : ℤ) (m n : ℕ) : z * 2 ^ m = z * 2 ^ n ↔ z = 0 ∨ m = n := by
  rcases eq_or_ne z 0 with rfl | hz
  · simp
  · have hpow : (2 : ℤ) ^ m = 2 ^ n ↔ m = n := pow_right_inj₀ (by omega) (by omega)
    rw [mul_right_inj' hz,hpow]
    simp [hz]

end Numbers

section Operands
variable {S : Cbits Fun} {E : Build ADT Field Fun} {I : Interp ADT Field Fun}

theorem Cmp.value_apply (hE : E.Sound S I) (cmp : Cmp) {a b : Term ADT Field Fun} {x y : ℤ} (ha : I.value S a = .int x)
    (hb : I.value S b = .int y) : I.value S (cmp.apply E a b) = .prop (cmp.rel x y) := by
  cases cmp with
  | eq => exact hE.eq_int ha hb
  | leq => exact hE.leq ha hb

theorem value_lsl_nonneg (hE : E.Sound S I) {e k : Term ADT Field Fun} {z : ℤ} (hk : isPositiveOrNull S E k = true)
    (h : I.value S (.node (.func S.lsl) [e,k]) = .int z) :
    ∃ x n : ℤ, I.value S e = .int x ∧ I.value S k = .int n ∧ 0 ≤ n ∧ z = x * 2 ^ n.toNat := by
  obtain ⟨x,n,hxs,rfl⟩ := value_lsl.mp h
  obtain ⟨he,hkn,hn⟩ := nonneg_arg2 hE hxs hk
  exact ⟨x,n,he,hkn,hn,by rw [Interp.shl,if_pos hn]⟩

theorem value_eFun_lsl (hE : E.Sound S I) {e : Term ADT Field Fun} {x n : ℤ} (he : I.value S e = .int x) (hn : 0 ≤ n) :
    I.value S (E.eFun S.lsl [e,eZint n]) = .int (x * 2 ^ n.toNat) :=
  hE.func_int (value_lsl.mpr ⟨x,n,.cons he (.cons (value_eZint ..) .nil),by rw [Interp.shl,if_pos hn]⟩)

end Operands

section Soundness
variable {S : Cbits Fun} {E : Build ADT Field Fun} {I : Interp ADT Field Fun}

/-- The amounts compare like the shifts of one term by them: a term that may be null is not compared by them. -/
def AmountsRight (S : Cbits Fun) (E : Build ADT Field Fun) (I : Interp ADT Field Fun) (cmp : Cmp)
    (a0 b0 : Term ADT Field Fun) : Prop :=
  ∀ e p q m n, a0 = .node (.func S.lsl) [e,p] → b0 = .node (.func S.lsl) [e,q] →
    cmp = .eq ∨ isPositiveOrNull S E e = true → I.value S e = .int 0 → I.value S p = .int m → I.value S q = .int n →
    cmp.rel m n = true

theorem lsl_ne_eZero (ts : List (Term ADT Field Fun)) : (.node (.func S.lsl) ts : Term ADT Field Fun) ≠ eZero := by
  simp [eZero,eZint]

theorem rel_shifted_iff {cmp : Cmp} {z m n : ℤ} (hz : cmp = .eq ∨ 0 ≤ z) (hm : 0 ≤ m) (hn : 0 ≤ n) :
    cmp.rel (z * 2 ^ m.toNat) (z * 2 ^ n.toNat) = cmp.rel m n ↔ (z = 0 → cmp.rel m n = true) := by
  rcases eq_or_ne z 0 with rfl | hne
  · have hself : cmp.rel (0 * 2 ^ m.toNat) (0 * 2 ^ n.toNat) = true := by cases cmp <;> simp [Cmp.rel]
    rw [hself,eq_comm]
    simp
  · refine iff_of_true ?_ fun h => absurd h hne
    cases cmp with
    | eq =>
      simp only [Cmp.rel,mul_two_pow_eq_iff,hne,false_or,decide_eq_decide]
      omega
    | leq =>
      have hpos : 0 < z := by
        rcases hz with h | h
        · cases h
        · omega
      simp only [Cmp.rel,(mul_two_pow_le_iff z _ _).1 hpos,decide_eq_decide]
      omega

theorem smpCmpWithLsl_iff (hE : E.Sound S I) {cmp : Cmp} {a0 b0 f : Term ADT Field Fun} {x y : ℤ}
    (ha : I.value S a0 = .int x) (hb : I.value S b0 = .int y) (h : smpCmpWithLsl S E cmp a0 b0 = .ok f) :
    I.value S f = .prop (cmp.rel x y) ↔ AmountsRight S E I cmp a0 b0 := by
  unfold smpCmpWithLsl at h
  split at h
  · next ha0 =>
    simp only [bind_ok,Prod.exists] at h
    obtain ⟨es,hes,b,q,hbq,h⟩ := h
    obtain rfl := Except.ok.inj h
    obtain rfl := matchFun_ok.mp hes
    obtain ⟨rfl,hq⟩ := matchPositiveOrNullArg2_ok.mp hbq
    obtain ⟨z,n,hz,_,_,rfl⟩ := value_lsl_nonneg hE hq hb
    subst ha0
    rw [value_eZero] at ha
    obtain rfl := Value.int.inj ha
    have hrel := cmp.rel_mul 0 z (k := 2 ^ n.toNat) (by positivity)
    rw [zero_mul] at hrel
    rw [cmp.value_apply hE (value_eZero S I) hz,hrel]
    exact iff_of_true rfl fun _ _ _ _ _ h => absurd h.symm (lsl_ne_eZero _)
  split at h
  · next hb0 =>
    simp only [bind_ok,Prod.exists] at h
    obtain ⟨es,hes,a,p,hap,h⟩ := h
    obtain rfl := Except.ok.inj h
    obtain rfl := matchFun_ok.mp hes
    obtain ⟨rfl,hp⟩ := matchPositiveOrNullArg2_ok.mp hap
    obtain ⟨z,n,hz,_,_,rfl⟩ := value_lsl_nonneg hE hp ha
    subst hb0
    rw [value_eZero] at hb
    obtain rfl := Value.int.inj hb
    have hrel := cmp.rel_mul z 0 (k := 2 ^ n.toNat) (by positivity)
    rw [zero_mul] at hrel
    rw [cmp.value_apply hE hz (value_eZero S I),hrel]
    exact iff_of_true rfl fun _ _ _ _ _ _ h => absurd h.symm (lsl_ne_eZero _)
  simp only [bind_ok,Prod.exists] at h
  obtain ⟨es,hes,a,p,hap,es',hes',b,q,hbq,h⟩ := h
  obtain rfl := matchFun_ok.mp hes
  obtain rfl := matchFun_ok.mp hes'
  obtain ⟨rfl,hp⟩ := matchPositiveOrNullArg2_ok.mp hap
  obtain ⟨rfl,hq⟩ := matchPositiveOrNullArg2_ok.mp hbq
  obtain ⟨z,m,hz,hpm,hm,rfl⟩ := value_lsl_nonneg hE hp ha
  obtain ⟨w,n,hw,hqn,hn,rfl⟩ := value_lsl_nonneg hE hq hb
  -- the condition is about the case where the same term is shifted
  have hamounts : AmountsRight S E I cmp (.node (.func S.lsl) [a,p]) (.node (.func S.lsl) [b,q]) ↔
      (a = b → cmp = .eq ∨ isPositiveOrNull S E a = true → z = 0 → cmp.rel m n = true) := by
    constructor
    · rintro h rfl hcmp rfl
      exact h a p q m n rfl rfl hcmp hz hpm hqn
    · rintro h e p' q' m' n' h1 h2 hcmp h0 hm' hn'
      obtain ⟨rfl,rfl⟩ : a = e ∧ p = p' := by simpa using h1
      obtain ⟨rfl,rfl⟩ : b = a ∧ q = q' := by simpa using h2
      rw [hz] at h0
      rw [hpm] at hm'
      rw [hqn] at hn'
      obtain rfl := Value.int.inj hm'
      obtain rfl := Value.int.inj hn'
      exact h rfl hcmp (Value.int.inj h0)
  rw [hamounts]
  split at h
  · next hpq =>
    subst hpq
    rw [hpm] at hqn
    obtain rfl := Value.int.inj hqn
    obtain rfl := Except.ok.inj h
    rw [cmp.value_apply hE hz hw,cmp.rel_mul z w (by positivity)]
    exact iff_of_true rfl fun _ _ _ => by cases cmp <;> simp [Cmp.rel]
  split at h
  · next hcase =>
    obtain ⟨rfl,hcmp⟩ := hcase
    obtain rfl := Except.ok.inj h
    rw [hz] at hw
    obtain rfl := Value.int.inj hw
    have hz0 : cmp = .eq ∨ 0 ≤ z := hcmp.imp_right fun h => (signSound hE a).1 h z hz
    rw [cmp.value_apply hE hpm hqn,Value.prop.injEq,eq_comm,rel_shifted_iff hz0 hm hn]
    simp [hcmp]
  next hsame =>
  split at h
  · next hcase =>
    obtain ⟨rfl,hneg⟩ := hcase
    obtain rfl := Except.ok.inj h
    rw [hz] at hw
    obtain rfl := Value.int.inj hw
    have hz0 := (signSound hE a).2 hneg z hz
    cases cmp with
    | eq => exact absurd ⟨rfl,.inl rfl⟩ hsame
    | leq =>
      rw [Cmp.value_apply hE .leq hqn hpm]
      refine iff_of_true ?_ fun _ _ h => by omega
      simp only [Cmp.rel,(mul_two_pow_le_iff z _ _).2 hz0,Value.prop.injEq,decide_eq_decide]
      omega
  · simp only [bind_ok] at h
    obtain ⟨p',hp',q',hq',h⟩ := h
    obtain ⟨ts,rfl⟩ := matchInteger_ok.mp hp'
    obtain ⟨us,rfl⟩ := matchInteger_ok.mp hq'
    rw [value_kint] at hpm hqn
    obtain rfl := Value.int.inj hpm
    obtain rfl := Value.int.inj hqn
    refine iff_of_true ?_ fun hab hcmp => absurd ⟨hab,hcmp⟩ hsame
    split at h
    · next hlt =>
      obtain rfl := Except.ok.inj h
      have hpow : w * 2 ^ q'.toNat = w * 2 ^ (q' - p').toNat * 2 ^ p'.toNat := by
        rw [mul_assoc,← pow_add]
        congr 2
        omega
      rw [cmp.value_apply hE hz (value_eFun_lsl hE hw (by omega)),hpow,cmp.rel_mul _ _ (by positivity)]
    split at h
    · next hlt =>
      obtain rfl := Except.ok.inj h
      have hpow : z * 2 ^ p'.toNat = z * 2 ^ (p' - q').toNat * 2 ^ q'.toNat := by
        rw [mul_assoc,← pow_add]
        congr 2
        omega
      rw [cmp.value_apply hE (value_eFun_lsl hE hz (by omega)) hw,hpow,cmp.rel_mul _ _ (by positivity)]
    · obtain rfl := Except.ok.inj h
      obtain rfl : p' = q' := by omega
      rw [cmp.value_apply hE hz hw,cmp.rel_mul _ _ (by positivity)]

theorem smpCmpWithLsl_amount {cmp : Cmp} {b0 f e k : Term ADT Field Fun}
    (h : smpCmpWithLsl S E cmp (.node (.func S.lsl) [e,k]) b0 = .ok f) : isPositiveOrNull S E k = true := by
  have hamount : ∀ {es : List (Term ADT Field Fun)} {a p : Term ADT Field Fun},
      matchFun S.lsl (.node (.func S.lsl) [e,k]) = .ok es → matchPositiveOrNullArg2 S E es = .ok (a,p) →
      isPositiveOrNull S E k = true := by
    intro es a p hes hap
    obtain ⟨rfl,hp⟩ := matchPositiveOrNullArg2_ok.mp hap
    have hargs := matchFun_ok.mp hes
    simp only [Rose.node.injEq,List.cons.injEq,true_and,and_true] at hargs
    rwa [hargs.2]
  unfold smpCmpWithLsl at h
  rw [if_neg (lsl_ne_eZero _)] at h
  split at h
  · simp only [bind_ok,Prod.exists] at h
    obtain ⟨es,hes,a,p,hap,_⟩ := h
    exact hamount hes hap
  · simp only [bind_ok,Prod.exists] at h
    obtain ⟨es,hes,a,p,hap,_⟩ := h
    exact hamount hes hap

/-- A constant shifted by a negative amount is not the constant it is compared to, and equal shifts of one term have equal
amounts. -/
def EqWithLslRight (S : Cbits Fun) (E : Build ADT Field Fun) (I : Interp ADT Field Fun) (a0 b0 : Term ADT Field Fun)
    (x y : ℤ) : Prop :=
  (∀ a1 e n, a0 = .node (.func S.lsl) [a1,e] → IsInteger a1 → IsInteger b0 → I.value S e = .int n → n < 0 → x ≠ y) ∧
    AmountsRight S E I .eq a0 b0

theorem smpEqWithLslCst_iff (hE : E.Sound S I) {a0 b0 f : Term ADT Field Fun} {x y : ℤ} (ha : I.value S a0 = .int x)
    (hb : I.value S b0 = .int y) (h : smpEqWithLslCst S E a0 b0 = .ok f) :
    I.value S f = .prop (x = y) ↔ EqWithLslRight S E I a0 b0 x y := by
  simp only [smpEqWithLslCst,bind_ok] at h
  obtain ⟨b1,hb1,es,hes,h⟩ := h
  obtain ⟨ts,rfl⟩ := matchInteger_ok.mp hb1
  obtain rfl := matchFun_ok.mp hes
  rw [value_kint] at hb
  obtain rfl := Value.int.inj hb
  have hamounts : AmountsRight S E I .eq (.node (.func S.lsl) es) (.node (.kint b1) ts) := by
    rintro e p q m n _ h
    cases h
  simp only [handle_ok,bind_ok,Prod.exists] at h
  rcases h with ⟨e,k,hek,m,hm,h⟩ | ⟨_,a1,e,hae,h⟩
  · obtain ⟨hk,us,rfl⟩ := matchPositiveOrNullIntegerArg2_ok.mp hek
    obtain ⟨z,n,hzn,rfl⟩ := value_lsl.mp ha
    obtain ⟨hz,rfl⟩ := const_arg2 hzn
    obtain rfl := twoPowerKMinus1_ok hk hm
    have hright : EqWithLslRight S E I (.node (.func S.lsl) [e,.node (.kint n) us]) (.node (.kint b1) ts) (I.shl z n) b1 := by
      refine ⟨fun a1 e' n' h _ _ hn hneg => ?_,hamounts⟩
      obtain ⟨_,rfl⟩ : e = a1 ∧ .node (.kint n) us = e' := by simpa using h
      rw [value_kint] at hn
      obtain rfl := Value.int.inj hn
      omega
    refine iff_of_true ?_ hright
    have hpow : (0 : ℤ) < 2 ^ n.toNat := by positivity
    rw [logand,land_two_pow_sub_one] at h
    rw [Interp.shl,if_pos hk]
    split at h
    · next hlow =>
      obtain rfl := Except.ok.inj h
      have hne : z * 2 ^ n.toNat ≠ b1 := by
        rintro rfl
        exact hlow (Int.mul_emod_left ..)
      rw [value_eFalse]
      simp [hne]
    · next hlow =>
      simp only [bind_ok] at h
      obtain ⟨c,hc,h⟩ := h
      obtain rfl := Except.ok.inj h
      obtain ⟨_,rfl⟩ := shiftRight_ok hc
      rw [hE.eq_int hz (value_eZint ..),Value.prop.injEq,decide_eq_decide]
      have hdvd : b1 / 2 ^ n.toNat * 2 ^ n.toNat = b1 := Int.ediv_mul_cancel (Int.dvd_of_emod_eq_zero (not_not.mp hlow))
      constructor
      · rintro rfl
        exact hdvd
      · rintro rfl
        rw [Int.mul_ediv_cancel _ hpow.ne']
  · obtain ⟨a0,rfl,ha1⟩ := matchBinopArg1_ok.mp hae
    obtain ⟨us,rfl⟩ := matchInteger_ok.mp ha1
    obtain ⟨z,n,hzn,rfl⟩ := value_lsl.mp ha
    obtain ⟨hz,hn⟩ : I.value S (.node (.kint a1) us) = .int z ∧ I.value S e = .int n := by simpa [Interp.Ints] using hzn
    rw [value_kint] at hz
    obtain rfl := Value.int.inj hz
    have hcases : f = eFalse ∧ (0 ≤ a1 ∧ b1 < a1 ∨ a1 ≤ 0 ∧ a1 < b1) := by
      split at h
      · cases h
      split at h
      · next hc => exact ⟨(Except.ok.inj h).symm,.inl hc⟩
      split at h
      · next hc => exact ⟨(Except.ok.inj h).symm,.inr hc⟩
      · cases h
    obtain ⟨rfl,hsign⟩ := hcases
    rw [value_eFalse,Value.prop.injEq,eq_comm,decide_eq_false_iff_not]
    constructor
    · exact fun hne => ⟨fun _ _ _ _ _ _ _ _ => hne,hamounts⟩
    · intro hright
      by_cases hneg : n < 0
      · exact hright.1 _ e n rfl ⟨a1,us,rfl⟩ ⟨b1,ts,rfl⟩ hn hneg
      · rw [Interp.shl,if_pos (by omega)]
        have hpow : (1 : ℤ) ≤ 2 ^ n.toNat := one_le_pow₀ (by omega)
        rintro rfl
        rcases hsign with ⟨h0,hlt⟩ | ⟨h0,hlt⟩
        · exact absurd (le_mul_of_one_le_right h0 hpow) (by omega)
        · exact absurd (mul_le_of_one_le_right h0 hpow) (by omega)

theorem smpEqWithLsl_iff (hE : E.Sound S I) {a b f : Term ADT Field Fun} {x y : ℤ} (ha : I.value S a = .int x)
    (hb : I.value S b = .int y) (h : smpEqWithLsl S E a b = .ok f) :
    I.value S f = .prop (x = y) ↔ EqWithLslRight S E I a b x y := by
  rcases handle_ok.mp h with hcst | ⟨_,hcmp⟩
  · exact smpEqWithLslCst_iff hE ha hb hcst
  · refine (smpCmpWithLsl_iff hE ha hb hcmp).trans ⟨fun hamounts => ⟨?_,hamounts⟩,And.right⟩
    rintro a1 e n rfl _ _ hn hneg
    have := (signSound hE e).1 (smpCmpWithLsl_amount hcmp) n hn
    omega

end Soundness

section Examples

def shifted (e : Term Empty Empty Symbol) (k : ℤ) : Term Empty Empty Symbol := .node (.func .lsl) [e,eZint k]

theorem value_shifted_const (I : Interp Empty Empty Symbol) {e : Term Empty Empty Symbol} {x k : ℤ} (hk : 0 ≤ k)
    (he : I.value cbits e = .int x) : I.value cbits (shifted e k) = .int (x * 2 ^ k.toNat) :=
  value_lsl.mpr ⟨x,k,.cons he (.cons rfl .nil),by rw [Interp.shl,if_pos hk]⟩

def lowBits : Term Empty Empty Symbol := .node (.func .land) [eZint 7,freeVariable 0]

end Examples
end FramaC.Cint
