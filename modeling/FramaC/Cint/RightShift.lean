import FramaC.Cint.Matching

/-! # Comparisons of right shifts

A shift is compared after the low bits are cleared. Against a constant the comparison is built with its sides exchanged, so
that an inequality is turned over.
-/
set_option linter.unusedSectionVars false
namespace FramaC.Cint
open Qed Integer Bits
variable {ADT Field Fun : Type} [DecidableEq ADT] [DecidableEq Field] [DecidableEq Fun] [FunSymbol Fun]

section Rules
variable (S : Cbits Fun) (E : Build ADT Field Fun)

/-- The arguments of `cmp` are evaluated from the right. -/
def mkCmpWithLsrCst (cmp : Term ADT Field Fun → Term ADT Field Fun → Term ADT Field Fun) (e : Term ADT Field Fun)
    (x2 x1 : ℤ) : Res (Term ADT Field Fun) := do
  let m ← twoPowerKMinus1 x2
  let c ← shiftLeft x1 x2
  return cmp (eZint c) (E.eFun S.land [eZint (lognot m),e])

def smpCmpWithLsr (cmp : Term ADT Field Fun → Term ADT Field Fun → Term ADT Field Fun) (a0 b0 : Term ADT Field Fun) :
    Res (Term ADT Field Fun) :=
  handle
    (do
      let b1 ← matchInteger b0
      let (e,a2) ← matchPositiveOrNullIntegerArg2 (← matchFun S.lsr a0)
      mkCmpWithLsrCst S E cmp e a2 b1)
    (do
      let (a,p) ← matchPositiveOrNullIntegerArg2 (← matchFun S.lsr a0)
      let (b,q) ← matchPositiveOrNullIntegerArg2 (← matchFun S.lsr b0)
      let n := min p q
      let a := if n < p then E.eFun S.lsr [a,eZint (p - n)] else a
      let b := if n < q then E.eFun S.lsr [b,eZint (q - n)] else b
      let m := eZint (lognot (← twoPowerKMinus1 n))
      return cmp (E.eFun S.land [a,m]) (E.eFun S.land [b,m]))

def smpEqWithLsr (a0 b0 : Term ADT Field Fun) : Res (Term ADT Field Fun) := smpCmpWithLsr S E E.eEq a0 b0

def smpLeqWithLsr (a0 b0 : Term ADT Field Fun) : Res (Term ADT Field Fun) :=
  handle
    (do
      let bs ← matchFun S.lsr b0
      if a0 = eZero then
        let (e,_) ← matchPositiveOrNullArg2 S E bs
        return E.eLeq eZero e
      else
        let a1 ← matchInteger a0
        let (e,b2) ← matchPositiveOrNullIntegerArg2 bs
        mkCmpWithLsrCst S E (fun a b => E.eLeq b a) e b2 a1)
    (if b0 = eZero then do
      let (e,_) ← matchPositiveOrNullArg2 S E (← matchFun S.lsr a0)
      return E.eLeq e eZero
    else smpCmpWithLsr S E E.eLeq a0 b0)

end Rules

section Operands
variable {S : Cbits Fun} {E : Build ADT Field Fun} {I : Interp ADT Field Fun}

theorem value_lsr_const {e : Term ADT Field Fun} {ts : List (Term ADT Field Fun)} {c z : ℤ} (hc : 0 ≤ c)
    (h : I.value S (.node (.func S.lsr) [e,.node (.kint c) ts]) = .int z) :
    ∃ x, I.value S e = .int x ∧ z = x / 2 ^ c.toNat := by
  obtain ⟨x,n,hxs,rfl⟩ := value_lsr.mp h
  obtain ⟨he,rfl⟩ := const_arg2 hxs
  exact ⟨x,he,by rw [Interp.shr,if_pos hc]⟩

theorem value_masked (hE : E.Sound S I) {e : Term ADT Field Fun} {x : ℤ} (he : I.value S e = .int x) (k : ℕ) :
    I.value S (E.eFun S.land [eZint (lognot (2 ^ k - 1)),e]) = .int (x / 2 ^ k * 2 ^ k) ∧
      I.value S (E.eFun S.land [e,eZint (lognot (2 ^ k - 1))]) = .int (x / 2 ^ k * 2 ^ k) := by
  have hmask : ∀ {ts : List (Term ADT Field Fun)} {xs : List ℤ}, I.Ints S ts xs → landAll xs = x / 2 ^ k * 2 ^ k →
      I.value S (E.eFun S.land ts) = .int (x / 2 ^ k * 2 ^ k) :=
    fun hxs hx => hE.func_int (value_land.mpr ⟨_,hxs,hx.symm⟩)
  constructor
  · refine @hmask _ [lognot (2 ^ k - 1),x] ?_ ?_
    · exact .cons (value_eZint ..) (.cons he .nil)
    · rw [← land_mask,land_comm]
      simp [landAll,land_neg_one]
  · refine @hmask _ [x,lognot (2 ^ k - 1)] ?_ ?_
    · exact .cons he (.cons (value_eZint ..) .nil)
    · rw [← land_mask]
      simp [landAll,land_neg_one]

theorem value_shifted (hE : E.Sound S I) {a : Term ADT Field Fun} {x p n : ℤ} (ha : I.value S a = .int x) (hn : 0 ≤ n)
    (hnp : n ≤ p) : ∃ z, I.value S (if n < p then E.eFun S.lsr [a,eZint (p - n)] else a) = .int z ∧
      z / 2 ^ n.toNat = x / 2 ^ p.toNat := by
  split
  · have hpow : (2 : ℤ) ^ p.toNat = 2 ^ (p - n).toNat * 2 ^ n.toNat := by
      rw [← pow_add]
      congr 1
      omega
    refine ⟨x / 2 ^ (p - n).toNat,hE.func_int (value_lsr.mpr ⟨x,p - n,.cons ha (.cons (value_eZint ..) .nil),?_⟩),?_⟩
    · rw [Interp.shr,if_pos (by omega)]
    · rw [hpow,Int.ediv_ediv_of_nonneg (by positivity)]
  · obtain rfl : n = p := by omega
    exact ⟨x,ha,rfl⟩

def IsInteger (t : Term ADT Field Fun) : Prop := ∃ c ts, t = .node (.kint c) ts

theorem not_isInteger_func (f : Fun) (ts : List (Term ADT Field Fun)) : ¬ IsInteger (.node (.func f) ts) := by
  rintro ⟨c,us,h⟩
  cases h

theorem mkCmpWithLsrCst_ok (hE : E.Sound S I) {cmp : Term ADT Field Fun → Term ADT Field Fun → Term ADT Field Fun}
    {e f : Term ADT Field Fun} {k c x : ℤ} (hk : 0 ≤ k) (he : I.value S e = .int x)
    (h : mkCmpWithLsrCst S E cmp e k c = .ok f) :
    ∃ a b, f = cmp a b ∧ I.value S a = .int (c * 2 ^ k.toNat) ∧ I.value S b = .int (x / 2 ^ k.toNat * 2 ^ k.toNat) := by
  simp only [mkCmpWithLsrCst,bind_ok] at h
  obtain ⟨m,hm,d,hd,h⟩ := h
  obtain rfl := twoPowerKMinus1_ok hk hm
  obtain ⟨_,rfl⟩ := shiftLeft_ok hd
  exact ⟨_,_,(Except.ok.inj h).symm,value_eZint ..,(value_masked hE he _).1⟩

theorem smpCmpWithLsr_ok (hE : E.Sound S I) {cmp : Term ADT Field Fun → Term ADT Field Fun → Term ADT Field Fun}
    {a0 b0 f : Term ADT Field Fun} {x y : ℤ} (ha : I.value S a0 = .int x) (hb : I.value S b0 = .int y)
    (h : smpCmpWithLsr S E cmp a0 b0 = .ok f) : ¬ IsInteger a0 ∧ ∃ (a b : Term ADT Field Fun) (k : ℕ), f = cmp a b ∧
      (IsInteger b0 ∧ I.value S a = .int (y * 2 ^ k) ∧ I.value S b = .int (x * 2 ^ k) ∨
        ¬ IsInteger b0 ∧ I.value S a = .int (x * 2 ^ k) ∧ I.value S b = .int (y * 2 ^ k)) := by
  simp only [smpCmpWithLsr,handle_ok,bind_ok,Prod.exists] at h
  rcases h with ⟨b1,hb1,es,hes,e,k,hek,h⟩ | ⟨_,es,hes,a,p,hap,es',hes',b,q,hbq,m,hm,h⟩
  · obtain ⟨ts,rfl⟩ := matchInteger_ok.mp hb1
    obtain rfl := matchFun_ok.mp hes
    obtain ⟨hk,us,rfl⟩ := matchPositiveOrNullIntegerArg2_ok.mp hek
    obtain ⟨z,hz,rfl⟩ := value_lsr_const hk ha
    obtain ⟨a,b,rfl,hva,hvb⟩ := mkCmpWithLsrCst_ok hE hk hz h
    rw [value_kint] at hb
    obtain rfl := Value.int.inj hb
    exact ⟨not_isInteger_func _ _,a,b,k.toNat,rfl,.inl ⟨⟨b1,ts,rfl⟩,hva,hvb⟩⟩
  · obtain rfl := matchFun_ok.mp hes
    obtain rfl := matchFun_ok.mp hes'
    obtain ⟨hp,us,rfl⟩ := matchPositiveOrNullIntegerArg2_ok.mp hap
    obtain ⟨hq,us',rfl⟩ := matchPositiveOrNullIntegerArg2_ok.mp hbq
    have hn : 0 ≤ min p q := le_min hp hq
    obtain ⟨z,hz,rfl⟩ := value_lsr_const hp ha
    obtain ⟨w,hw,rfl⟩ := value_lsr_const hq hb
    obtain ⟨z',hz',hzq⟩ := value_shifted hE hz hn (min_le_left p q)
    obtain ⟨w',hw',hwq⟩ := value_shifted hE hw hn (min_le_right p q)
    obtain rfl := twoPowerKMinus1_ok hn hm
    rw [← hzq,← hwq]
    exact ⟨not_isInteger_func _ _,_,_,(min p q).toNat,(Except.ok.inj h).symm,.inr ⟨not_isInteger_func _ _,
      (value_masked hE hz' _).2,(value_masked hE hw' _).2⟩⟩

end Operands

section Soundness
variable {S : Cbits Fun} {E : Build ADT Field Fun} {I : Interp ADT Field Fun}

/-- The inequality of `x` and `y`, which are the values of the sides, is right: a shift is not compared to a constant,
unless the two are equal, and a positive number that is shifted to zero is not compared to zero. -/
def LeqWithLsrRight (S : Cbits Fun) (I : Interp ADT Field Fun) (a0 b0 : Term ADT Field Fun) (x y : ℤ) : Prop :=
  (a0 ≠ eZero → b0 ≠ eZero → IsInteger a0 ∨ IsInteger b0 → x = y) ∧
    ∀ e k z, a0 = .node (.func S.lsr) [e,k] → b0 = eZero → I.value S e = .int z → x = 0 → z ≤ 0

theorem smpEqWithLsr_sound (hE : E.Sound S I) {a b f : Term ADT Field Fun} {x y : ℤ} (ha : I.value S a = .int x)
    (hb : I.value S b = .int y) (h : smpEqWithLsr S E a b = .ok f) : I.value S f = .prop (x = y) := by
  obtain ⟨_,c,d,k,rfl,⟨_,hc,hd⟩ | ⟨_,hc,hd⟩⟩ := smpCmpWithLsr_ok hE ha hb h
  · have hk : (2 : ℤ) ^ k ≠ 0 := by positivity
    rw [hE.eq_int hc hd]
    simp [hk,eq_comm]
  · have hk : (2 : ℤ) ^ k ≠ 0 := by positivity
    rw [hE.eq_int hc hd]
    simp [hk]

theorem smpLeqWithLsr_iff (hE : E.Sound S I) {a b f : Term ADT Field Fun} {x y : ℤ} (ha : I.value S a = .int x)
    (hb : I.value S b = .int y) (h : smpLeqWithLsr S E a b = .ok f) :
    I.value S f = .prop (x ≤ y) ↔ LeqWithLsrRight S I a b x y := by
  have hturned : ∀ k : ℕ, (y * 2 ^ k ≤ x * 2 ^ k ↔ x ≤ y) ↔ x = y := by
    intro k
    have hk : (0 : ℤ) < 2 ^ k := by positivity
    rw [mul_le_mul_iff_left₀ hk]
    omega
  simp only [smpLeqWithLsr,handle_ok,bind_ok] at h
  rcases h with ⟨es,hes,h⟩ | ⟨_,h⟩
  · obtain rfl := matchFun_ok.mp hes
    have hb0 : (.node (.func S.lsr) es : Term ADT Field Fun) ≠ eZero := by simp [eZero,eZint]
    split at h
    · next ha0 =>
      -- a shift is positive or null when the shifted number is
      subst ha0
      simp only [bind_ok,Prod.exists] at h
      obtain ⟨e,k,hek,h⟩ := h
      obtain rfl := Except.ok.inj h
      obtain ⟨rfl,hpos⟩ := matchPositiveOrNullArg2_ok.mp hek
      obtain ⟨z,n,hzn,rfl⟩ := value_lsr.mp hb
      obtain ⟨hz,_,hn⟩ := nonneg_arg2 hE hzn hpos
      rw [value_eZero] at ha
      obtain rfl := Value.int.inj ha
      have hshr := (shr_neg_iff I (x := z) hn).not
      rw [hE.leq (value_eZero S I) hz]
      refine iff_of_true ?_ ⟨fun h => absurd rfl h,fun _ _ _ _ h => absurd h hb0⟩
      simpa using hshr.symm
    · next ha0 =>
      simp only [bind_ok,Prod.exists] at h
      obtain ⟨a1,ha1,e,k,hek,h⟩ := h
      obtain ⟨ts,rfl⟩ := matchInteger_ok.mp ha1
      obtain ⟨hk,us,rfl⟩ := matchPositiveOrNullIntegerArg2_ok.mp hek
      obtain ⟨z,hz,rfl⟩ := value_lsr_const hk hb
      obtain ⟨c,d,rfl,hc,hd⟩ := mkCmpWithLsrCst_ok hE hk hz h
      rw [value_kint] at ha
      obtain rfl := Value.int.inj ha
      rw [hE.leq hd hc,Value.prop.injEq,decide_eq_decide,hturned]
      exact ⟨fun h => ⟨fun _ _ _ => h,fun _ _ _ _ h => absurd h hb0⟩,fun h => h.1 ha0 hb0 (.inl ⟨a1,ts,rfl⟩)⟩
  · split at h
    · next hb0 =>
      subst hb0
      simp only [bind_ok,Prod.exists] at h
      obtain ⟨es,hes,e,k,hek,h⟩ := h
      obtain rfl := Except.ok.inj h
      obtain rfl := matchFun_ok.mp hes
      obtain ⟨rfl,hpos⟩ := matchPositiveOrNullArg2_ok.mp hek
      obtain ⟨z,n,hzn,rfl⟩ := value_lsr.mp ha
      obtain ⟨hz,_,hn⟩ := nonneg_arg2 hE hzn hpos
      rw [value_eZero] at hb
      obtain rfl := Value.int.inj hb
      have hshr := shr_neg_iff I (x := z) hn
      rw [hE.leq hz (value_eZero S I),Value.prop.injEq,decide_eq_decide]
      constructor
      · intro hiff
        refine ⟨fun _ h => absurd rfl h,fun e' k' z' he' _ hz' h0 => ?_⟩
        obtain ⟨rfl,_⟩ : e = e' ∧ k = k' := by simpa using he'
        rw [hz] at hz'
        obtain rfl := Value.int.inj hz'
        exact hiff.mpr h0.le
      · intro hright
        have h0 := hright.2 e k z rfl rfl hz
        have hzero : z = 0 → I.shr z n = 0 := by
          rintro rfl
          rw [Interp.shr,if_pos hn,Int.zero_ediv]
        omega
    · next hb0 =>
      obtain ⟨hna,c,d,k,rfl,⟨hint,hc,hd⟩ | ⟨hint,hc,hd⟩⟩ := smpCmpWithLsr_ok hE ha hb h
      · have ha0 : a ≠ eZero := fun h => hna ⟨0,[],h⟩
        rw [hE.leq hc hd,Value.prop.injEq,decide_eq_decide,hturned]
        exact ⟨fun h => ⟨fun _ _ _ => h,fun _ _ _ _ h => absurd h hb0⟩,fun h => h.1 ha0 hb0 (.inr hint)⟩
      · have hk : (0 : ℤ) < 2 ^ k := by positivity
        rw [hE.leq hc hd,Value.prop.injEq,decide_eq_decide,mul_le_mul_iff_left₀ hk]
        exact iff_of_true Iff.rfl ⟨fun _ _ h => absurd h (not_or_intro hna hint),fun _ _ _ _ h => absurd h hb0⟩

end Soundness

section Examples

def halfVariable : Term Empty Empty Symbol := .node (.func .lsr) [freeVariable 0,eZint 1]

theorem value_halfVariable (z : ℤ) : (Interp.ofVariables fun _ => z).value cbits halfVariable = .int (z / 2) :=
  value_lsr.mpr ⟨z,1,.cons rfl (.cons rfl .nil),by simp [Interp.shr]⟩

end Examples
end FramaC.Cint
