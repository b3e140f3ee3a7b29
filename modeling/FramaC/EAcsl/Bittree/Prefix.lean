import FramaC.Lib.BitMask
import Mathlib.Tactic.Ring

/-! # Common prefixes of addresses

The dichotomic search of `mask` in `e_acsl_bittree.h`. Addresses are numbers below `2 ^ 64`; the mask that keeps their
bits from `k` on is `2 ^ 64 - 2 ^ k`, and two addresses agree under it when their quotients by `2 ^ k` are equal.
-/
namespace FramaC.EAcsl.Bittree

open CommonPrefix

def wordbits : ℕ := 64

/-- `Tmasks[i]` keeps the `i` highest bits. -/
def tmasks (i : ℕ) : ℕ := 2 ^ wordbits - 2 ^ (wordbits - i)

def teq : List ℤ := [
  0,-1,3,-3,6,-5,7,-7,12,-9,11,-11,14,-13,15,-15,24,-17,19,-19,22,-21,23,-23,
  28,-25,27,-27,30,-29,31,-31,48,-33,35,-35,38,-37,39,-39,44,-41,43,-43,46,
  -45,47,-47,56,-49,51,-51,54,-53,55,-55,60,-57,59,-59,62,-61,63,64,-64]

def tneq : List ℤ := [
  0,0,1,-2,2,-4,5,-6,4,-8,9,-10,10,-12,13,-14,8,-16,17,-18,18,-20,21,-22,20,
  -24,25,-26,26,-28,29,-30,16,-32,33,-34,34,-36,37,-38,36,-40,41,-42,42,-44,
  45,-46,40,-48,49,-50,50,-52,53,-54,52,-56,57,-58,58,-60,61,-62,-63]

/-- The loop of `mask` from index `i`, for the test of one entry of `Tmasks`. -/
def searchMask (test : ℕ → Bool) : ℕ → ℤ → ℤ
  | 0,i => i
  | fuel + 1,i =>
    if 0 < i then searchMask test fuel (if test i.toNat then teq.getD i.toNat 0 else tneq.getD i.toNat 0) else i

def mask (a b : ℕ) : ℕ :=
  let nxor := 2 ^ wordbits - 1 - (a ^^^ b)
  tmasks (-searchMask (fun i => decide (nxor ≥ tmasks i)) 8 (wordbits / 2)).toNat

/-- The mask that keeps the bits from `k` on. -/
def keepFrom (k : ℕ) : ℕ := 2 ^ wordbits - 2 ^ k

theorem searchMask_congr {f g : ℕ → Bool} (h : ∀ i ≤ 64, f i = g i) (fuel : ℕ) {i : ℤ} (hi : i ≤ 64) :
    searchMask f fuel i = searchMask g fuel i := by
  have hteq : ∀ k : Fin 65, teq.getD k 0 ≤ 64 := by decide
  have htneq : ∀ k : Fin 65, tneq.getD k 0 ≤ 64 := by decide
  induction fuel generalizing i with
  | zero => rfl
  | succ fuel ih =>
    unfold searchMask
    by_cases hpos : 0 < i
    · have hk : i.toNat < 65 := by omega
      rw [if_pos hpos,if_pos hpos,h i.toNat (by omega)]
      apply ih
      split
      · exact hteq ⟨i.toNat,hk⟩
      · exact htneq ⟨i.toNat,hk⟩
    · rw [if_neg hpos,if_neg hpos]

theorem searchMask_threshold {n : ℕ} (hn : n ≤ 64) : searchMask (fun i => decide (i ≤ n)) 8 32 = -n := by
  have hall : ∀ n : Fin 65, searchMask (fun i => decide (i ≤ (n : ℕ))) 8 32 = -((n : ℕ) : ℤ) := by decide
  exact hall ⟨n,by omega⟩

def agreeLevel (a b : ℕ) : ℕ := Nat.find (p := fun k => a / 2 ^ k = b / 2 ^ k) ⟨a + b,by
  have h : ∀ x y : ℕ, x / 2 ^ (x + y) = 0 := by
    intro x y
    apply Nat.div_eq_of_lt
    calc x < 2 ^ x := Nat.lt_two_pow_self
      _ ≤ 2 ^ (x + y) := Nat.pow_le_pow_right (by decide) (Nat.le_add_right x y)
  have hb := h b a
  rw [Nat.add_comm] at hb
  rw [h a b,hb]⟩

theorem agreeLevel_le_iff {a b k : ℕ} : agreeLevel a b ≤ k ↔ a / 2 ^ k = b / 2 ^ k := by
  constructor
  · intro h
    exact div_pow_mono h (Nat.find_spec (p := fun k => a / 2 ^ k = b / 2 ^ k) _)
  · intro h
    exact Nat.find_min' _ h

theorem agreeLevel_le_wordbits {a b : ℕ} (ha : a < 2 ^ wordbits) (hb : b < 2 ^ wordbits) :
    agreeLevel a b ≤ wordbits := by
  apply (agreeLevel_le_iff).2
  rw [Nat.div_eq_of_lt ha,Nat.div_eq_of_lt hb]

theorem mask_eq {a b : ℕ} (ha : a < 2 ^ wordbits) (hb : b < 2 ^ wordbits) : mask a b = keepFrom (agreeLevel a b) := by
  have hle : agreeLevel a b ≤ 64 := agreeLevel_le_wordbits ha hb
  have hxor : a ^^^ b < 2 ^ 64 := Nat.xor_lt_two_pow ha hb
  have htest : ∀ i ≤ 64, decide (2 ^ wordbits - 1 - (a ^^^ b) ≥ tmasks i) = decide (i ≤ 64 - agreeLevel a b) := by
    intro i hi
    congr 1
    apply propext
    have hpow : 2 ^ (64 - i) ≤ 2 ^ 64 := Nat.pow_le_pow_right (by decide) (Nat.sub_le 64 i)
    have hpos : 0 < 2 ^ (64 - i) := Nat.two_pow_pos _
    have hlevel : agreeLevel a b ≤ 64 - i ↔ a ^^^ b < 2 ^ (64 - i) := by
      rw [agreeLevel_le_iff,div_pow_eq_iff_xor_lt]
    have hiff : i ≤ 64 - agreeLevel a b ↔ agreeLevel a b ≤ 64 - i := by omega
    rw [hiff,hlevel]
    simp only [tmasks,wordbits] at hpow hpos hxor ⊢
    omega
  have hsearch := searchMask_congr htest 8 (show (32 : ℤ) ≤ 64 by decide)
  rw [searchMask_threshold (by omega)] at hsearch
  have hmask : mask a b =
      tmasks (-searchMask (fun i => decide (2 ^ wordbits - 1 - (a ^^^ b) ≥ tmasks i)) 8 32).toNat := rfl
  rw [hmask,hsearch,neg_neg,Int.toNat_natCast,tmasks,keepFrom]
  congr 2
  simp only [wordbits]
  omega

theorem testBit_keepFrom {k : ℕ} (hk : k ≤ wordbits) (i : ℕ) :
    (keepFrom k).testBit i = (decide (k ≤ i) && decide (i < wordbits)) := by
  have heq : keepFrom k = 2 ^ k * (2 ^ (wordbits - k) - 1) := by
    rw [keepFrom,Nat.mul_sub,Nat.mul_one,← Nat.pow_add,Nat.add_sub_cancel' hk]
  rw [heq,Nat.testBit_two_pow_mul,Nat.testBit_two_pow_sub_one]
  by_cases h : k ≤ i
  · have hiff : (i - k < wordbits - k) ↔ i < wordbits := by omega
    simp only [h,decide_true,Bool.true_and,hiff]
  · simp [h]

theorem and_keepFrom {a k : ℕ} (ha : a < 2 ^ wordbits) (hk : k ≤ wordbits) : a &&& keepFrom k = 2 ^ k * (a / 2 ^ k) := by
  apply Nat.eq_of_testBit_eq
  intro i
  rw [Nat.testBit_and,testBit_keepFrom hk,Nat.testBit_two_pow_mul,Nat.testBit_div_two_pow]
  by_cases h : k ≤ i
  · by_cases hi : i < wordbits
    · have hsum : i - k + k = i := by omega
      simp only [h,hi,decide_true,Bool.and_true,Bool.true_and,hsum]
    · have hzero : a.testBit i = false := by
        apply Nat.testBit_eq_false_of_lt
        exact lt_of_lt_of_le ha (Nat.pow_le_pow_right (by decide) (Nat.le_of_not_lt hi))
      have hsum : i - k + k = i := by omega
      simp [hzero,hsum]
  · simp [h]

/-- `Tmasks`, as the source lists it. -/
def tmasksTable : List (BitVec 64) := [
  0x0,0x8000000000000000,0xc000000000000000,0xe000000000000000,0xf000000000000000,0xf800000000000000,0xfc00000000000000,
  0xfe00000000000000,0xff00000000000000,0xff80000000000000,0xffc0000000000000,0xffe0000000000000,0xfff0000000000000,
  0xfff8000000000000,0xfffc000000000000,0xfffe000000000000,0xffff000000000000,0xffff800000000000,0xffffc00000000000,
  0xffffe00000000000,0xfffff00000000000,0xfffff80000000000,0xfffffc0000000000,0xfffffe0000000000,0xffffff0000000000,
  0xffffff8000000000,0xffffffc000000000,0xffffffe000000000,0xfffffff000000000,0xfffffff800000000,0xfffffffc00000000,
  0xfffffffe00000000,0xffffffff00000000,0xffffffff80000000,0xffffffffc0000000,0xffffffffe0000000,0xfffffffff0000000,
  0xfffffffff8000000,0xfffffffffc000000,0xfffffffffe000000,0xffffffffff000000,0xffffffffff800000,0xffffffffffc00000,
  0xffffffffffe00000,0xfffffffffff00000,0xfffffffffff80000,0xfffffffffffc0000,0xfffffffffffe0000,0xffffffffffff0000,
  0xffffffffffff8000,0xffffffffffffc000,0xffffffffffffe000,0xfffffffffffff000,0xfffffffffffff800,0xfffffffffffffc00,
  0xfffffffffffffe00,0xffffffffffffff00,0xffffffffffffff80,0xffffffffffffffc0,0xffffffffffffffe0,0xfffffffffffffff0,
  0xfffffffffffffff8,0xfffffffffffffffc,0xfffffffffffffffe,0xffffffffffffffff]

/-- The loop of `mask` from index `i`, which goes on while the index is positive; `none` where it has not stopped. -/
def maskLoop (test : ℕ → Bool) : ℕ → ℤ → Option ℤ
  | 0,_ => none
  | fuel + 1,i =>
    if 0 < i then maskLoop test fuel (if test i.toNat then teq.getD i.toNat 0 else tneq.getD i.toNat 0) else some i

/-- The index at which the search of `mask` stops. -/
def maskIndex (a b : BitVec 64) (fuel : ℕ) : Option ℤ :=
  maskLoop (fun i => decide (~~~(a ^^^ b) ≥ tmasksTable.getD i 0)) fuel 32

def maskWord (a b : BitVec 64) (fuel : ℕ) : Option (BitVec 64) :=
  (maskIndex a b fuel).map fun i => tmasksTable.getD (-i).toNat 0

def sharedBits (a b : BitVec 64) : ℕ := Nat.findGreatest (fun n => ∀ j < n, a.getMsbD j = b.getMsbD j) 64

theorem toNat_tmasksTable {i : ℕ} (hi : i ≤ 64) : (tmasksTable.getD i 0).toNat = tmasks i := by
  have hall : ∀ i : Fin 65, (tmasksTable.getD i 0).toNat = tmasks i := by decide
  exact hall ⟨i,by omega⟩

theorem maskLoop_succ (test : ℕ → Bool) (fuel : ℕ) (i : ℤ) : maskLoop test (fuel + 1) i =
    if 0 < searchMask test fuel i then none else some (searchMask test fuel i) := by
  induction fuel generalizing i with
  | zero => rfl
  | succ fuel ih =>
    rw [maskLoop,searchMask]
    split
    · exact ih _
    · rfl

theorem maskLoop_mono {test : ℕ → Bool} {fuel fuel' : ℕ} (hle : fuel ≤ fuel') {i j : ℤ}
    (h : maskLoop test fuel i = some j) : maskLoop test fuel' i = some j := by
  induction fuel generalizing fuel' i with
  | zero => simp [maskLoop] at h
  | succ fuel ih =>
    cases fuel' with
    | zero => omega
    | succ fuel' =>
      rw [maskLoop] at h ⊢
      split at h
      · next hpos =>
        rw [if_pos hpos]
        exact ih (by omega) h
      · next hpos =>
        rw [if_neg hpos]
        exact h

theorem sharedBits_le (a b : BitVec 64) : sharedBits a b ≤ 64 := Nat.findGreatest_le _

theorem getMsbD_eq_of_lt_sharedBits {a b : BitVec 64} {j : ℕ} (hj : j < sharedBits a b) :
    a.getMsbD j = b.getMsbD j :=
  Nat.findGreatest_spec (P := fun n => ∀ j < n, a.getMsbD j = b.getMsbD j) (Nat.zero_le _)
    (fun j hj => absurd hj (Nat.not_lt_zero j)) j hj

theorem le_sharedBits_iff {a b : BitVec 64} {i : ℕ} (hi : i ≤ 64) :
    i ≤ sharedBits a b ↔ a.toNat / 2 ^ (64 - i) = b.toNat / 2 ^ (64 - i) := by
  have hbits : (∀ j < i, a.getMsbD j = b.getMsbD j) ↔ a.toNat / 2 ^ (64 - i) = b.toNat / 2 ^ (64 - i) := by
    constructor
    · intro h
      apply Nat.eq_of_testBit_eq
      intro k
      rw [Nat.testBit_div_two_pow,Nat.testBit_div_two_pow]
      by_cases hk : k < i
      · have hj := h (i - 1 - k) (by omega)
        simp only [BitVec.getMsbD,BitVec.getLsbD] at hj
        have hpos : i - 1 - k < 64 := by omega
        have hsum : 64 - 1 - (i - 1 - k) = k + (64 - i) := by omega
        simpa only [hpos,hsum,decide_true,Bool.true_and] using hj
      · rw [Nat.testBit_eq_false_of_lt,Nat.testBit_eq_false_of_lt]
        · exact lt_of_lt_of_le b.isLt (Nat.pow_le_pow_right (by decide) (by omega))
        · exact lt_of_lt_of_le a.isLt (Nat.pow_le_pow_right (by decide) (by omega))
    · intro h j hj
      have hbit := congrArg (fun n => n.testBit (i - 1 - j)) h
      simp only [Nat.testBit_div_two_pow] at hbit
      have hpos : j < 64 := by omega
      have hsum : i - 1 - j + (64 - i) = 64 - 1 - j := by omega
      simpa only [BitVec.getMsbD,BitVec.getLsbD,hpos,hsum,decide_true,Bool.true_and] using hbit
  rw [← hbits]
  constructor
  · intro h j hj
    exact getMsbD_eq_of_lt_sharedBits (lt_of_lt_of_le hj h)
  · intro h
    exact Nat.le_findGreatest hi h

theorem test_iff (a b : BitVec 64) {i : ℕ} (hi : i ≤ 64) :
    ~~~(a ^^^ b) ≥ tmasksTable.getD i 0 ↔ i ≤ sharedBits a b := by
  have hxor : a.toNat ^^^ b.toNat < 2 ^ 64 := Nat.xor_lt_two_pow a.isLt b.isLt
  have hpow : 2 ^ (64 - i) ≤ 2 ^ 64 := Nat.pow_le_pow_right (by decide) (Nat.sub_le 64 i)
  have hpos : 0 < 2 ^ (64 - i) := Nat.two_pow_pos _
  rw [le_sharedBits_iff hi,div_pow_eq_iff_xor_lt,ge_iff_le,BitVec.le_def,toNat_tmasksTable hi,BitVec.toNat_not,
    BitVec.toNat_xor]
  simp only [tmasks,wordbits]
  omega

/-- The search stops, and the mask it finds is the longest one under which the words agree. -/
theorem mask_longest (a b : BitVec 64) :
    (∃ i : ℤ, -64 ≤ i ∧ i ≤ 0 ∧ (-i).toNat = sharedBits a b ∧ ∀ fuel ≥ 9, maskIndex a b fuel = some i ∧
      maskWord a b fuel = some (tmasksTable.getD (sharedBits a b) 0)) ∧
    a &&& tmasksTable.getD (sharedBits a b) 0 = b &&& tmasksTable.getD (sharedBits a b) 0 ∧
    ∀ j ≤ 64, a &&& tmasksTable.getD j 0 = b &&& tmasksTable.getD j 0 →
      tmasksTable.getD j 0 ≤ tmasksTable.getD (sharedBits a b) 0 := by
  have hn := sharedBits_le a b
  have hstop : maskIndex a b 9 = some (-(sharedBits a b : ℤ)) := by
    have htest : ∀ i ≤ 64, decide (~~~(a ^^^ b) ≥ tmasksTable.getD i 0) = decide (i ≤ sharedBits a b) :=
      fun i hi => decide_eq_decide.mpr (test_iff a b hi)
    rw [maskIndex,maskLoop_succ,searchMask_congr htest 8 (by decide),searchMask_threshold hn,if_neg (by omega)]
  have hagree : ∀ j ≤ 64, a &&& tmasksTable.getD j 0 = b &&& tmasksTable.getD j 0 ↔ j ≤ sharedBits a b := by
    intro j hj
    have hkeep : (tmasksTable.getD j 0).toNat = keepFrom (64 - j) := toNat_tmasksTable hj
    have hpos : 0 < 2 ^ (64 - j) := Nat.two_pow_pos _
    have hle : 64 - j ≤ wordbits := Nat.sub_le 64 j
    rw [le_sharedBits_iff hj,← BitVec.toNat_inj,BitVec.toNat_and,BitVec.toNat_and,hkeep,and_keepFrom a.isLt hle,
      and_keepFrom b.isLt hle,Nat.mul_right_inj hpos.ne']
  refine ⟨⟨-(sharedBits a b : ℤ),by omega,by omega,by simp,fun fuel hf => ?_⟩,(hagree _ hn).2 le_rfl,?_⟩
  · have hindex := maskLoop_mono hf hstop
    exact ⟨hindex,by rw [maskWord,maskIndex,hindex,Option.map_some,neg_neg,Int.toNat_natCast]⟩
  · intro j hj h
    have hpow : 2 ^ (64 - sharedBits a b) ≤ 2 ^ (64 - j) :=
      Nat.pow_le_pow_right (by decide) (Nat.sub_le_sub_left ((hagree j hj).1 h) 64)
    rw [BitVec.le_def,toNat_tmasksTable hj,toNat_tmasksTable hn]
    exact Nat.sub_le_sub_left hpow _

end FramaC.EAcsl.Bittree
