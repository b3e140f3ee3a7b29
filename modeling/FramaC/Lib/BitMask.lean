import Mathlib.Data.BitVec
import Mathlib.Data.Nat.Bitwise

/-! # Masks of bit vectors

A power of two selects one bit. The bits above it are those that remain when all the others are
set to zero. The highest bit in which two vectors differ is found by smearing their difference to
the right.
-/
namespace FramaC.BitMask
variable {w : ℕ}

theorem and_twoPow_eq_zero_iff (x : BitVec w) {k : ℕ} (hk : k < w) :
    x &&& BitVec.twoPow w k = 0#w ↔ x.getLsbD k = false := by
  rw [BitVec.and_twoPow]
  cases h : x.getLsbD k with
  | false => simp
  | true =>
    refine ⟨fun hzero => ?_,fun hfalse => absurd hfalse (by simp)⟩
    have hbit := congrArg (fun y => y.getLsbD k) hzero
    simp [hk] at hbit

theorem two_mul_twoPow_sub_one {i : ℕ} (hi : i < w) :
    2#w * BitVec.twoPow w i - 1#w = BitVec.ofNat w (2 ^ (i + 1) - 1) := by
  have htwo : BitVec.twoPow w i = BitVec.ofNat w (2 ^ i) := by
    apply BitVec.eq_of_toNat_eq
    rw [BitVec.toNat_twoPow,BitVec.toNat_ofNat]
  have hone : 1 < 2 ^ w := Nat.one_lt_two_pow (by omega)
  rw [htwo,BitVec.ofNat_mul_ofNat,← pow_succ',BitVec.ofNat_sub_ofNat_of_le _ _ hone Nat.one_le_two_pow]

theorem getLsbD_and_not {x : BitVec w} {i : ℕ} (hi : i < w) (j : ℕ) :
    (x &&& ~~~(2#w * BitVec.twoPow w i - 1#w)).getLsbD j = (decide (i < j) && x.getLsbD j) := by
  rw [two_mul_twoPow_sub_one hi]
  simp only [BitVec.getLsbD_and,BitVec.getLsbD_not,BitVec.getLsbD_ofNat,Nat.testBit_two_pow_sub_one]
  by_cases hj : j < w
  · by_cases hij : i < j
    · have hle : ¬ j < i + 1 := by omega
      simp [hj,hij,hle]
    · have hle : j < i + 1 := by omega
      simp [hj,hij,hle]
  · simp [BitVec.getLsbD_of_ge x j (by omega)]

theorem getLsbD_smear_double {u v : BitVec w} {n : ℕ}
    (h : ∀ j, v.getLsbD j = true ↔ ∃ d, d < n ∧ u.getLsbD (j + d) = true) (j : ℕ) :
    (v ||| v >>> n).getLsbD j = true ↔ ∃ d, d < 2 * n ∧ u.getLsbD (j + d) = true := by
  rw [BitVec.getLsbD_or,BitVec.getLsbD_ushiftRight,Bool.or_eq_true,h,h]
  constructor
  · rintro (⟨d,hd,hb⟩ | ⟨d,hd,hb⟩)
    · exact ⟨d,by omega,hb⟩
    · refine ⟨n + d,by omega,?_⟩
      rw [← hb]
      congr 1
      omega
  · rintro ⟨d,hd,hb⟩
    by_cases hdn : d < n
    · exact Or.inl ⟨d,hdn,hb⟩
    · refine Or.inr ⟨d - n,by omega,?_⟩
      rw [← hb]
      congr 1
      omega

theorem exists_high_bit {v : BitVec w} (h : v ≠ 0#w) :
    ∃ i, i < w ∧ v.getLsbD i = true ∧ ∀ j, i < j → v.getLsbD j = false := by
  have hex : ∃ i, v.getLsbD i = true := by
    by_contra hno
    push Not at hno
    apply h
    apply BitVec.eq_of_getLsbD_eq
    intro i hi
    simp [hno i]
  obtain ⟨k,hk⟩ := hex
  have hb : ∀ j, v.getLsbD j = true → j ≤ w := by
    intro j hj
    exact le_of_lt (BitVec.lt_of_getLsbD hj)
  refine ⟨Nat.findGreatest (fun j => v.getLsbD j = true) w,?_,?_,?_⟩
  · exact BitVec.lt_of_getLsbD (Nat.findGreatest_spec (P := fun j => v.getLsbD j = true) (hb k hk) hk)
  · exact Nat.findGreatest_spec (P := fun j => v.getLsbD j = true) (hb k hk) hk
  · intro j hj
    cases hv : v.getLsbD j with
    | false => rfl
    | true => exact absurd hv (Nat.findGreatest_is_greatest hj (hb j hv))

theorem succ_ushiftRight_one {v : BitVec w} {i : ℕ} (hi : i + 1 < w)
    (h : ∀ j, v.getLsbD j = true ↔ j ≤ i) : (v + 1#w) >>> 1 = BitVec.twoPow w i := by
  have hpow : 2 ^ (i + 1) < 2 ^ w := Nat.pow_lt_pow_right (by omega) hi
  have hv : v = BitVec.ofNat w (2 ^ (i + 1) - 1) := by
    apply BitVec.eq_of_getLsbD_eq
    intro j hj
    rw [BitVec.getLsbD_ofNat,Nat.testBit_two_pow_sub_one,Bool.eq_iff_iff,h]
    simp [hj,Nat.lt_succ_iff]
  have hone : 1 ≤ 2 ^ (i + 1) := Nat.one_le_two_pow
  apply BitVec.eq_of_toNat_eq
  have hnat : (v + 1#w).toNat = 2 ^ (i + 1) := by
    rw [hv,← BitVec.ofNat_add,Nat.sub_add_cancel hone,BitVec.toNat_ofNat,Nat.mod_eq_of_lt hpow]
  rw [BitVec.toNat_ushiftRight,hnat,BitVec.toNat_twoPow_of_lt (by omega),Nat.shiftRight_one,pow_succ]
  omega

end FramaC.BitMask

/-! ## Common prefixes of numbers

Two numbers have the same bits from `k` on when their quotients by `2 ^ k` are equal.
-/
namespace FramaC.CommonPrefix

theorem div_succ (a d : ℕ) : a / 2 ^ (d + 1) = a / 2 ^ d / 2 := by
  rw [Nat.pow_succ,Nat.div_div_eq_div_mul]

theorem div_pow_eq_iff_xor_lt (a b k : ℕ) : a / 2 ^ k = b / 2 ^ k ↔ a ^^^ b < 2 ^ k := by
  rw [← Nat.div_eq_zero_iff_lt (Nat.two_pow_pos k),← Nat.shiftRight_eq_div_pow,← Nat.shiftRight_eq_div_pow,
    ← Nat.shiftRight_eq_div_pow,Nat.shiftRight_xor_distrib,Nat.xor_eq_zero_iff]

theorem div_pow_mono {a b k j : ℕ} (hkj : k ≤ j) (h : a / 2 ^ k = b / 2 ^ k) : a / 2 ^ j = b / 2 ^ j := by
  obtain ⟨d,rfl⟩ := Nat.exists_eq_add_of_le hkj
  rw [Nat.pow_add,← Nat.div_div_eq_div_mul,← Nat.div_div_eq_div_mul,h]

theorem lt_of_div_lt {a b k : ℕ} (h : a / 2 ^ k < b / 2 ^ k) : a < b := by
  by_contra hle
  exact absurd (Nat.div_le_div_right (Nat.le_of_not_lt hle)) (Nat.not_le_of_lt h)

end FramaC.CommonPrefix
