import Mathlib

/-! # Two's complement bits of integers

Masks of the form `2 ^ k - 1` and `-2 ^ k` select the remainder and the quotient by a power
of two. Every fact is by induction on the number of bits, one bit of the operand at a time.
-/
namespace FramaC.Bits

theorem exists_bit (x : ℤ) : ∃ b n, x = Int.bit b n := ⟨_,_,(Int.bit_decomp x).symm⟩

theorem two_pow_succ_sub_one (k : ℕ) : (2 : ℤ) ^ (k + 1) - 1 = Int.bit true (2 ^ k - 1) := by
  rw [Int.bit_val,pow_succ]
  simp only [cond_true]
  ring

theorem neg_two_pow_succ (k : ℕ) : -(2 : ℤ) ^ (k + 1) = Int.bit false (-2 ^ k) := by
  rw [Int.bit_val,pow_succ]
  simp only [cond_false]
  ring

theorem two_pow_succ (k : ℕ) : (2 : ℤ) ^ (k + 1) = Int.bit false (2 ^ k) := by
  rw [Int.bit_val,pow_succ]
  simp only [cond_false]
  ring

theorem bit_emod (b : Bool) (n : ℤ) (k : ℕ) : Int.bit b n % 2 ^ (k + 1) = Int.bit b (n % 2 ^ k) := by
  have hk : (0 : ℤ) < 2 ^ k := by positivity
  have h0 := Int.emod_nonneg n hk.ne'
  have h1 := Int.emod_lt_of_pos n hk
  have hd := Int.mul_ediv_add_emod n (2 ^ k)
  have hb : 0 ≤ (cond b 1 0 : ℤ) ∧ (cond b 1 0 : ℤ) ≤ 1 := by cases b <;> simp
  rw [Int.bit_val,Int.bit_val]
  have he : 2 * n + cond b 1 0 = 2 * (n % 2 ^ k) + cond b 1 0 + 2 ^ (k + 1) * (n / 2 ^ k) := by
    rw [pow_succ]
    linarith
  rw [he,Int.add_mul_emod_self_left]
  apply Int.emod_eq_of_lt
  · omega
  · rw [pow_succ]
    omega

theorem land_zero_right (x : ℤ) : Int.land x 0 = 0 := by
  cases x with
  | ofNat n => simp [Int.land]
  | negSucc n =>
    simp only [Int.land]
    simp [Nat.ldiff]

theorem land_neg_one (x : ℤ) : Int.land x (-1) = x := by
  cases x with
  | ofNat n =>
    change ((Nat.ldiff n 0 : ℕ) : ℤ) = n
    congr 1
    apply Nat.eq_of_testBit_eq
    simp [Nat.testBit_ldiff]
  | negSucc n =>
    change Int.negSucc (n ||| 0) = Int.negSucc n
    rw [Nat.or_zero]

theorem lor_neg_one (x : ℤ) : Int.lor (-1) x = -1 := by
  cases x with
  | ofNat n =>
    change Int.negSucc (Nat.ldiff 0 n) = Int.negSucc 0
    congr 1
    apply Nat.eq_of_testBit_eq
    simp [Nat.testBit_ldiff]
  | negSucc n =>
    change Int.negSucc (0 &&& n) = Int.negSucc 0
    rw [Nat.zero_and]

theorem land_two_pow_sub_one (x : ℤ) (k : ℕ) : Int.land x (2 ^ k - 1) = x % 2 ^ k := by
  induction k generalizing x with
  | zero =>
    rw [pow_zero,sub_self,land_zero_right,Int.emod_one]
  | succ k ih =>
    obtain ⟨b,n,rfl⟩ := exists_bit x
    rw [two_pow_succ_sub_one,Int.land_bit,ih,bit_emod,Bool.and_true]

theorem land_neg_two_pow (x : ℤ) (k : ℕ) : Int.land x (-2 ^ k) = x - x % 2 ^ k := by
  induction k generalizing x with
  | zero =>
    rw [pow_zero,land_neg_one,Int.emod_one,sub_zero]
  | succ k ih =>
    obtain ⟨b,n,rfl⟩ := exists_bit x
    rw [neg_two_pow_succ,Int.land_bit,ih,bit_emod,Bool.and_false]
    simp only [Int.bit_val,cond_false]
    ring

theorem lor_neg_two_pow (x : ℤ) (k : ℕ) : Int.lor (-2 ^ k) x = x % 2 ^ k - 2 ^ k := by
  induction k generalizing x with
  | zero =>
    rw [pow_zero,lor_neg_one,Int.emod_one]
    rfl
  | succ k ih =>
    obtain ⟨b,n,rfl⟩ := exists_bit x
    rw [neg_two_pow_succ,Int.lor_bit,ih,bit_emod,Bool.false_or,pow_succ]
    simp only [Int.bit_val]
    ring

theorem lnot_eq (x : ℤ) : Int.lnot x = -x - 1 := by
  cases x with
  | ofNat n =>
    change Int.negSucc n = _
    rw [Int.negSucc_eq,Int.ofNat_eq_natCast]
    ring
  | negSucc n =>
    change (n : ℤ) = _
    rw [Int.negSucc_eq]
    ring

theorem land_two_pow_left (x : ℤ) (k : ℕ) : Int.land (2 ^ k) x = if x.testBit k then 2 ^ k else 0 := by
  induction k generalizing x with
  | zero =>
    obtain ⟨b,n,rfl⟩ := exists_bit x
    have h1 : (2 : ℤ) ^ 0 = Int.bit true 0 := rfl
    have hz : Int.land 0 n = 0 := by
      cases n with
      | ofNat n => simp [Int.land]
      | negSucc n => simp [Int.land,Nat.ldiff]
    rw [h1,Int.land_bit,hz,Int.testBit_bit_zero]
    cases b <;> rfl
  | succ k ih =>
    obtain ⟨b,n,rfl⟩ := exists_bit x
    rw [two_pow_succ,Int.land_bit,ih,Int.testBit_bit_succ,Bool.false_and]
    split
    · rfl
    · rfl

theorem emod_two_pow_succ (x : ℤ) (k : ℕ) :
    x % 2 ^ (k + 1) = x % 2 ^ k + if x.testBit k then 2 ^ k else 0 := by
  induction k generalizing x with
  | zero =>
    obtain ⟨b,n,rfl⟩ := exists_bit x
    rw [bit_emod,Int.testBit_bit_zero,pow_zero,Int.emod_one,Int.emod_one]
    cases b <;> rfl
  | succ k ih =>
    obtain ⟨b,n,rfl⟩ := exists_bit x
    rw [bit_emod,ih,bit_emod,Int.testBit_bit_succ]
    simp only [Int.bit_val]
    split
    · rw [pow_succ]
      ring
    · ring

theorem lor_two_pow (k : ℕ) {r : ℤ} (h0 : 0 ≤ r) (hr : r < 2 ^ k) : Int.lor (2 ^ k) r = 2 ^ k + r := by
  induction k generalizing r with
  | zero =>
    have hz : r = 0 := by rw [pow_zero] at hr; omega
    subst hz
    rfl
  | succ k ih =>
    obtain ⟨b,n,rfl⟩ := exists_bit r
    have hb : 0 ≤ (cond b 1 0 : ℤ) ∧ (cond b 1 0 : ℤ) ≤ 1 := by cases b <;> simp
    rw [Int.bit_val] at h0 hr
    rw [pow_succ] at hr
    rw [two_pow_succ,Int.lor_bit,ih (by omega) (by omega),Bool.false_or]
    simp only [Int.bit_val,cond_false]
    ring

end FramaC.Bits

/-! ## Numbers by their bits

The bit `k` of a number is the parity of its quotient by `2 ^ k`; from some bit on all are the sign. -/
namespace FramaC.Bits

@[simp] theorem zero_testBit (k : ℕ) : (0 : ℤ).testBit k = false := Nat.zero_testBit k

@[simp] theorem neg_one_testBit (k : ℕ) : (-1 : ℤ).testBit k = true := congrArg not (Nat.zero_testBit k)

theorem ediv_two_pow (x : ℤ) (k : ℕ) : x / 2 ^ k = 2 * (x / 2 ^ (k + 1)) + if x.testBit k then 1 else 0 := by
  have hk : (0 : ℤ) < 2 ^ k := by positivity
  have h1 := Int.mul_ediv_add_emod x (2 ^ k)
  have h2 := Int.mul_ediv_add_emod x (2 ^ (k + 1))
  rw [emod_two_pow_succ] at h2
  apply mul_left_cancel₀ hk.ne'
  rw [pow_succ] at h2 ⊢
  cases hb : x.testBit k with
  | true =>
    simp only [hb,if_true] at h2 ⊢
    linarith
  | false =>
    simp only [hb,Bool.false_eq_true,if_false] at h2 ⊢
    linarith

theorem testBit_eq (x : ℤ) (k : ℕ) : x.testBit k = decide (x / 2 ^ k % 2 = 1) := by
  rw [ediv_two_pow]
  cases x.testBit k with
  | true => simp [Int.add_emod]
  | false => simp

theorem emod_two_pow_eq {x y : ℤ} {k : ℕ} (h : ∀ i < k, x.testBit i = y.testBit i) : x % 2 ^ k = y % 2 ^ k := by
  induction k with
  | zero => simp
  | succ k ih =>
    rw [emod_two_pow_succ,emod_two_pow_succ,ih fun i hi => h i (by omega),h k (by omega)]

theorem testBit_of_emod_eq {x y : ℤ} {k : ℕ} (h : x % 2 ^ k = y % 2 ^ k) {i : ℕ} (hi : i < k) :
    x.testBit i = y.testBit i := by
  have hdvd : (2 : ℤ) ^ (i + 1) ∣ 2 ^ k := pow_dvd_pow 2 hi
  have hsucc : x % 2 ^ (i + 1) = y % 2 ^ (i + 1) := by
    rw [← Int.emod_emod_of_dvd x hdvd,h,Int.emod_emod_of_dvd y hdvd]
  have hlow : x % 2 ^ i = y % 2 ^ i := by
    rw [← Int.emod_emod_of_dvd x (pow_dvd_pow 2 (Nat.le_succ i)),hsucc,
      Int.emod_emod_of_dvd y (pow_dvd_pow 2 (Nat.le_succ i))]
  have hk : (0 : ℤ) < 2 ^ i := by positivity
  rw [emod_two_pow_succ,emod_two_pow_succ,hlow] at hsucc
  cases hx : x.testBit i with
  | true =>
    cases hy : y.testBit i with
    | true => rfl
    | false =>
      simp only [hx,hy,if_true,Bool.false_eq_true,if_false] at hsucc
      omega
  | false =>
    cases hy : y.testBit i with
    | true =>
      simp only [hx,hy,if_true,Bool.false_eq_true,if_false] at hsucc
      omega
    | false => rfl

/-- The numbers of `k` bits and a sign. -/
def Fits (k : ℕ) (x : ℤ) : Prop := -2 ^ k ≤ x ∧ x < 2 ^ k

theorem Fits.mono {k j : ℕ} {x : ℤ} (h : Fits k x) (hkj : k ≤ j) : Fits j x := by
  have hp : (2 : ℤ) ^ k ≤ 2 ^ j := pow_le_pow_right₀ (by omega) hkj
  unfold Fits at *
  omega

theorem Fits.ediv {k : ℕ} {x : ℤ} (h : Fits k x) : x / 2 ^ k = if x < 0 then -1 else 0 := by
  have hk : (0 : ℤ) < 2 ^ k := by positivity
  split
  · rw [Int.ediv_eq_iff_of_pos hk]
    unfold Fits at h
    omega
  · exact Int.ediv_eq_zero_of_lt (by omega) h.2

theorem Fits.testBit {k : ℕ} {x : ℤ} (h : Fits k x) {i : ℕ} (hi : k ≤ i) : x.testBit i = decide (x < 0) := by
  rw [testBit_eq,(h.mono hi).ediv]
  split
  · rename_i hx
    simp [hx]
  · rename_i hx
    simp [hx]

theorem testBit_emod_two_pow (z : ℤ) (j k : ℕ) : (z % 2 ^ j).testBit k = (decide (k < j) && z.testBit k) := by
  by_cases hk : k < j
  · have hm : (z % 2 ^ j) % 2 ^ j = z % 2 ^ j := Int.emod_emod_of_dvd z dvd_rfl
    rw [testBit_of_emod_eq hm hk]
    simp [hk]
  · have hj : (0 : ℤ) < 2 ^ j := by positivity
    have h0 := Int.emod_nonneg z hj.ne'
    have hf : Fits j (z % 2 ^ j) := ⟨by omega,Int.emod_lt_of_pos z hj⟩
    rw [hf.testBit (by omega)]
    simp [hk,h0]

theorem exists_fits (x : ℤ) : Fits x.natAbs x := by
  have h : x.natAbs < 2 ^ x.natAbs := Nat.lt_two_pow_self
  have h' : (x.natAbs : ℤ) < 2 ^ x.natAbs := by exact_mod_cast h
  unfold Fits
  omega

theorem fits_of_testBit {k : ℕ} {x : ℤ} (h : ∀ i, k ≤ i → x.testBit i = decide (x < 0)) : Fits k x := by
  have hmax : Fits (max k x.natAbs) x := (exists_fits x).mono (le_max_right _ _)
  have hdown : ∀ d, ∀ j, j = k + d → Fits j x → Fits k x := by
    intro d
    induction d with
    | zero =>
      rintro j rfl hf
      exact hf
    | succ d ih =>
      rintro j rfl hf
      refine ih (k + d) rfl ?_
      have hq := ediv_two_pow x (k + d)
      rw [h (k + d) (by omega),add_assoc,hf.ediv] at hq
      have hk : (0 : ℤ) < 2 ^ (k + d) := by positivity
      have hdm := Int.mul_ediv_add_emod x (2 ^ (k + d))
      have h0 := Int.emod_nonneg x hk.ne'
      have h1 := Int.emod_lt_of_pos x hk
      unfold Fits
      by_cases hx : x < 0
      · simp only [hx,if_true,decide_true] at hq
        rw [hq] at hdm
        omega
      · simp only [hx,if_false,decide_false,Bool.false_eq_true] at hq
        rw [hq] at hdm
        omega
  exact hdown (max k x.natAbs - k) _ (by omega) hmax

theorem eq_of_testBit {x y : ℤ} (h : ∀ i, x.testBit i = y.testBit i) : x = y := by
  have hx := (exists_fits x).mono (le_max_left x.natAbs y.natAbs)
  have hy := (exists_fits y).mono (le_max_right x.natAbs y.natAbs)
  have hm := emod_two_pow_eq (k := max x.natAbs y.natAbs + 1) fun i _ => h i
  have hdvd := Int.ModEq.dvd hm
  have hk : (2 : ℤ) ^ (max x.natAbs y.natAbs + 1) = 2 * 2 ^ max x.natAbs y.natAbs := by rw [pow_succ]; ring
  have habs : |y - x| < 2 ^ (max x.natAbs y.natAbs + 1) := by
    unfold Fits at hx hy
    rw [hk,abs_lt]
    omega
  have := Int.eq_zero_of_abs_lt_dvd hdvd habs
  omega

theorem testBit_two_pow (i k : ℕ) : ((2 : ℤ) ^ i).testBit k = decide (i = k) := by
  have h : ((2 : ℤ) ^ i).testBit k = (2 ^ i : ℕ).testBit k := by
    rw [← Nat.cast_two,← Nat.cast_pow]
    rfl
  rw [h,Nat.testBit_two_pow]

theorem testBit_neg_two_pow (i k : ℕ) : (-(2 : ℤ) ^ i).testBit k = decide (i ≤ k) := by
  by_cases hik : i ≤ k
  · have hf : Fits i (-(2 : ℤ) ^ i) := by
      have : (0 : ℤ) < 2 ^ i := by positivity
      unfold Fits
      omega
    rw [hf.testBit hik]
    simp [hik]
  · have hz : (-(2 : ℤ) ^ i) % 2 ^ i = 0 % 2 ^ i := by simp
    rw [testBit_of_emod_eq hz (by omega)]
    simp [hik]

theorem land_comm (x y : ℤ) : Int.land x y = Int.land y x := by
  apply eq_of_testBit
  intro i
  rw [Int.testBit_land,Int.testBit_land,Bool.and_comm]

theorem lor_comm (x y : ℤ) : Int.lor x y = Int.lor y x := by
  apply eq_of_testBit
  intro i
  rw [Int.testBit_lor,Int.testBit_lor,Bool.or_comm]

theorem lor_two_pow_of_testBit {k : ℕ} {r : ℤ} (h : r.testBit k = false) : Int.lor (2 ^ k) r = 2 ^ k + r := by
  induction k generalizing r with
  | zero =>
    obtain ⟨b,n,rfl⟩ := exists_bit r
    rw [Int.testBit_bit_zero] at h
    subst h
    have h1 : (2 : ℤ) ^ 0 = Int.bit true 0 := rfl
    have hz : Int.lor 0 n = n := by
      apply eq_of_testBit
      intro i
      rw [Int.testBit_lor]
      simp
    rw [h1,Int.lor_bit,hz]
    simp only [Int.bit_val,Bool.or_false,cond_true,cond_false]
    ring
  | succ k ih =>
    obtain ⟨b,n,rfl⟩ := exists_bit r
    rw [Int.testBit_bit_succ] at h
    rw [two_pow_succ,Int.lor_bit,ih h,Bool.false_or]
    simp only [Int.bit_val,cond_false]
    ring

theorem lor_two_pow_sub_one (x : ℤ) (k : ℕ) : Int.lor x (2 ^ k - 1) = x - x % 2 ^ k + (2 ^ k - 1) := by
  induction k generalizing x with
  | zero =>
    have hz : Int.lor x 0 = x := by
      apply eq_of_testBit
      intro i
      rw [Int.testBit_lor]
      simp
    rw [pow_zero,sub_self,hz,Int.emod_one,sub_zero,add_zero]
  | succ k ih =>
    obtain ⟨b,n,rfl⟩ := exists_bit x
    rw [two_pow_succ_sub_one,Int.lor_bit,ih,bit_emod,Bool.or_true]
    simp only [Int.bit_val,cond_true]
    ring

theorem land_lnot_two_pow (x : ℤ) (k : ℕ) : Int.land x (Int.lnot (2 ^ k)) = x - if x.testBit k then 2 ^ k else 0 := by
  induction k generalizing x with
  | zero =>
    obtain ⟨b,n,rfl⟩ := exists_bit x
    have h1 : Int.lnot ((2 : ℤ) ^ 0) = Int.bit false (-1) := rfl
    rw [h1,Int.land_bit,land_neg_one,Int.testBit_bit_zero,Bool.and_false]
    cases b with
    | true => simp [Int.bit_val]
    | false => simp [Int.bit_val]
  | succ k ih =>
    obtain ⟨b,n,rfl⟩ := exists_bit x
    rw [two_pow_succ,Int.lnot_bit,Int.land_bit,ih,Int.testBit_bit_succ]
    simp only [Int.bit_val,Bool.not_false,Bool.and_true,cond_false]
    split
    · ring
    · ring

theorem sign_of_testBit {f : Bool → Bool → Bool} {x y z : ℤ} (h : ∀ i, z.testBit i = f (x.testBit i) (y.testBit i)) :
    decide (z < 0) = f (decide (x < 0)) (decide (y < 0)) := by
  have hx := (exists_fits x).testBit (i := x.natAbs + y.natAbs + z.natAbs) (by omega)
  have hy := (exists_fits y).testBit (i := x.natAbs + y.natAbs + z.natAbs) (by omega)
  have hz := (exists_fits z).testBit (i := x.natAbs + y.natAbs + z.natAbs) (by omega)
  rw [← hx,← hy,← hz]
  exact h _

theorem land_neg_iff (x y : ℤ) : Int.land x y < 0 ↔ x < 0 ∧ y < 0 := by
  have h := sign_of_testBit (f := and) (x := x) (y := y) fun i => Int.testBit_land x y i
  simpa using Bool.eq_iff_iff.mp h

theorem lor_neg_iff (x y : ℤ) : Int.lor x y < 0 ↔ x < 0 ∨ y < 0 := by
  have h := sign_of_testBit (f := or) (x := x) (y := y) fun i => Int.testBit_lor x y i
  simpa using Bool.eq_iff_iff.mp h

theorem xor_neg_iff (x y : ℤ) : Int.xor x y < 0 ↔ ¬ (x < 0 ↔ y < 0) := by
  have h := sign_of_testBit (f := xor) (x := x) (y := y) fun i => Int.testBit_lxor x y i
  simpa using Bool.eq_iff_iff.mp h

theorem lnot_neg_iff (x : ℤ) : Int.lnot x < 0 ↔ 0 ≤ x := by
  rw [lnot_eq]
  omega

end FramaC.Bits
