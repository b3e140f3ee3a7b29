import Mathlib

/-! # Arbitrary-precision integers of the kernel

`Integer.t` is `Z.t`, modelled by `ℤ`. Lean's `/` and `%` on `ℤ` are the Euclidean
operations of `Z.ediv` and `Z.erem`; `Int.tdiv` and `Int.tmod` are the truncated ones of
`Z.div` and `Z.rem`. Functions that may raise return in `Res`. Machine integers have 63 bits.
-/
namespace FramaC

/-- The exceptions that the modelled functions raise. `fatal` is `Kernel.fatal`. -/
inductive Exn
  | errorBottom
  | errorTop
  | fatal
  | assertFailure
  | overflow
  | invalidArgument
  | divisionByZero
  | notFound
  | exit
  | notLessThan
  | canNotSubdiv
  deriving DecidableEq, Repr

abbrev Res := Except Exn

/-- `assert b`. -/
def assertion (b : Bool) : Res Unit := if b then .ok () else .error .assertFailure

@[simp] theorem Res.ok_bind {α β : Type} (a : α) (f : α → Res β) : ((.ok a : Res α) >>= f) = f a := rfl
@[simp] theorem Res.error_bind {α β : Type} (e : Exn) (f : α → Res β) :
    ((.error e : Res α) >>= f) = .error e := rfl
@[simp] theorem assertion_true : assertion true = .ok () := rfl

namespace Integer

/-- `Z.to_int`: the value must fit in an OCaml `int`. -/
def toInt (n : ℤ) : Res ℤ := if -2 ^ 62 ≤ n ∧ n < 2 ^ 62 then .ok n else .error .overflow

/-- `Z.shift_left Z.one k`. -/
def twoPowerOfInt (k : ℤ) : Res ℤ := if k < 0 then .error .invalidArgument else .ok (2 ^ k.toNat)

def twoPower (n : ℤ) : Res ℤ := do
  let k ← toInt n
  if k > 1024 then .error .overflow else twoPowerOfInt k

def isZero (v : ℤ) : Bool := v == 0
def isOne (v : ℤ) : Bool := v == 1

/-- Zarith's `gcd` is only called on non-zero arguments. -/
def pgcd (u v : ℤ) : ℤ := if v = 0 then |u| else if u = 0 then |v| else Int.gcd u v

def ppcm (u v : ℤ) : ℤ := if u = 0 ∨ v = 0 then 0 else Int.lcm u v

def length (u v : ℤ) : ℤ := v - u + 1

def roundDownToZero (v modu : ℤ) : ℤ := v / modu * modu

def roundUpToR (min r modu : ℤ) : ℤ := roundDownToZero (min - r - 1) modu + r + modu

def roundDownToR (max r modu : ℤ) : ℤ := roundDownToZero (max - r) modu + r

def logand (x y : ℤ) : ℤ := Int.land x y
def logor (x y : ℤ) : ℤ := Int.lor x y
def logxor (x y : ℤ) : ℤ := Int.xor x y
def lognot (x : ℤ) : ℤ := Int.lnot x

/-- `Z.numbits`: the number of significant bits of the absolute value. -/
def numbits (x : ℤ) : ℕ := x.natAbs.size

def trailingZerosNat : ℕ → ℕ → ℕ
  | 0, _ => 0
  | fuel + 1, n => if n % 2 = 0 then trailingZerosNat fuel (n / 2) + 1 else 0

/-- `Z.trailing_zeros` on a non-zero argument, which has at most `numbits` trailing zeros. -/
def trailingZeros (x : ℤ) : ℕ := trailingZerosNat (numbits x) x.natAbs

/-- `Z.extract v off len`: the bits `off .. off+len-1` of `v`, read as a natural number. -/
def extract (v off len : ℤ) : Res ℤ :=
  if off < 0 ∨ len ≤ 0 then .error .invalidArgument else .ok (v / 2 ^ off.toNat % 2 ^ len.toNat)

def cast (size : ℤ) (signed : Bool) (value : ℤ) : Res ℤ := do
  if !signed then
    let factor ← twoPower size
    return logand value (factor - 1)
  else
    let mask ← twoPower (size - 1)
    let pMask := mask - 1
    if logand mask value = 0 then return logand value pMask
    else return logor (lognot pMask) value

def extractBits (start stop v : ℤ) : Res ℤ := do
  assertion (decide (start ≥ 0 ∧ stop ≥ start))
  extract v (← toInt start) (← toInt (length start stop))

theorem pgcd_eq (u v : ℤ) : pgcd u v = Int.gcd u v := by
  unfold pgcd
  split
  · subst v
    rw [Int.gcd_zero_right,Int.abs_eq_natAbs]
  · split
    · subst u
      rw [Int.gcd_zero_left,Int.abs_eq_natAbs]
    · rfl

theorem ppcm_eq {u v : ℤ} (hu : u ≠ 0) (hv : v ≠ 0) : ppcm u v = Int.lcm u v := by
  simp [ppcm,hu,hv]

theorem pgcd_dvd_left (u v : ℤ) : pgcd u v ∣ u := by
  rw [pgcd_eq]
  exact Int.gcd_dvd_left ..

theorem pgcd_dvd_right (u v : ℤ) : pgcd u v ∣ v := by
  rw [pgcd_eq]
  exact Int.gcd_dvd_right ..

theorem dvd_pgcd {k u v : ℤ} (hu : k ∣ u) (hv : k ∣ v) : k ∣ pgcd u v := by
  rw [pgcd_eq]
  exact Int.dvd_coe_gcd hu hv

theorem dvd_pgcd_iff {k u v : ℤ} : k ∣ pgcd u v ↔ k ∣ u ∧ k ∣ v :=
  ⟨fun h => ⟨h.trans (pgcd_dvd_left u v),h.trans (pgcd_dvd_right u v)⟩,fun h => dvd_pgcd h.1 h.2⟩

theorem pgcd_nonneg (u v : ℤ) : 0 ≤ pgcd u v := by
  rw [pgcd_eq]
  exact Int.natCast_nonneg _

theorem one_le_pgcd_left {u v : ℤ} (hu : 1 ≤ u) : 1 ≤ pgcd u v := by
  rcases (pgcd_nonneg u v).eq_or_lt with h | h
  · have hd := pgcd_dvd_left u v
    rw [← h,zero_dvd_iff] at hd
    omega
  · omega

theorem one_le_pgcd_right {u v : ℤ} (hv : 1 ≤ v) : 1 ≤ pgcd u v := by
  rw [pgcd_eq,Int.gcd_comm,← pgcd_eq]
  exact one_le_pgcd_left hv

section Rounding
variable {b r modu x : ℤ}

theorem exists_eq_add_mul (hx : x % modu = r) : ∃ k, x = r + modu * k :=
  ⟨x / modu,by rw [← hx]; exact (Int.emod_add_mul_ediv x modu).symm⟩

theorem roundDownToR_emod (h0 : 0 ≤ r) (hr : r < modu) : roundDownToR b r modu % modu = r := by
  unfold roundDownToR roundDownToZero
  rw [add_comm,Int.add_mul_emod_self_right,Int.emod_eq_of_lt h0 hr]

theorem roundUpToR_emod (h0 : 0 ≤ r) (hr : r < modu) : roundUpToR b r modu % modu = r := by
  unfold roundUpToR roundDownToZero
  rw [Int.add_emod_right,add_comm,Int.add_mul_emod_self_right,Int.emod_eq_of_lt h0 hr]

theorem roundDownToR_le (hm : 0 < modu) : roundDownToR b r modu ≤ b := by
  unfold roundDownToR roundDownToZero
  have h := Int.ediv_mul_le (b - r) hm.ne'
  omega

theorem le_roundUpToR (hm : 0 < modu) : b ≤ roundUpToR b r modu := by
  unfold roundUpToR roundDownToZero
  have h := Int.lt_ediv_add_one_mul_self (b - r - 1) hm
  rw [add_mul,one_mul] at h
  omega

theorem le_roundDownToR (hm : 0 < modu) (hx : x % modu = r) (hb : x ≤ b) :
    x ≤ roundDownToR b r modu := by
  obtain ⟨k,rfl⟩ := exists_eq_add_mul hx
  unfold roundDownToR roundDownToZero
  have hk : k ≤ (b - r) / modu := by
    rw [Int.le_ediv_iff_mul_le hm,mul_comm]
    omega
  have := Int.mul_le_mul_of_nonneg_right hk hm.le
  rw [mul_comm k modu] at this
  omega

theorem roundUpToR_le (hm : 0 < modu) (hx : x % modu = r) (hb : b ≤ x) :
    roundUpToR b r modu ≤ x := by
  obtain ⟨k,rfl⟩ := exists_eq_add_mul hx
  unfold roundUpToR roundDownToZero
  have hk : (b - r - 1) / modu ≤ k - 1 := by
    have : (b - r - 1) / modu < k := by
      rw [Int.ediv_lt_iff_lt_mul hm,mul_comm]
      omega
    omega
  have := Int.mul_le_mul_of_nonneg_right hk hm.le
  rw [sub_mul,one_mul,mul_comm k modu] at this
  omega

theorem roundDownToR_self (hm : 0 < modu) (hx : x % modu = r) : roundDownToR x r modu = x :=
  le_antisymm (roundDownToR_le hm) (le_roundDownToR hm hx le_rfl)

theorem roundUpToR_self (hm : 0 < modu) (hx : x % modu = r) : roundUpToR x r modu = x :=
  le_antisymm (roundUpToR_le hm hx le_rfl) (le_roundUpToR hm)

end Rounding

theorem toInt_ok {n : ℤ} (h : -2 ^ 62 ≤ n ∧ n < 2 ^ 62) : toInt n = .ok n := by
  rw [toInt,if_pos h]

theorem twoPowerOfInt_ok {k : ℤ} (hk : 0 ≤ k) : twoPowerOfInt k = .ok (2 ^ k.toNat) := by
  simp [twoPowerOfInt,Int.not_lt.mpr hk]

theorem twoPower_ok {n : ℤ} (h0 : 0 ≤ n) (h : n ≤ 1024) : twoPower n = .ok (2 ^ n.toNat) := by
  have ht := toInt_ok (n := n) ⟨by omega,by omega⟩
  rw [twoPower,ht,Res.ok_bind,if_neg (by omega),twoPowerOfInt_ok h0]

theorem twoPower_nonneg {n : ℤ} (h0 : 0 ≤ n) :
    twoPower n = .ok (2 ^ n.toNat) ∨ twoPower n = .error .overflow := by
  by_cases h : n ≤ 1024
  · exact .inl (twoPower_ok h0 h)
  · right
    unfold twoPower toInt
    split
    · rw [Res.ok_bind,if_pos (by omega)]
    · rfl

end Integer
end FramaC
