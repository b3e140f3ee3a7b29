import Mathlib.Data.Nat.Bitwise
import Mathlib.Tactic.IntervalCases

/-! # Bit-level operations on memory

The macros and functions of `e_acsl_bits.h` over a little-endian memory of bytes. Bit `n` of the memory is bit `n % 8`
of byte `n / 8`, so an operation on the 64-bit word at address `a` works on the bits from `8 * a` on.
-/
namespace FramaC.EAcsl

abbrev Bytes := ℕ → BitVec 8

/-- Bit `n` of the memory, counted from the first byte on. -/
def bitAt (m : Bytes) (n : ℕ) : Bool := (m (n / 8)).getLsbD (n % 8)

def load64 (m : Bytes) (a : ℕ) : BitVec 64 :=
  m (a + 7) ++ m (a + 6) ++ m (a + 5) ++ m (a + 4) ++ m (a + 3) ++ m (a + 2) ++ m (a + 1) ++ m a

def load32 (m : Bytes) (a : ℕ) : BitVec 32 := m (a + 3) ++ m (a + 2) ++ m (a + 1) ++ m a

def store32 (m : Bytes) (a : ℕ) (w : BitVec 32) : Bytes :=
  fun i => if a ≤ i ∧ i < a + 4 then w.extractLsb' (8 * (i - a)) 8 else m i

def store64 (m : Bytes) (a : ℕ) (w : BitVec 64) : Bytes :=
  fun i => if a ≤ i ∧ i < a + 8 then w.extractLsb' (8 * (i - a)) 8 else m i

def checkbit (bit : ℕ) (number : BitVec 8) : Bool := (number >>> bit) &&& 1 != 0

def setbit (bit : ℕ) (number : BitVec 8) : BitVec 8 := number ||| 1 <<< bit

def ONE : BitVec 64 := BitVec.allOnes 64

def ZERO : BitVec 64 := 0

def setbits64 (bits : ℕ) (number : BitVec 64) : BitVec 64 := number ||| ~~~(ONE <<< bits)

def setbits64Skip (bits : ℕ) (number : BitVec 64) (skip : ℕ) : BitVec 64 :=
  number ||| (~~~(ONE <<< bits)) <<< skip

def checkbits64 (bits : ℕ) (number : BitVec 64) : Bool :=
  number &&& ~~~(ONE <<< bits) == ~~~(ONE <<< bits)

def clearbits64Right (bits : ℕ) (number : BitVec 64) : BitVec 64 := number &&& ONE >>> bits

def setbits (size : ℕ) (m : Bytes) (ptr : ℕ) : Bytes :=
  let m' := (List.range (size / 64)).foldl
    (fun m i => store64 m (ptr + 8 * i) (load64 m (ptr + 8 * i) ||| ONE)) m
  let last := ptr + 8 * (size / 64)
  store64 m' last (setbits64 (size % 64) (load64 m' last))

def checkbits (size : ℕ) (m : Bytes) (ptr : ℕ) : Bool :=
  (List.range (size / 64)).all (fun i => load64 m (ptr + 8 * i) == ONE) &&
    checkbits64 (size % 64) (load64 m (ptr + 8 * (size / 64)))

/-- Clears `size` bits down from the byte before `ptr`. -/
def clearbitsRight (size : ℕ) (m : Bytes) (ptr : ℕ) : Bytes :=
  let lp := ptr - 8
  let m' := (List.range (size / 64)).foldl
    (fun m i => store64 m (lp - 8 * i) (load64 m (lp - 8 * i) &&& ZERO)) m
  let last := lp - 8 * (size / 64)
  store64 m' last (clearbits64Right (size % 64) (load64 m' last))

theorem getLsbD_load64 (m : Bytes) (a : ℕ) {k : ℕ} (hk : k < 64) : (load64 m a).getLsbD k = bitAt m (8 * a + k) := by
  have hd : (8 * a + k) / 8 = a + k / 8 := by omega
  have hm : (8 * a + k) % 8 = k % 8 := by omega
  simp only [bitAt,hd,hm,load64,BitVec.getLsbD_append]
  interval_cases k <;> rfl

theorem bitAt_store64 (m : Bytes) (a : ℕ) (w : BitVec 64) (n : ℕ) :
    bitAt (store64 m a w) n = if 8 * a ≤ n ∧ n < 8 * a + 64 then w.getLsbD (n - 8 * a) else bitAt m n := by
  have hiff : (a ≤ n / 8 ∧ n / 8 < a + 8) ↔ (8 * a ≤ n ∧ n < 8 * a + 64) := by omega
  by_cases h : 8 * a ≤ n ∧ n < 8 * a + 64
  · have hn : 8 * (n / 8 - a) + n % 8 = n - 8 * a := by omega
    have hlt : n % 8 < 8 := Nat.mod_lt n (by omega)
    simp only [bitAt,store64,hiff.2 h,h,and_self,if_true,BitVec.getLsbD_extractLsb',hlt,decide_true,Bool.true_and,hn]
  · simp only [bitAt,store64,hiff,h,if_false]

theorem extractLsb_load64 (m : Bytes) (a : ℕ) {j : ℕ} (hj : j < 8) :
    (load64 m a).extractLsb' (8 * j) 8 = m (a + j) := by
  apply BitVec.eq_of_getLsbD_eq
  intro i hi
  have hk : 8 * j + i < 64 := by omega
  have hd : (8 * a + (8 * j + i)) / 8 = a + j := by omega
  have hm : (8 * a + (8 * j + i)) % 8 = i := by omega
  rw [BitVec.getLsbD_extractLsb',getLsbD_load64 m a hk,bitAt,hd,hm]
  simp [hi]

theorem store64_or (m : Bytes) (a : ℕ) (w : BitVec 64) (x : ℕ) :
    store64 m a (load64 m a ||| w) x =
      if a ≤ x ∧ x < a + 8 then m x ||| w.extractLsb' (8 * (x - a)) 8 else m x := by
  by_cases h : a ≤ x ∧ x < a + 8
  · have hj : x - a < 8 := by omega
    have hx : a + (x - a) = x := by omega
    have hor : (load64 m a ||| w).extractLsb' (8 * (x - a)) 8 =
        (load64 m a).extractLsb' (8 * (x - a)) 8 ||| w.extractLsb' (8 * (x - a)) 8 := by
      apply BitVec.eq_of_getLsbD_eq
      intro i hi
      simp [hi]
    simp only [store64,h,and_self,if_true,hor,extractLsb_load64 m a hj,hx]
  · simp only [store64,h,if_false]

theorem load32_congr {m m' : Bytes} {a : ℕ} (h : ∀ i < 4, m (a + i) = m' (a + i)) : load32 m a = load32 m' a := by
  have h0 := h 0 (by omega)
  rw [Nat.add_zero] at h0
  rw [load32,load32,h0,h 1 (by omega),h 2 (by omega),h 3 (by omega)]

theorem load32_store32 (m : Bytes) (a : ℕ) (w : BitVec 32) : load32 (store32 m a w) a = w := by
  apply BitVec.eq_of_getLsbD_eq
  intro i hi
  simp only [load32,store32,BitVec.getLsbD_append]
  interval_cases i <;> simp

theorem getLsbD_ONE {k : ℕ} (hk : k < 64) : ONE.getLsbD k = true := by
  rw [ONE,BitVec.getLsbD_allOnes]
  exact decide_eq_true hk

theorem getLsbD_lowMask (bits : ℕ) {k : ℕ} (hk : k < 64) : (~~~(ONE <<< bits)).getLsbD k = decide (k < bits) := by
  by_cases h : k < bits
  · simp [hk,h]
  · have hs : k - bits < 64 := by omega
    simp [hk,h,getLsbD_ONE hs]

theorem getLsbD_setbits64 (bits : ℕ) (w : BitVec 64) {k : ℕ} (hk : k < 64) :
    (setbits64 bits w).getLsbD k = (w.getLsbD k || decide (k < bits)) := by
  rw [setbits64,BitVec.getLsbD_or,getLsbD_lowMask bits hk]

theorem bitAt_setWords (m : Bytes) (ptr count n : ℕ) :
    bitAt ((List.range count).foldl
      (fun m i => store64 m (ptr + 8 * i) (load64 m (ptr + 8 * i) ||| ONE)) m) n =
      (decide (8 * ptr ≤ n ∧ n < 8 * ptr + 64 * count) || bitAt m n) := by
  induction count with
  | zero =>
    have h : ¬(8 * ptr ≤ n ∧ n < 8 * ptr + 64 * 0) := by omega
    simp only [List.range_zero,List.foldl_nil,h,decide_false,Bool.false_or]
  | succ count ih =>
    simp only [List.range_succ,List.foldl_append,List.foldl_cons,List.foldl_nil]
    rw [bitAt_store64]
    by_cases h : 8 * (ptr + 8 * count) ≤ n ∧ n < 8 * (ptr + 8 * count) + 64
    · have hk : n - 8 * (ptr + 8 * count) < 64 := by omega
      have hin : 8 * ptr ≤ n ∧ n < 8 * ptr + 64 * (count + 1) := by omega
      simp only [h,and_self,if_true,BitVec.getLsbD_or,getLsbD_ONE hk,Bool.or_true,hin,decide_true,Bool.true_or]
    · rw [if_neg h,ih]
      congr 2
      apply propext
      omega

theorem bitAt_setbits (size : ℕ) (m : Bytes) (ptr n : ℕ) :
    bitAt (setbits size m ptr) n = (decide (8 * ptr ≤ n ∧ n < 8 * ptr + size) || bitAt m n) := by
  simp only [setbits]
  rw [bitAt_store64]
  by_cases h : 8 * (ptr + 8 * (size / 64)) ≤ n ∧ n < 8 * (ptr + 8 * (size / 64)) + 64
  · have hk : n - 8 * (ptr + 8 * (size / 64)) < 64 := by omega
    have hn : 8 * (ptr + 8 * (size / 64)) + (n - 8 * (ptr + 8 * (size / 64))) = n := by omega
    have hout : ¬(8 * ptr ≤ n ∧ n < 8 * ptr + 64 * (size / 64)) := by omega
    have hiff : (n - 8 * (ptr + 8 * (size / 64)) < size % 64) ↔ (8 * ptr ≤ n ∧ n < 8 * ptr + size) := by omega
    rw [if_pos h,getLsbD_setbits64 _ _ hk,getLsbD_load64 _ _ hk,hn,bitAt_setWords]
    simp only [hout,decide_false,Bool.false_or,hiff,Bool.or_comm]
  · rw [if_neg h,bitAt_setWords]
    congr 2
    apply propext
    omega

theorem getLsbD_clearbits64Right (bits : ℕ) (w : BitVec 64) (k : ℕ) :
    (clearbits64Right bits w).getLsbD k = (w.getLsbD k && decide (k + bits < 64)) := by
  rw [clearbits64Right,BitVec.getLsbD_and,BitVec.getLsbD_ushiftRight,ONE,BitVec.getLsbD_allOnes,Nat.add_comm]

theorem bitAt_clearWords (m : Bytes) (lp count n : ℕ) (h : 8 * count ≤ lp + 8) :
    bitAt ((List.range count).foldl
      (fun m i => store64 m (lp - 8 * i) (load64 m (lp - 8 * i) &&& ZERO)) m) n =
      (bitAt m n && !decide (8 * lp + 64 ≤ n + 64 * count ∧ n < 8 * lp + 64)) := by
  induction count with
  | zero =>
    have hno : ¬(8 * lp + 64 ≤ n + 64 * 0 ∧ n < 8 * lp + 64) := by omega
    simp only [List.range_zero,List.foldl_nil,hno,decide_false,Bool.not_false,Bool.and_true]
  | succ count ih =>
    simp only [List.range_succ,List.foldl_append,List.foldl_cons,List.foldl_nil]
    rw [bitAt_store64]
    by_cases hin : 8 * (lp - 8 * count) ≤ n ∧ n < 8 * (lp - 8 * count) + 64
    · have hnew : 8 * lp + 64 ≤ n + 64 * (count + 1) ∧ n < 8 * lp + 64 := by omega
      have hz (w : BitVec 64) : (w &&& ZERO) = 0#64 := BitVec.and_zero
      simp only [hin,and_self,if_true,hz,BitVec.getLsbD_zero,hnew,decide_true,Bool.not_true,Bool.and_false]
    · rw [if_neg hin,ih (by omega)]
      congr 3
      apply propext
      omega

theorem bitAt_clearbitsRight (size : ℕ) (m : Bytes) (ptr n : ℕ) (h : 8 * (size / 64) + 8 ≤ ptr) :
    bitAt (clearbitsRight size m ptr) n = (bitAt m n && !decide (8 * ptr ≤ n + size ∧ n < 8 * ptr)) := by
  simp only [clearbitsRight]
  rw [bitAt_store64]
  by_cases hin : 8 * (ptr - 8 - 8 * (size / 64)) ≤ n ∧ n < 8 * (ptr - 8 - 8 * (size / 64)) + 64
  · have hk : n - 8 * (ptr - 8 - 8 * (size / 64)) < 64 := by omega
    have hn : 8 * (ptr - 8 - 8 * (size / 64)) + (n - 8 * (ptr - 8 - 8 * (size / 64))) = n := by omega
    have hout : ¬(8 * (ptr - 8) + 64 ≤ n + 64 * (size / 64) ∧ n < 8 * (ptr - 8) + 64) := by omega
    have hiff : (n - 8 * (ptr - 8 - 8 * (size / 64)) + size % 64 < 64) ↔ ¬(8 * ptr ≤ n + size ∧ n < 8 * ptr) := by omega
    rw [if_pos hin,getLsbD_clearbits64Right,getLsbD_load64 _ _ hk,hn,bitAt_clearWords _ _ _ _ (by omega)]
    simp only [hout,decide_false,Bool.not_false,Bool.and_true,hiff,decide_not]
  · rw [if_neg hin,bitAt_clearWords _ _ _ _ (by omega)]
    congr 3
    apply propext
    omega

theorem load64_eq_ONE (m : Bytes) (a : ℕ) : load64 m a = ONE ↔ ∀ k < 64, bitAt m (8 * a + k) = true := by
  constructor
  · intro h k hk
    rw [← getLsbD_load64 m a hk,h]
    exact getLsbD_ONE hk
  · intro h
    apply BitVec.eq_of_getLsbD_eq
    intro k hk
    rw [getLsbD_load64 m a hk,h k hk,getLsbD_ONE hk]

theorem checkbits64_iff (bits : ℕ) (m : Bytes) (a : ℕ) (hb : bits < 64) :
    checkbits64 bits (load64 m a) = true ↔ ∀ k < bits, bitAt m (8 * a + k) = true := by
  rw [checkbits64,beq_iff_eq]
  constructor
  · intro h k hk
    have hk' : k < 64 := by omega
    have hand := congrArg (fun w => w.getLsbD k) h
    simp only [BitVec.getLsbD_and,getLsbD_lowMask bits hk',hk,decide_true,Bool.and_true,getLsbD_load64 m a hk'] at hand
    exact hand
  · intro h
    apply BitVec.eq_of_getLsbD_eq
    intro k hk
    rw [BitVec.getLsbD_and,getLsbD_lowMask bits hk,getLsbD_load64 m a hk]
    by_cases hlt : k < bits
    · simp [hlt,h k hlt]
    · simp [hlt]

theorem checkbits_iff (size : ℕ) (m : Bytes) (ptr : ℕ) :
    checkbits size m ptr = true ↔ ∀ k < size, bitAt m (8 * ptr + k) = true := by
  simp only [checkbits,Bool.and_eq_true,List.all_eq_true,List.mem_range,beq_iff_eq,load64_eq_ONE,
    checkbits64_iff _ _ _ (Nat.mod_lt size (by omega : 0 < 64))]
  constructor
  · rintro ⟨hwords,hlast⟩ k hk
    by_cases hw : k / 64 < size / 64
    · have hbit := hwords (k / 64) hw (k % 64) (by omega)
      have hidx : 8 * (ptr + 8 * (k / 64)) + k % 64 = 8 * ptr + k := by omega
      rwa [hidx] at hbit
    · have hbit := hlast (k - 64 * (size / 64)) (by omega)
      have hidx : 8 * (ptr + 8 * (size / 64)) + (k - 64 * (size / 64)) = 8 * ptr + k := by omega
      rwa [hidx] at hbit
  · intro h
    constructor
    · intro i hi k hk
      have hbit := h (64 * i + k) (by omega)
      have hidx : 8 * (ptr + 8 * i) + k = 8 * ptr + (64 * i + k) := by omega
      rwa [hidx]
    · intro k hk
      have hbit := h (64 * (size / 64) + k) (by omega)
      have hidx : 8 * (ptr + 8 * (size / 64)) + k = 8 * ptr + (64 * (size / 64) + k) := by omega
      rwa [hidx]

end FramaC.EAcsl
