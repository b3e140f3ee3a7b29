import FramaC.Lib.Memo
import FramaC.Lib.BitMask
import Mathlib.Tactic.Ring
import Mathlib.Tactic.IntervalCases

/-! # Flat arrays of fields

The entries of a cache are consecutive fields of one block, addressed by hand. A field holds any
value. `none` stands for an access outside the block.
-/
namespace FramaC

abbrev NativeInt := BitVec 63

namespace BinaryCache
variable {O : Type}

def field (t : List O) (i : ℕ) : Option O := t[i]?

def setField (t : List O) (i : ℕ) (x : O) : Option (List O) := if i < t.length then some (t.set i x) else none

@[grind =] def setFields (t : List O) (base : ℕ) : List O → Option (List O)
  | [] => some t
  | x :: xs => do
    let t ← setField t base x
    setFields t (base + 1) xs

/-- `Array_2`, `Array_3` and `Array_4`: the fields of an entry, and the stride of the loop of `clear`. -/
structure ArrayN where
  width : ℕ
  stride : ℕ

def array2 : ArrayN := ⟨2,2⟩
def array3 : ArrayN := ⟨3,3⟩
def array4 : ArrayN := ⟨4,7⟩

namespace ArrayN
variable (n : ArrayN)

/-- The loop of `clear`. It moves by at least one field, so that the fuel is enough. -/
@[grind =] def clearLoop (xs : List O) : ℕ → List O → ℕ → Option (List O)
  | 0,t,_ => some t
  | fuel + 1,t,i =>
    if i < t.length then do
      let t ← setFields t i xs
      clearLoop xs fuel t (i + n.stride)
    else some t

def clear (t xs : List O) : Option (List O) := n.clearLoop xs t.length t 0

/-- The fields of a new block hold `()`, written `default` here. -/
def make [Inhabited O] (size : ℕ) (xs : List O) : Option (List O) :=
  n.clear (List.replicate (n.width * size) default) xs

def set (t : List O) (i : ℕ) (xs : List O) : Option (List O) := setFields t (n.width * i) xs

/-- `get0` to `get3`. -/
def get (t : List O) (i r : ℕ) : Option O := field t (n.width * i + r)

end ArrayN

/-- `Array_Bit`. -/
abbrev ArrayBit := List (BitVec 8)

namespace ArrayBit

def make (size : ℕ) : ArrayBit := List.replicate ((size + 7) >>> 3) 0

def get (s : ArrayBit) (i : ℕ) : Option Bool := do
  let c ← s[i >>> 3]?
  some (decide (c &&& 1#8 <<< (i &&& 7) ≠ 0))

def set (s : ArrayBit) (i : ℕ) (v : Bool) : Option ArrayBit := do
  let c := i >>> 3
  let b := 1#8 <<< (i &&& 7)
  let oldcontents ← s[c]?
  let newcontents := if v then b ||| oldcontents else oldcontents &&& ~~~b
  some (List.set s c newcontents)

def clear (s : ArrayBit) : ArrayBit := List.replicate s.length 0

end ArrayBit

theorem setFields_ok {t xs : List O} {base : ℕ} (h : base + xs.length ≤ t.length) :
    ∃ t', setFields t base xs = some t' ∧ t'.length = t.length ∧
      ∀ j, field t' j = if base ≤ j ∧ j < base + xs.length then xs[j - base]? else field t j := by
  induction xs generalizing t base with
  | nil =>
    refine ⟨t,rfl,rfl,fun j => ?_⟩
    rw [if_neg]
    simp only [List.length_nil]
    omega
  | cons x xs ih =>
    rw [List.length_cons] at h
    have hrest : base + 1 + xs.length ≤ (t.set base x).length := by
      rw [List.length_set]
      omega
    obtain ⟨t',h1,h2,h3⟩ := ih hrest
    refine ⟨t',?_,by rw [h2,List.length_set],?_⟩
    · rw [setFields,setField,if_pos (by omega)]
      exact h1
    · intro j
      rw [h3,field,field,List.length_cons]
      rcases lt_trichotomy j base with hj | rfl | hj
      · rw [if_neg (by omega),if_neg (by omega),List.getElem?_set_ne (by omega)]
      · rw [if_neg (by omega),if_pos (by omega),List.getElem?_set_self (by omega),Nat.sub_self]
        rfl
      · by_cases hin : j < base + (xs.length + 1)
        · rw [if_pos (by omega),if_pos (by omega),show j - base = j - (base + 1) + 1 by omega]
          rfl
        · rw [if_neg (by omega),if_neg (by omega),List.getElem?_set_ne (by omega)]

theorem setFields_outside {t xs : List O} {base : ℕ} (hne : xs ≠ []) (h : t.length < base + xs.length) :
    setFields t base xs = none := by
  induction xs generalizing t base with
  | nil => exact absurd rfl hne
  | cons x xs ih =>
    rw [setFields,setField]
    split
    · rename_i hlt
      have hxs : xs ≠ [] := by
        rintro rfl
        simp only [List.length_cons,List.length_nil] at h
        omega
      exact ih hxs (by rw [List.length_set,List.length_cons] at *; omega)
    · rfl

section Clear
variable {n : ArrayN} {xs : List O}

theorem clearLoop_ok (hstride : 1 ≤ n.stride) (hlen : xs.length ≤ n.stride) {fuel i : ℕ} {t : List O}
    (hfuel : t.length ≤ fuel + i)
    (hfit : ∀ k, i + k * n.stride < t.length → i + k * n.stride + xs.length ≤ t.length) :
    ∃ t', n.clearLoop xs fuel t i = some t' ∧ t'.length = t.length ∧
      ∀ j, field t' j =
        if i ≤ j ∧ j < t.length ∧ (j - i) % n.stride < xs.length then xs[(j - i) % n.stride]? else field t j := by
  induction fuel generalizing t i with
  | zero =>
    refine ⟨t,rfl,rfl,fun j => ?_⟩
    rw [if_neg (by omega)]
  | succ fuel ih =>
    rw [ArrayN.clearLoop]
    split
    · rename_i hlt
      obtain ⟨t1,h1,h2,h3⟩ := setFields_ok (by simpa using hfit 0 (by simpa using hlt))
      have hfit' : ∀ k, i + n.stride + k * n.stride < t1.length →
          i + n.stride + k * n.stride + xs.length ≤ t1.length := by
        intro k
        have := hfit (k + 1)
        rw [Nat.add_mul,Nat.one_mul] at this
        rw [h2]
        omega
      obtain ⟨t',k1,k2,k3⟩ := ih (i := i + n.stride) (t := t1) (by omega) hfit'
      refine ⟨t',by rw [h1]; exact k1,k2.trans h2,?_⟩
      intro j
      rw [k3,h3,h2]
      rcases lt_or_ge j (i + n.stride) with hj | hj
      · rw [if_neg (by omega)]
        rcases lt_or_ge j i with hji | hji
        · rw [if_neg (by omega),if_neg (by omega)]
        · rw [Nat.mod_eq_of_lt (show j - i < n.stride by omega)]
          by_cases hin : j < i + xs.length
          · have := hfit 0 (by simpa using hlt)
            rw [if_pos (by omega),if_pos (by omega)]
          · rw [if_neg (by omega),if_neg (by omega)]
      · have hmod : (j - (i + n.stride)) % n.stride = (j - i) % n.stride := by
          rw [show j - i = j - (i + n.stride) + n.stride by omega,Nat.add_mod_right]
        rw [hmod]
        by_cases hin : j < t.length ∧ (j - i) % n.stride < xs.length
        · rw [if_pos (by omega),if_pos (by omega)]
        · rw [if_neg (by omega),if_neg (by omega),if_neg (by omega)]
    · refine ⟨t,rfl,rfl,fun j => ?_⟩
      rw [if_neg (by omega)]

theorem clearLoop_outside (hne : xs ≠ []) (hstride : 1 ≤ n.stride) {fuel i k : ℕ} {t : List O}
    (hfuel : t.length ≤ fuel + i) (hlt : i + k * n.stride < t.length)
    (hout : t.length < i + k * n.stride + xs.length) : n.clearLoop xs fuel t i = none := by
  induction fuel generalizing t i k with
  | zero => omega
  | succ fuel ih =>
    rw [ArrayN.clearLoop,if_pos (by omega)]
    by_cases hfit : i + xs.length ≤ t.length
    · obtain ⟨t1,h1,h2,-⟩ := setFields_ok hfit
      obtain ⟨k,rfl⟩ : ∃ k', k = k' + 1 := by
        cases k with
        | zero =>
          rw [Nat.zero_mul] at hout
          omega
        | succ k => exact ⟨k,rfl⟩
      rw [Nat.add_mul,Nat.one_mul] at hlt hout
      have hrec := ih (t := t1) (i := i + n.stride) (k := k) (by omega) (by omega) (by omega)
      rw [h1]
      exact hrec
    · rw [setFields_outside hne (by omega)]
      rfl

end Clear

section Entries
variable {n : ArrayN} {t xs : List O} {size : ℕ}

theorem entry_lt (hw : n.width * size = t.length) {i r : ℕ} (hi : i < size) (hr : r < n.width) :
    n.width * i + r < t.length := by
  have : n.width * (i + 1) ≤ n.width * size := Nat.mul_le_mul_left _ hi
  rw [Nat.mul_add,Nat.mul_one] at this
  omega

theorem get_isSome (hw : n.width * size = t.length) {i r : ℕ} (hi : i < size) (hr : r < n.width) :
    ∃ x, n.get t i r = some x := by
  have hlt := entry_lt hw hi hr
  exact ⟨t[n.width * i + r],List.getElem?_eq_getElem hlt⟩

theorem set_ok (hw : n.width * size = t.length) {i : ℕ} (hi : i < size) (hlen : xs.length = n.width) :
    ∃ t', n.set t i xs = some t' ∧ n.width * size = t'.length ∧
      ∀ j r, r < n.width → n.get t' j r = if i = j then xs[r]? else n.get t j r := by
  have hfit : n.width * i + xs.length ≤ t.length := by
    have : n.width * (i + 1) ≤ n.width * size := Nat.mul_le_mul_left _ hi
    rw [Nat.mul_add,Nat.mul_one] at this
    omega
  obtain ⟨t',h1,h2,h3⟩ := setFields_ok hfit
  refine ⟨t',h1,hw.trans h2.symm,?_⟩
  intro j r hr
  rw [ArrayN.get,h3,hlen]
  by_cases hij : i = j
  · subst hij
    rw [if_pos (by omega),if_pos rfl,Nat.add_sub_cancel_left]
  · rw [if_neg hij,if_neg]
    · rfl
    · rintro ⟨h4,h5⟩
      rcases Nat.lt_or_gt_of_ne hij with hlt | hlt
      · have : n.width * (i + 1) ≤ n.width * j := Nat.mul_le_mul_left _ hlt
        rw [Nat.mul_add,Nat.mul_one] at this
        omega
      · have : n.width * (j + 1) ≤ n.width * i := Nat.mul_le_mul_left _ hlt
        rw [Nat.mul_add,Nat.mul_one] at this
        omega

theorem clear_ok (hw : n.width * size = t.length) (hpos : 1 ≤ n.width) (hs : n.stride = n.width)
    (hlen : xs.length = n.width) :
    ∃ t', n.clear t xs = some t' ∧ n.width * size = t'.length ∧
      ∀ i r, i < size → r < n.width → n.get t' i r = xs[r]? := by
  have hfit : ∀ k, 0 + k * n.stride < t.length → 0 + k * n.stride + xs.length ≤ t.length := by
    intro k hk
    rw [hs,← hw,Nat.zero_add,Nat.mul_comm] at hk
    have : n.width * (k + 1) ≤ n.width * size := Nat.mul_le_mul_left _ (Nat.lt_of_mul_lt_mul_left hk)
    rw [Nat.mul_add,Nat.mul_one] at this
    rw [hs,← hw,hlen,Nat.zero_add,Nat.mul_comm]
    exact this
  obtain ⟨t',h1,h2,h3⟩ := clearLoop_ok (by omega) (by omega) (show t.length ≤ t.length + 0 by omega) hfit
  refine ⟨t',h1,hw.trans h2.symm,?_⟩
  intro i r hi hr
  have hlt := entry_lt hw hi hr
  rw [ArrayN.get,h3,hs,Nat.sub_zero,Nat.mul_add_mod,Nat.mod_eq_of_lt hr]
  rw [if_pos (by omega)]

end Entries

namespace ArrayBit

theorem bit_eq (c : BitVec 8) {k : ℕ} (hk : k < 8) : decide (c &&& 1#8 <<< k ≠ 0) = c.getLsbD k := by
  rw [← BitVec.twoPow_eq]
  cases h : c.getLsbD k with
  | false => simpa using (BitMask.and_twoPow_eq_zero_iff c hk).mpr h
  | true =>
    rw [decide_eq_true_eq]
    intro hzero
    rw [(BitMask.and_twoPow_eq_zero_iff c hk).mp hzero] at h
    cases h

theorem and_seven (i : ℕ) : i &&& 7 = i % 8 := Nat.and_two_pow_sub_one_eq_mod i 3

theorem get_eq (s : ArrayBit) (i : ℕ) : get s i = (s[i / 8]?).map fun c => c.getLsbD (i % 8) := by
  rw [get,Nat.shiftRight_eq_div_pow,and_seven]
  cases s[i / 2 ^ 3]? with
  | none => rfl
  | some c => exact congrArg some (bit_eq c (Nat.mod_lt _ (by decide)))

theorem length_make (size : ℕ) : (make size).length = (size + 7) / 8 := by
  rw [make,List.length_replicate,Nat.shiftRight_eq_div_pow]

theorem get_isSome {s : ArrayBit} {size i : ℕ} (h : s.length = (size + 7) / 8) (hi : i < size) :
    ∃ v, get s i = some v := by
  have hlt : i / 8 < s.length := by omega
  rw [get_eq,List.getElem?_eq_getElem hlt]
  exact ⟨_,rfl⟩

theorem set_ok {s : ArrayBit} {size i : ℕ} (h : s.length = (size + 7) / 8) (hi : i < size) (v : Bool) :
    ∃ s', set s i v = some s' ∧ s'.length = s.length ∧ ∀ j, get s' j = if i = j then some v else get s j := by
  have hlt : i / 8 < s.length := by omega
  have hk : i % 8 < 8 := Nat.mod_lt _ (by decide)
  have hset : set s i v = some (List.set s (i / 8)
      (if v then 1#8 <<< (i % 8) ||| s[i / 8] else s[i / 8] &&& ~~~(1#8 <<< (i % 8)))) := by
    rw [set,Nat.shiftRight_eq_div_pow,and_seven]
    simp only [Nat.reducePow,List.getElem?_eq_getElem hlt,Option.bind_eq_bind,Option.bind_some]
  refine ⟨_,hset,List.length_set,?_⟩
  intro j
  have hbit : ∀ c : BitVec 8, ∀ k, k < 8 →
      (if v then 1#8 <<< (i % 8) ||| c else c &&& ~~~(1#8 <<< (i % 8))).getLsbD k =
        if i % 8 = k then v else c.getLsbD k := by
    intro c k hk'
    rw [← BitVec.twoPow_eq]
    cases v with
    | true =>
      rw [if_pos rfl,BitVec.getLsbD_or,BitVec.getLsbD_twoPow]
      by_cases he : i % 8 = k
      · simp [he,hk']
      · simp [he]
    | false =>
      rw [if_neg (by simp),BitVec.getLsbD_and,BitVec.getLsbD_not,BitVec.getLsbD_twoPow]
      by_cases he : i % 8 = k
      · simp [he,hk']
      · simp [he,hk']
  rw [get_eq,get_eq]
  by_cases hbyte : i / 8 = j / 8
  · rw [← hbyte,List.getElem?_set_self hlt,List.getElem?_eq_getElem hlt,Option.map_some,Option.map_some,
      hbit _ _ (Nat.mod_lt _ (by decide))]
    by_cases hij : i = j
    · rw [if_pos (by rw [hij]),if_pos hij]
    · rw [if_neg (by omega),if_neg hij]
  · rw [List.getElem?_set_ne hbyte,if_neg (by rintro rfl; exact hbyte rfl)]

theorem get_clear {s : ArrayBit} {size i : ℕ} (h : s.length = (size + 7) / 8) (hi : i < size) :
    get (clear s) i = some false := by
  have hlt : i / 8 < s.length := by omega
  rw [get_eq,clear,List.getElem?_replicate,if_pos hlt]
  simp

end ArrayBit

end BinaryCache
end FramaC
