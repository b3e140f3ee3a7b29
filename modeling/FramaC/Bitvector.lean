import Mathlib.Data.List.Basic
import Mathlib.Data.Option.Basic

/-! # Sized concatenation of bit vectors

Bits are counted from 0, in byte order, then from least to most significant. Vectors may store more
bits than the size given with them.
-/
namespace FramaC.Bitvector

abbrev Byte := BitVec 8

abbrev Bytes := List Byte

namespace Bytes

def create (contents : Nat → Byte) (n : Nat) : Bytes := (List.range n).map contents

def get (bv : Bytes) (i : Int) : Option Byte := if i < 0 then none else bv[i.toNat]?

def set (bv : Bytes) (i : Nat) (b : Byte) : Option Bytes := if i < bv.length then some (List.set bv i b) else none

def blit (src : Bytes) (srcoff : Nat) (dst : Bytes) (dstoff len : Nat) : Option Bytes :=
  if srcoff + len ≤ src.length ∧ dstoff + len ≤ dst.length then
    some (dst.take dstoff ++ (src.drop srcoff).take len ++ dst.drop (dstoff + len))
  else none

end Bytes

/-- Unsets the extra trailing bits; `none` is a failed assertion. -/
def cleanTrail (size : Nat) (bv : Bytes) : Option Bytes := do
  let last : Int := ((size + 7) / 8 : Nat) - 1
  guard (last < bv.length)
  let r := size &&& 7
  let bv ← if r > 0 then
    let mask : Byte := 1 <<< r - 1
    do Bytes.set bv last.toNat ((← Bytes.get bv last) &&& mask)
    else some bv
  some (bv.take (last + 1).toNat ++ List.replicate (bv.length - (last + 1).toNat) 0)

def capacity (s : Bytes) : Nat := s.length * 8

def loop (bv2 : Bytes) (fstBits sndBits len1 str2 newlen : Nat) (copy : Bytes) (prevByte : Byte) (i : Nat) :
    Option Bytes := do
  let j := len1 + i
  if i < str2 then
    let b ← Bytes.get bv2 i
    let copy ← Bytes.set copy j (prevByte ||| b <<< fstBits)
    loop bv2 fstBits sndBits len1 str2 newlen copy (b >>> sndBits) (i + 1)
  else if j < newlen then
    -- there is no such byte when the second vector is empty
    let b ← Bytes.get bv2 ((str2 : Int) - 1)
    Bytes.set copy j (b >>> sndBits)
  else some copy
termination_by str2 - i

def concat (contents : Nat → Byte) (bv1 : Bytes) (size1 : Nat) (bv2 : Bytes) (size2 : Nat) : Option Bytes := do
  let len1 := size1 / 8
  let str1 := (size1 + 7) / 8
  let str2 := (size2 + 7) / 8
  guard (str1 ≤ bv1.length)
  guard (str2 ≤ bv2.length)
  let newlen := (size1 + size2 + 7) / 8
  let copy := Bytes.create contents newlen
  let copy ← Bytes.blit bv1 0 copy 0 len1
  let fstBits := size1 &&& 7
  let sndBits := 8 - fstBits
  if fstBits = 0 then Bytes.blit bv2 0 copy len1 str2
  else
    let copy ← loop bv2 fstBits sndBits len1 str2 newlen copy (← Bytes.get bv1 len1) 0
    cleanTrail (size1 + size2) copy

def byteAt (bv : Bytes) (j : Nat) : Byte := bv[j]?.getD 0

def bit (bv : Bytes) (k : Nat) : Bool := (byteAt bv (k / 8)).getLsbD (k % 8)

theorem and_seven (n : Nat) : n &&& 7 = n % 8 := Nat.and_two_pow_sub_one_eq_mod n 3

theorem get_eq_byteAt {bv : Bytes} {i : Nat} (h : i < bv.length) : Bytes.get bv i = some (byteAt bv i) := by
  rw [Bytes.get,if_neg (by omega),byteAt,Int.toNat_natCast,List.getElem?_eq_getElem h]
  rfl

theorem byteAt_set {bv : Bytes} {i : Nat} {b : Byte} (h : i < bv.length) (j : Nat) :
    byteAt (List.set bv i b) j = if j = i then b else byteAt bv j := by
  rw [byteAt,List.getElem?_set,byteAt]
  by_cases hj : j = i
  · rw [if_pos hj.symm,if_pos (hj ▸ h),if_pos hj]
    rfl
  · rw [if_neg (Ne.symm hj),if_neg hj]

theorem byteAt_append {a b : Bytes} (j : Nat) :
    byteAt (a ++ b) j = if j < a.length then byteAt a j else byteAt b (j - a.length) := by
  rw [byteAt,List.getElem?_append]
  split_ifs <;> rfl

theorem byteAt_take {bv : Bytes} {n : Nat} (j : Nat) : byteAt (bv.take n) j = if j < n then byteAt bv j else 0 := by
  rw [byteAt,List.getElem?_take]
  split_ifs <;> rfl

theorem byteAt_replicate (n j : Nat) : byteAt (List.replicate n 0) j = 0 := by
  rw [byteAt,List.getElem?_replicate]
  split_ifs <;> rfl

theorem byteAt_drop {bv : Bytes} {n : Nat} (j : Nat) : byteAt (bv.drop n) j = byteAt bv (n + j) := by
  rw [byteAt,List.getElem?_drop]
  rfl

theorem blit_spec (src dst : Bytes) (srcoff dstoff len : Nat) (hs : srcoff + len ≤ src.length)
    (hd : dstoff + len ≤ dst.length) : ∃ r, Bytes.blit src srcoff dst dstoff len = some r ∧ r.length = dst.length ∧
      ∀ j, byteAt r j = if dstoff ≤ j ∧ j < dstoff + len then byteAt src (srcoff + (j - dstoff)) else byteAt dst j := by
  refine ⟨_,if_pos ⟨hs,hd⟩,?_,fun j => ?_⟩
  · simp only [List.length_append,List.length_take,List.length_drop]
    omega
  · rw [byteAt_append,byteAt_append,List.length_append,List.length_take,List.length_take,List.length_drop,
      Nat.min_eq_left (by omega),Nat.min_eq_left (by omega)]
    rcases Nat.lt_or_ge j dstoff with h | h
    · rw [if_pos (by omega),if_pos h,if_neg (by omega),byteAt_take,if_pos h]
    rcases Nat.lt_or_ge j (dstoff + len) with h' | h'
    · rw [if_pos h',if_neg (by omega),if_pos ⟨h,h'⟩,byteAt_take,if_pos (by omega),byteAt_drop]
    · rw [if_neg (by omega),if_neg (by omega),byteAt_drop]
      exact congrArg _ (by omega)

theorem length_create (contents : Nat → Byte) (n : Nat) : (Bytes.create contents n).length = n := by
  simp [Bytes.create]

theorem mask_bit {r p : Nat} (hr : r < 8) (hp : p < 8) : ((1 <<< r - 1 : Byte)).getLsbD p = decide (p < r) := by
  have all : ∀ r p : Fin 8, ((1 <<< r.val - 1 : Byte)).getLsbD p.val = decide (p.val < r.val) := by decide
  exact all ⟨r,hr⟩ ⟨p,hp⟩

theorem bit_padded {bv : Bytes} {n m : Nat} (h : n ≤ bv.length) (k : Nat) :
    bit (bv.take n ++ List.replicate m 0) k = (decide (k / 8 < n) && bit bv k) := by
  rw [bit,bit,byteAt_append,List.length_take,Nat.min_eq_left h,byteAt_take,byteAt_replicate]
  by_cases hk : k / 8 < n
  · rw [if_pos hk,if_pos hk,decide_eq_true hk,Bool.true_and]
  · rw [if_neg hk,decide_eq_false hk,Bool.false_and]
    exact BitVec.getLsbD_zero

theorem cleanTrail_spec {size : Nat} {bv : Bytes} (h : (size + 7) / 8 ≤ bv.length) :
    ∃ bv', cleanTrail size bv = some bv' ∧ bv'.length = bv.length ∧
      ∀ k, bit bv' k = (decide (k < size) && bit bv k) := by
  have hlast : (((size + 7) / 8 : Nat) - 1 : Int) < bv.length := by omega
  have hnext : ((((size + 7) / 8 : Nat) - 1 : Int) + 1).toNat = (size + 7) / 8 := by omega
  unfold cleanTrail
  simp only [hlast,guard_true,Option.pure_def,Option.bind_eq_bind,Option.bind_some,hnext,and_seven]
  by_cases hr : size % 8 > 0
  · have hpos : (((size + 7) / 8 : Nat) - 1 : Int) = ((size / 8 : Nat) : Int) := by omega
    have hlt : size / 8 < bv.length := by omega
    simp only [if_pos hr,hpos,get_eq_byteAt hlt,Int.toNat_natCast,Bytes.set,if_pos hlt,Option.bind_some,List.length_set]
    refine ⟨_,rfl,?_,fun k => ?_⟩
    · rw [List.length_append,List.length_take,List.length_set,List.length_replicate]
      omega
    · rw [bit_padded (by rw [List.length_set]; exact h),bit,byteAt_set hlt]
      by_cases hk : k / 8 = size / 8
      · rw [if_pos hk,BitVec.getLsbD_and,mask_bit (Nat.mod_lt _ (by decide)) (Nat.mod_lt _ (by decide)),← hk]
        have h1 : k / 8 < (size + 7) / 8 := by omega
        have h2 : decide (k % 8 < size % 8) = decide (k < size) := decide_eq_decide.mpr (by omega)
        rw [decide_eq_true h1,Bool.true_and,h2,Bool.and_comm]
        rfl
      · rw [if_neg hk]
        have h2 : decide (k / 8 < (size + 7) / 8) = decide (k < size) := decide_eq_decide.mpr (by omega)
        rw [h2]
        rfl
  · simp only [if_neg hr]
    refine ⟨_,rfl,?_,fun k => ?_⟩
    · rw [List.length_append,List.length_take,List.length_replicate]
      omega
    · rw [bit_padded h]
      have h2 : decide (k / 8 < (size + 7) / 8) = decide (k < size) := decide_eq_decide.mpr (by omega)
      rw [h2]

/-- The byte that the loop started at `i` with `prevByte` writes at a position. -/
def shifted (bv2 : Bytes) (fstBits sndBits len1 str2 i : Nat) (prevByte : Byte) (j : Nat) : Byte :=
  (if j = len1 + i then prevByte else byteAt bv2 (j - len1 - 1) >>> sndBits) |||
    if j < len1 + str2 then byteAt bv2 (j - len1) <<< fstBits else 0

theorem loop_spec {bv2 : Bytes} (fstBits sndBits len1 str2 i : Nat) {newlen : Nat} {copy : Bytes} {prevByte : Byte}
    (hstr : str2 ≤ bv2.length) (hi : i ≤ str2) (hpos : 0 < str2) (hlen : copy.length = newlen)
    (hnew : len1 + str2 ≤ newlen) (hnew' : newlen ≤ len1 + str2 + 1)
    (hprev : 0 < i → prevByte = byteAt bv2 (i - 1) >>> sndBits) :
    ∃ copy', loop bv2 fstBits sndBits len1 str2 newlen copy prevByte i = some copy' ∧ copy'.length = newlen ∧
      ∀ j < newlen, byteAt copy' j =
        if j < len1 + i then byteAt copy j else shifted bv2 fstBits sndBits len1 str2 i prevByte j := by
  induction hn : str2 - i generalizing i copy prevByte with
  | zero =>
    have hi' : i = str2 := by omega
    subst hi'
    rw [loop]
    simp only [if_neg (Nat.lt_irrefl i)]
    by_cases hj : len1 + i < newlen
    · have hlast : ((i : Int) - 1) = ((i - 1 : Nat) : Int) := by omega
      simp only [if_pos hj,hlast,get_eq_byteAt (show i - 1 < bv2.length by omega),Option.bind_eq_bind,Option.bind_some,
        Bytes.set,if_pos (show len1 + i < copy.length by omega)]
      refine ⟨_,rfl,by rw [List.length_set,hlen],fun j hjn => ?_⟩
      rw [byteAt_set (by omega)]
      by_cases hjj : j = len1 + i
      · rw [if_pos hjj,if_neg (by omega),shifted,if_pos hjj,if_neg (by omega),hprev hpos]
        exact BitVec.or_zero.symm
      · rw [if_neg hjj,if_pos (by omega)]
    · simp only [if_neg hj]
      exact ⟨copy,rfl,hlen,fun j hjn => by rw [if_pos (by omega)]⟩
  | succ n ih =>
    have hlt : i < str2 := by omega
    have hcopy : len1 + i < copy.length := by omega
    rw [loop]
    simp only [if_pos hlt,get_eq_byteAt (show i < bv2.length by omega),Option.bind_eq_bind,Option.bind_some,Bytes.set,
      if_pos hcopy]
    obtain ⟨copy',he,hlen',hbytes⟩ := ih (i + 1) (by omega)
      (by rw [List.length_set,hlen] : (List.set copy (len1 + i) (prevByte ||| byteAt bv2 i <<< fstBits)).length = newlen) (fun _ => by rw [Nat.add_sub_cancel] : _ → byteAt bv2 i >>> sndBits = _) (by omega)
    refine ⟨copy',he,hlen',fun j hj => ?_⟩
    rw [hbytes j hj,byteAt_set hcopy]
    rcases Nat.lt_trichotomy j (len1 + i) with h | h | h
    · rw [if_pos (by omega),if_neg (by omega),if_pos h]
    · have hsub : j - len1 = i := by omega
      rw [if_pos (by omega),if_pos h,if_neg (by omega),shifted,if_pos h,if_pos (by omega),hsub]
    · rw [if_neg (by omega),if_neg (by omega),shifted,shifted,if_neg (show ¬ j = len1 + i by omega)]
      by_cases hj' : j = len1 + (i + 1)
      · have hsub : j - len1 - 1 = i := by omega
        rw [if_pos hj',hsub]
      · rw [if_neg hj']

theorem getLsbD_shifted {bv2 : Bytes} {r len1 str2 j p : Nat} {b : Byte} (hr8 : r < 8) (hp : p < 8)
    (hj : len1 ≤ j) (hstr : j ≤ len1 + str2) : (shifted bv2 r (8 - r) len1 str2 0 b j).getLsbD p =
      (decide (j = len1) && b.getLsbD p || decide (len1 * 8 + r ≤ j * 8 + p ∧ j * 8 + p < len1 * 8 + r + str2 * 8) &&
        bit bv2 (j * 8 + p - (len1 * 8 + r))) := by
  have high : (if j < len1 + str2 then byteAt bv2 (j - len1) <<< r else 0).getLsbD p =
      (decide (r ≤ p ∧ j < len1 + str2) && bit bv2 (j * 8 + p - (len1 * 8 + r))) := by
    by_cases hlt : j < len1 + str2
    · rw [if_pos hlt,BitVec.getLsbD_shiftLeft]
      by_cases hrp : r ≤ p
      · have h1 : (j * 8 + p - (len1 * 8 + r)) / 8 = j - len1 := by omega
        have h2 : (j * 8 + p - (len1 * 8 + r)) % 8 = p - r := by omega
        simp [hp,hrp,hlt,bit,h1,h2]
      · simp [hrp,Nat.lt_of_not_le hrp]
    · simp [hlt]
  rw [shifted,BitVec.getLsbD_or,high,Nat.add_zero]
  by_cases hjl : j = len1
  · rw [if_pos hjl,decide_eq_true hjl,Bool.true_and]
    congr 2
    exact decide_eq_decide.mpr (by omega)
  · rw [if_neg hjl,decide_eq_false hjl,Bool.false_and,Bool.false_or,BitVec.getLsbD_ushiftRight]
    by_cases hpr : p < r
    · have h1 : (j * 8 + p - (len1 * 8 + r)) / 8 = j - len1 - 1 := by omega
      have h2 : (j * 8 + p - (len1 * 8 + r)) % 8 = 8 - r + p := by omega
      have h3 : len1 * 8 + r ≤ j * 8 + p ∧ j * 8 + p < len1 * 8 + r + str2 * 8 := by omega
      have h4 : ¬ (r ≤ p ∧ j < len1 + str2) := by omega
      rw [decide_eq_true h3,decide_eq_false h4,bit,h1,h2]
      simp
    · rw [BitVec.getLsbD_of_ge _ _ (by omega),Bool.false_or]
      congr 1
      exact decide_eq_decide.mpr (by omega)

/-- The result that the interface describes: the first `size1` bits of the first vector, the first
`size2` bits of the second, then zeros up to a whole number of bytes. -/
def Concatenates (bv1 : Bytes) (size1 : Nat) (bv2 : Bytes) (size2 : Nat) (r : Option Bytes) : Prop :=
  ∃ bv, r = some bv ∧ bv.length = (size1 + size2 + 7) / 8 ∧ ∀ i < capacity bv, bit bv i =
    if i < size1 then bit bv1 i else if i < size1 + size2 then bit bv2 (i - size1) else false

/-- On a byte boundary the second vector must hold no bit past its size in its last byte. Elsewhere it
must not be empty, and must cover the bits that the first vector holds past its size in its last byte. -/
def Fits (bv1 : Bytes) (size1 : Nat) (bv2 : Bytes) (size2 : Nat) : Prop :=
  if size1 % 8 = 0 then ∀ i, size2 ≤ i → i < 8 * ((size2 + 7) / 8) → bit bv2 i = false
  else 0 < size2 ∧ ∀ i, size1 ≤ i → i < size1 + size2 → i < 8 * (size1 / 8 + 1) → bit bv1 i = true →
    bit bv2 (i - size1) = true

section
variable (contents : Nat → Byte) {bv1 bv2 : Bytes} {size1 size2 : Nat}
  (h1 : size1 ≤ capacity bv1) (h2 : size2 ≤ capacity bv2)
include h1 h2

theorem concat_eq : ∃ copy : Bytes, copy.length = (size1 + size2 + 7) / 8 ∧
    (∀ j < size1 / 8, byteAt copy j = byteAt bv1 j) ∧
    concat contents bv1 size1 bv2 size2 =
      if size1 % 8 = 0 then Bytes.blit bv2 0 copy (size1 / 8) ((size2 + 7) / 8)
      else (Bytes.get bv1 (size1 / 8 : Nat)).bind fun b =>
        (loop bv2 (size1 % 8) (8 - size1 % 8) (size1 / 8) ((size2 + 7) / 8) ((size1 + size2 + 7) / 8) copy b 0).bind
          fun copy => cleanTrail (size1 + size2) copy := by
  unfold capacity at h1 h2
  obtain ⟨copy,hblit,hlen,hbytes⟩ := blit_spec bv1 (Bytes.create contents ((size1 + size2 + 7) / 8))
    0 0 (size1 / 8) (by omega) (by rw [length_create]; omega)
  refine ⟨copy,hlen.trans (length_create ..),fun j hj => ?_,?_⟩
  · rw [hbytes j,if_pos ⟨Nat.zero_le _,by omega⟩,Nat.zero_add,Nat.sub_zero]
  · have hg1 : (size1 + 7) / 8 ≤ bv1.length := by omega
    have hg2 : (size2 + 7) / 8 ≤ bv2.length := by omega
    unfold concat
    simp only [hg1,hg2,guard_true,Option.pure_def,Option.bind_eq_bind,Option.bind_some,hblit,and_seven]

theorem concat_aligned (h0 : size1 % 8 = 0) : ∃ bv, concat contents bv1 size1 bv2 size2 = some bv ∧
    bv.length = (size1 + size2 + 7) / 8 ∧
    ∀ i < capacity bv, bit bv i = if i < size1 then bit bv1 i else bit bv2 (i - size1) := by
  obtain ⟨copy,hlen,hcopy,he⟩ := concat_eq contents h1 h2
  unfold capacity at h1 h2
  obtain ⟨bv,hblit,hlen',hbytes⟩ := blit_spec bv2 copy 0 (size1 / 8) ((size2 + 7) / 8) (by omega)
    (by omega)
  rw [if_pos h0,hblit] at he
  refine ⟨bv,he,hlen'.trans hlen,fun i hi => ?_⟩
  rw [capacity,hlen',hlen] at hi
  rw [bit,hbytes]
  by_cases hlt : i < size1
  · rw [if_neg (by omega),if_pos hlt,hcopy _ (by omega)]
    rfl
  · have hdiv : 0 + (i / 8 - size1 / 8) = (i - size1) / 8 := by omega
    have hmod : i % 8 = (i - size1) % 8 := by omega
    rw [if_pos ⟨by omega,by omega⟩,if_neg hlt,hdiv,hmod]
    rfl

theorem concat_shifted (h0 : size1 % 8 ≠ 0) (hpos : 0 < size2) : ∃ bv, concat contents bv1 size1 bv2 size2 = some bv ∧
    bv.length = (size1 + size2 + 7) / 8 ∧
    ∀ i < capacity bv, bit bv i = if i < size1 then bit bv1 i else
      decide (i < size1 + size2) && (decide (i < 8 * (size1 / 8 + 1)) && bit bv1 i || bit bv2 (i - size1)) := by
  obtain ⟨copy,hlen,hcopy,he⟩ := concat_eq contents h1 h2
  unfold capacity at h1 h2
  obtain ⟨copy',hloop,hlen',hbytes⟩ := loop_spec (size1 % 8) (8 - size1 % 8) (size1 / 8)
    ((size2 + 7) / 8) 0 (by omega : _ ≤ bv2.length) (Nat.zero_le _) (by omega) hlen (by omega) (by omega)
    (fun h => absurd h (Nat.lt_irrefl 0) : _ → byteAt bv1 (size1 / 8) = _)
  obtain ⟨bv,hclean,hlen'',hbits⟩ := cleanTrail_spec (by omega : (size1 + size2 + 7) / 8 ≤ copy'.length)
  rw [if_neg h0,get_eq_byteAt (by omega),Option.bind_some,hloop,Option.bind_some,hclean] at he
  have hloopbits : ∀ k, k / 8 < (size1 + size2 + 7) / 8 → bit copy' k = if k / 8 < size1 / 8 then bit bv1 k else
      (decide (k / 8 = size1 / 8) && bit bv1 k ||
        decide (size1 ≤ k ∧ k < size1 + (size2 + 7) / 8 * 8) && bit bv2 (k - size1)) := fun k hk => by
    have hk8 : k / 8 * 8 + k % 8 = k := by omega
    have hs8 : size1 / 8 * 8 + size1 % 8 = size1 := by omega
    rw [bit,hbytes _ hk,Nat.add_zero]
    by_cases hj : k / 8 < size1 / 8
    · rw [if_pos hj,if_pos hj,hcopy _ hj]
      rfl
    · rw [if_neg hj,if_neg hj,getLsbD_shifted (by omega) (by omega) (by omega) (by omega),hk8,hs8]
      by_cases hje : k / 8 = size1 / 8
      · have hb : (byteAt bv1 (size1 / 8)).getLsbD (k % 8) = bit bv1 k := by rw [bit,hje]
        rw [hb]
      · rw [decide_eq_false hje,Bool.false_and,Bool.false_and]
  refine ⟨bv,he,hlen''.trans hlen',fun i hi => ?_⟩
  rw [capacity,hlen'',hlen'] at hi
  rw [hbits,hloopbits i (by omega)]
  by_cases hlt : i < size1
  · rw [if_pos hlt,decide_eq_true (show i < size1 + size2 by omega),Bool.true_and]
    by_cases hj : i / 8 < size1 / 8
    · rw [if_pos hj]
    · have hje : i / 8 = size1 / 8 := by omega
      have hno : ¬ (size1 ≤ i ∧ i < size1 + (size2 + 7) / 8 * 8) := by omega
      rw [if_neg hj,decide_eq_true hje,decide_eq_false hno,Bool.true_and,Bool.false_and,Bool.or_false]
  · rw [if_neg hlt,if_neg (show ¬ i / 8 < size1 / 8 by omega)]
    by_cases hend : i < size1 + size2
    · have hyes : size1 ≤ i ∧ i < size1 + (size2 + 7) / 8 * 8 := by omega
      have hdec : decide (i / 8 = size1 / 8) = decide (i < 8 * (size1 / 8 + 1)) := decide_eq_decide.mpr (by omega)
      rw [decide_eq_true hyes,hdec,Bool.true_and]
    · rw [decide_eq_false hend,Bool.false_and,Bool.false_and]

theorem concat_empty (h0 : size1 % 8 ≠ 0) (hzero : size2 = 0) : concat contents bv1 size1 bv2 size2 = none := by
  obtain ⟨copy,hlen,-,he⟩ := concat_eq contents h1 h2
  unfold capacity at h1 h2
  rw [he,if_neg h0,get_eq_byteAt (by omega),Option.bind_some,loop]
  subst hzero
  have hj : size1 / 8 < (size1 + 7) / 8 := by omega
  simp [hj,Bytes.get]

end

/-- Concatenation meets its description exactly on operands that fit. -/
theorem concat_correct_iff (contents : Nat → Byte) {bv1 bv2 : Bytes} {size1 size2 : Nat} (h1 : size1 ≤ capacity bv1)
    (h2 : size2 ≤ capacity bv2) :
    Concatenates bv1 size1 bv2 size2 (concat contents bv1 size1 bv2 size2) ↔ Fits bv1 size1 bv2 size2 := by
  unfold Concatenates Fits
  by_cases h0 : size1 % 8 = 0
  · rw [if_pos h0]
    obtain ⟨bv,he,hlen,hbits⟩ := concat_aligned contents h1 h2 h0
    simp only [he,Option.some.injEq,exists_eq_left',hlen,true_and]
    have hcap : capacity bv = size1 + 8 * ((size2 + 7) / 8) := by
      rw [capacity,hlen]
      omega
    constructor
    · intro h i hge hlt
      have := h (size1 + i) (by omega)
      rw [hbits _ (by omega),if_neg (by omega),if_neg (by omega),if_neg (by omega),Nat.add_sub_cancel_left] at this
      exact this
    · intro h i hi
      rw [hbits i hi]
      split_ifs with hlt hend
      · rfl
      · rfl
      · exact h (i - size1) (by omega) (by omega)
  · rw [if_neg h0]
    rcases Nat.eq_zero_or_pos size2 with hz | hpos
    · rw [concat_empty contents h1 h2 h0 hz]
      simp [hz]
    · obtain ⟨bv,he,hlen,hbits⟩ := concat_shifted contents h1 h2 h0 hpos
      simp only [he,Option.some.injEq,exists_eq_left',hlen,true_and,hpos]
      constructor
      · intro h i hge hend hlast hbit
        have := h i (by rw [capacity,hlen]; omega)
        rw [hbits i (by rw [capacity,hlen]; omega),if_neg (by omega),if_neg (by omega),if_pos hend,decide_eq_true hend,
          decide_eq_true hlast,hbit] at this
        simpa using this.symm
      · intro h i hi
        rw [hbits i hi]
        split_ifs with hlt hend
        · rfl
        · rw [decide_eq_true hend,Bool.true_and]
          by_cases hlast : i < 8 * (size1 / 8 + 1)
          · cases hbit : bit bv1 i with
            | false => simp
            | true => simp [hlast,h i (by omega) hend hlast hbit]
          · simp [hlast]
        · rw [decide_eq_false hend,Bool.false_and]

theorem concat_correct_eleven :
    Concatenates [0xff,0x07] 11 [0x15] 5 (concat (fun _ => 0xaa) [0xff,0x07] 11 [0x15] 5) := by
  refine (concat_correct_iff (fun _ => 0xaa) (by decide) (by decide)).mpr ⟨by decide,fun i h1 h2 h3 hbit => ?_⟩
  have all : ∀ i < 16, 11 ≤ i → bit [0xff,0x07] i = false := by decide
  rw [all i h2 h1] at hbit
  cases hbit

/-- An empty second vector raises after a size that is not a multiple of 8; the fourth bit of the first
vector replaces the first bit of the second; the eighth bit of the second stays after its seven bits. -/
theorem concat_not_description : let contents := fun _ => 0
    concat contents [0x07] 3 [] 0 = none ∧
    ¬ Concatenates [0x07] 3 [] 0 (concat contents [0x07] 3 [] 0) ∧
    ¬ Concatenates [0x0f] 3 [0x00] 1 (concat contents [0x0f] 3 [0x00] 1) ∧
    ¬ Concatenates [] 0 [0xff] 7 (concat contents [] 0 [0xff] 7) := by
  intro contents
  have hempty : concat contents [0x07] 3 [] 0 = none := concat_empty contents (by decide) (by decide) (by decide) rfl
  refine ⟨hempty,?_,?_,?_⟩
  · rintro ⟨bv,he,-⟩
    rw [hempty] at he
    cases he
  · rintro ⟨bv,he,hlen,hb⟩
    obtain ⟨bv',he',-,hb'⟩ := concat_shifted contents (by decide : 3 ≤ capacity [0x0f])
      (by decide : 1 ≤ capacity [0x00]) (by decide) (by decide)
    rw [he'] at he
    cases he
    have hi : 3 < capacity bv := by
      rw [capacity,hlen]
      decide
    exact absurd ((hb 3 hi).symm.trans (hb' 3 hi)) (by decide)
  · rintro ⟨bv,he,hlen,hb⟩
    obtain ⟨bv',he',-,hb'⟩ := concat_aligned contents (by decide : 0 ≤ capacity [])
      (by decide : 7 ≤ capacity [0xff]) (by decide)
    rw [he'] at he
    cases he
    have hi : 7 < capacity bv := by
      rw [capacity,hlen]
      decide
    exact absurd ((hb 7 hi).symm.trans (hb' 7 hi)) (by decide)

end FramaC.Bitvector
