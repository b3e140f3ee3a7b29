import FramaC.EAcsl.Bits
import FramaC.EAcsl.Memory

/-! # Static blocks of the segment model

The shadow encoding of stack, TLS and global blocks in `e_acsl_segment_tracking.h`. Shadows are indexed by the
application address they stand for. A primary byte holds two status bits under a six-bit code; the code gives length
and offset of a short block, or the place of the metadata of a long block in the secondary shadow.
-/
namespace FramaC.EAcsl.Segment

structure Shadow where
  primary : Bytes
  secondary : Bytes

def Shadow.zero : Shadow := ⟨fun _ => 0,fun _ => 0⟩

def readonlyBit : ℕ := 1

def longBlock : ℕ := 8

def isLongBlock (size : ℕ) : Bool := decide (size > longBlock)

def longBlockBoundary (size : ℕ) : ℕ := size - size % longBlock

def longBlockMask : BitVec 64 := 15913703276567643328

def longBlockIndexStart : ℕ := 48

def shortLengths : List ℕ := [
  0,
  1,
  2,2,
  3,3,3,
  4,4,4,4,
  5,5,5,5,5,
  6,6,6,6,6,6,
  7,7,7,7,7,7,7,
  8,8,8,8,8,8,8,8]

def shortOffsets : List ℕ := [
  0,
  0,
  0,1,
  0,1,2,
  0,1,2,3,
  0,1,2,3,4,
  0,1,2,3,4,5,
  0,1,2,3,4,5,6,
  0,1,2,3,4,5,6,7]

def shortOffsetsBase : List ℕ := [0,1,2,4,7,11,16,22,29]

def staticInitMasks : List (BitVec 64) := [
  0,
  1,
  257,
  65793,
  16843009,
  4311810305,
  1103823438081,
  282578800148737,
  72340172838076673]

def staticReadonlyMasks : List (BitVec 64) := [
  0,
  2,
  514,
  131586,
  33686018,
  8623620610,
  2207646876162,
  565157600297474,
  144680345676153346]

def Shadow.setPrimary (s : Shadow) (a : ℕ) (v : BitVec 8) : Shadow :=
  { s with primary := Function.update s.primary a v }

/-- Turn `k` of the loop over the eight-byte segments of a long block. -/
def setLongSegment (ptr size : ℕ) (s : Shadow) (k : ℕ) : Shadow where
  primary := store64 s.primary (ptr + 8 * k) longBlockMask
  secondary := store32 (store32 s.secondary (ptr + 8 * k) (BitVec.ofNat 32 size)) (ptr + 8 * k + 4)
    (BitVec.ofNat 32 (8 * k))

def setLongRemainder (ptr boundary : ℕ) (s : Shadow) (t : ℕ) : Shadow :=
  let i := boundary + t
  s.setPrimary (ptr + i) (BitVec.ofNat 8 (i % longBlock + longBlockIndexStart + longBlock) <<< 2)

def setShort (ptr size : ℕ) (s : Shadow) (i : ℕ) : Shadow :=
  s.setPrimary (ptr + i) (BitVec.ofNat 8 (shortOffsetsBase.getD size 0 + i) <<< 2)

def shadowAlloca (s : Shadow) (ptr size : ℕ) : Shadow :=
  let s := if size = 0 then s.setPrimary ptr (setbit readonlyBit (s.primary ptr)) else s
  if isLongBlock size then
    let boundary := longBlockBoundary size
    let s := (List.range (boundary / longBlock)).foldl (setLongSegment ptr size) s
    (List.range (size - boundary)).foldl (setLongRemainder ptr boundary) s
  else (List.range size).foldl (setShort ptr size) s

inductive Query where
  | base
  | offset
  | length

def staticInfo (s : Shadow) (addr : ℕ) (type : Query) : ℕ :=
  if s.primary addr ≠ 0 then
    let code := (s.primary addr >>> 2).toNat
    if longBlockIndexStart ≤ code then
      let offset := code - longBlockIndexStart
      let sec0 := (load32 s.secondary (addr - offset)).toNat
      let sec1 := (load32 s.secondary (addr - offset + 4)).toNat
      match type with
      | .base => addr - offset - sec1
      | .offset => sec1 + offset
      | .length => sec0
    else
      match type with
      | .base => addr - shortOffsets.getD code 0
      | .offset => shortOffsets.getD code 0
      | .length => shortLengths.getD code 0
  else 0

def belongs (addr base length : ℕ) : Bool := decide (base ≤ addr ∧ addr < base + length)

def staticAllocated (s : Shadow) (addr size basePtr : ℕ) : Bool :=
  if s.primary addr ≠ 0 then
    let code := (s.primary addr >>> 2).toNat
    let (length,offset) :=
      if longBlockIndexStart ≤ code then
        let offset := code - longBlockIndexStart
        ((load32 s.secondary (addr - offset)).toNat,(load32 s.secondary (addr - offset + 4)).toNat + offset)
      else (shortLengths.getD code 0,shortOffsets.getD code 0)
    if addr ≠ basePtr then belongs basePtr (addr - offset) length && decide (offset + size ≤ length)
    else decide (offset + size ≤ length)
  else false

/-- Bytes covered by turn `i` of a loop that takes eight bytes at a time. -/
def remaining (size i : ℕ) : ℕ := if size - 8 * i ≥ 8 then 8 else size - 8 * i

def staticInitialized (s : Shadow) (addr size : ℕ) : Bool :=
  if staticAllocated s addr size addr then
    (List.range ((size + 7) / 8)).all fun i =>
      let mask := staticInitMasks.getD (remaining size i) 0
      load64 s.primary (addr + 8 * i) &&& mask == mask
  else false

/-- The loop of `initialize_static_region` and `mark_readonly_region`. -/
def markRegion (masks : List (BitVec 64)) (m : Bytes) (addr size : ℕ) : Bytes :=
  (List.range ((size + 7) / 8)).foldl
    (fun m i => store64 m (addr + 8 * i) (load64 m (addr + 8 * i) ||| masks.getD (remaining size i) 0)) m

def initializeStaticRegion (s : Shadow) (addr size : ℕ) : Shadow :=
  { s with primary := markRegion staticInitMasks s.primary addr size }

def markReadonlyRegion (s : Shadow) (addr size : ℕ) : Shadow :=
  { s with primary := markRegion staticReadonlyMasks s.primary addr size }

def zeroRange (m : Bytes) (a n : ℕ) : Bytes := fun x => if a ≤ x ∧ x < a + n then 0 else m x

def shadowFreea (s : Shadow) (ptr : ℕ) : Shadow :=
  let size := staticInfo s ptr .length
  ⟨zeroRange s.primary ptr size,zeroRange s.secondary ptr size⟩

/-- The code of byte `i` of a block of `n` bytes. -/
def blockCode (n i : ℕ) : ℕ :=
  if n ≤ longBlock then shortOffsetsBase.getD n 0 + i
  else if i < longBlockBoundary n then longBlockIndexStart + i % longBlock
  else longBlockIndexStart + longBlock + i % longBlock

theorem longBlockMask_byte {j : ℕ} (hj : j < 8) :
    longBlockMask.extractLsb' (8 * j) 8 = BitVec.ofNat 8 (longBlockIndexStart + j) <<< 2 := by
  have hall : ∀ j : Fin 8, longBlockMask.extractLsb' (8 * j) 8 = BitVec.ofNat 8 (longBlockIndexStart + j) <<< 2 := by
    decide
  exact hall ⟨j,hj⟩

/-- The masks of a table set the bits `c` in the bytes of a partial word. -/
def MaskTable (masks : List (BitVec 64)) (c : BitVec 8) : Prop :=
  ∀ rem : Fin 9, ∀ j : Fin 8, (masks.getD rem 0).extractLsb' (8 * j) 8 = if (j : ℕ) < rem then c else 0

theorem staticInitMasks_table : MaskTable staticInitMasks 1 := by
  unfold MaskTable
  decide

theorem staticReadonlyMasks_table : MaskTable staticReadonlyMasks 2 := by
  unfold MaskTable
  decide

theorem remaining_le (size i : ℕ) : remaining size i < 9 := by
  unfold remaining
  split <;> omega

theorem markRegion_apply {masks : List (BitVec 64)} {c : BitVec 8} (ht : MaskTable masks c) (m : Bytes)
    (addr size x : ℕ) : markRegion masks m addr size x = if addr ≤ x ∧ x < addr + size then m x ||| c else m x := by
  have hloop : ∀ k, k ≤ (size + 7) / 8 → (List.range k).foldl
      (fun m i => store64 m (addr + 8 * i) (load64 m (addr + 8 * i) ||| masks.getD (remaining size i) 0)) m x =
        if addr ≤ x ∧ x < addr + size ∧ x < addr + 8 * k then m x ||| c else m x := by
    intro k
    induction k with
    | zero =>
      intro _
      have hno : ¬(addr ≤ x ∧ x < addr + size ∧ x < addr + 8 * 0) := by omega
      simp only [List.range_zero,List.foldl_nil,hno,if_false]
    | succ k ih =>
      intro hk
      simp only [List.range_succ,List.foldl_append,List.foldl_cons,List.foldl_nil]
      rw [store64_or,ih (by omega)]
      by_cases hin : addr + 8 * k ≤ x ∧ x < addr + 8 * k + 8
      · have hj : x - (addr + 8 * k) < 8 := by omega
        have hbyte := ht ⟨remaining size k,remaining_le size k⟩ ⟨x - (addr + 8 * k),hj⟩
        have hold : ¬(addr ≤ x ∧ x < addr + size ∧ x < addr + 8 * k) := by omega
        have hiff : (x - (addr + 8 * k) < remaining size k) ↔ (addr ≤ x ∧ x < addr + size ∧ x < addr + 8 * (k + 1)) := by
          unfold remaining
          split <;> omega
        simp only at hbyte
        simp only [hin,and_self,if_true,hold,if_false,hbyte,hiff]
        split
        · rfl
        · exact BitVec.or_zero
      · have hiff : (addr ≤ x ∧ x < addr + size ∧ x < addr + 8 * k) ↔
            (addr ≤ x ∧ x < addr + size ∧ x < addr + 8 * (k + 1)) := by omega
        rw [if_neg hin]
        simp only [hiff]
  have hiff : (addr ≤ x ∧ x < addr + size ∧ x < addr + 8 * ((size + 7) / 8)) ↔ (addr ≤ x ∧ x < addr + size) := by
    omega
  rw [markRegion,hloop _ (le_refl _)]
  simp only [hiff]

end FramaC.EAcsl.Segment
