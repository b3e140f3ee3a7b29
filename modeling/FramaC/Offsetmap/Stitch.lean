import FramaC.Offsetmap.Clip

/-! # Reading the bits of a node

`extract_bits_and_stitch` reads the part of a node that lies in the range of a read, one copy of
the repeated value after the other, and merges what it reads into an accumulator. `none` stands
for a failed assertion: on well-aligned nodes there is none.
-/
namespace FramaC.Offsetmap
open OffsetmapLattice Integer
variable {V : Type} [OffsetmapLattice V]

/-- The byte order of the machine and the two options that reads pass down. -/
structure ReadMode where
  littleEndian : Bool
  topify : OriginKind
  conflateBottom : Bool
  deriving DecidableEq, Repr

def extractBits (mode : ReadMode) (start stop modu : ℤ) (v : V) : Option (Bool × V) :=
  if start ≤ stop ∧ stop ≤ modu then
    let (start,stop) := if mode.littleEndian then (start,stop) else (modu - 1 - stop,modu - 1 - start)
    some (OffsetmapLattice.extractBits mode.topify start stop modu v)
  else none

def mergeBits (mode : ReadMode) (offset length : ℤ) (value : V)
    (totalLength : ℤ) (acc : V) : Option V :=
  if length + offset ≤ totalLength then
    let offset := if mode.littleEndian then offset else totalLength - offset - length
    let value := shiftBits mode.topify offset length value
    some (mergeDistinctBits mode.topify mode.conflateBottom value acc)
  else none

/-- One step of a read: the copy of the value that holds the bit `min`. -/
def extractSingleStep (mode : ReadMode)
    (offset size rem modu : ℤ) (v : V) (absMax maxBit min : ℤ) (acc : V) : Option (ℤ × V) :=
  if isIsotropic v then none
  else
    let intervalOffset := min - offset
    let start := (min - rem) % modu
    let moduEnd := if rem = 0 then modu - 1 else rem - 1
    let readEnd := Min.min (Min.min (roundUpToR min moduEnd modu) absMax) maxBit
    let stop := (readEnd - rem) % modu
    match extractBits mode start stop modu v with
    | none => none
    | some (_,readBits) =>
      match mergeBits mode intervalOffset (length start stop) readBits size acc with
      | none => none
      | some result => some (readEnd,result)

def stitchLoop (mode : ReadMode) (offset size rem modu : ℤ)
    (v : V) (absMax maxBit : ℤ) : ℕ → ℤ → V → Option V
  | 0,_,_ => none
  | fuel + 1,startPoint,acc =>
    if startPoint ≤ min maxBit absMax then
      match extractSingleStep mode offset size rem modu v absMax maxBit startPoint acc with
      | none => none
      | some (readEnd,result) =>
        stitchLoop mode offset size rem modu v absMax maxBit fuel (readEnd + 1) result
    else some acc

/-- `offset` and `size` are those of the whole read, `currOff` and `max` those of the node. -/
def extractBitsAndStitch (mode : ReadMode) (offset size currOff : ℤ)
    (vv : ℤ × ℤ × V) (max : ℤ) (acc : V) : Option V :=
  let (rem,modu,v) := vv
  let rem := (currOff + rem) % modu
  let absMax := currOff + max
  let maxBit := offset + size - 1
  let start := Max.max offset currOff
  let stop := min maxBit absMax
  if isIsotropic v then
    mergeBits mode (start - offset) (length start stop) v size acc
  else
    stitchLoop mode offset size rem modu v absMax maxBit ((stop - start + 1).toNat + 1)
      start acc

section Total
variable {mode : ReadMode} {offset size rem modu : ℤ} {v : V}

theorem emod_le_emod_of_le_roundUp {min moduEnd x : ℤ} (hrem : 0 ≤ rem) (hlt : rem < modu)
    (hend : moduEnd = if rem = 0 then modu - 1 else rem - 1) (hx : min ≤ x) (hx' : x ≤ roundUpToR min moduEnd modu) :
    (min - rem) % modu ≤ (x - rem) % modu ∧ length ((min - rem) % modu) ((x - rem) % modu) = x - min + 1 := by
  have hm : 0 < modu := by omega
  have h0 := Int.emod_nonneg (min - rem) hm.ne'
  have h1 := Int.emod_lt_of_pos (min - rem) hm
  have hdiv := Int.mul_ediv_add_emod (min - rem) modu
  -- the last bit of the copy is a candidate for the rounding
  have hlast : roundUpToR min moduEnd modu ≤ min + (modu - 1 - (min - rem) % modu) := by
    apply roundUpToR_le hm
    · have hcong : min + (modu - 1 - (min - rem) % modu) = (rem - 1) + modu * ((min - rem) / modu + 1) := by
        linarith
      rw [hcong,Int.add_mul_emod_self_left,hend]
      split
      · rename_i hz
        rw [hz,show (0 - 1 : ℤ) = (modu - 1) + modu * (-1) by ring,Int.add_mul_emod_self_left,
          Int.emod_eq_of_lt (by omega) (by omega)]
      · exact Int.emod_eq_of_lt (by omega) (by omega)
    · omega
  have hmod : (x - rem) % modu = (min - rem) % modu + (x - min) := by
    rw [show x - rem = ((min - rem) % modu + (x - min)) + modu * ((min - rem) / modu) by linarith,
      Int.add_mul_emod_self_left,Int.emod_eq_of_lt (by omega) (by omega)]
  rw [hmod]
  refine ⟨by omega,?_⟩
  unfold length
  omega

theorem extractBits_some (mode : ReadMode) {start stop : ℤ} (v : V) (h1 : start ≤ stop) (h2 : stop ≤ modu) :
    ∃ r, extractBits mode start stop modu v = some r := ⟨_,if_pos ⟨h1,h2⟩⟩

theorem mergeBits_some (mode : ReadMode) {len totalLength : ℤ} (v : V) (h : len + offset ≤ totalLength) (acc : V) :
    ∃ r, mergeBits mode offset len v totalLength acc = some r := ⟨_,if_pos h⟩

theorem extractSingleStep_some (hv : isIsotropic v = false) (hrem : 0 ≤ rem) (hlt : rem < modu) {absMax min : ℤ}
    (hle : min ≤ Min.min (offset + size - 1) absMax) (acc : V) :
    ∃ readEnd result, min ≤ readEnd ∧ extractSingleStep mode offset size rem modu v absMax
      (offset + size - 1) min acc = some (readEnd,result) := by
  have hm : 0 < modu := by omega
  set moduEnd := if rem = 0 then modu - 1 else rem - 1 with hend
  have hru := le_roundUpToR (b := min) (r := moduEnd) hm
  obtain ⟨readEnd,hread⟩ : ∃ x, x = Min.min (Min.min (roundUpToR min moduEnd modu) absMax) (offset + size - 1) :=
    ⟨_,rfl⟩
  obtain ⟨h1,h2⟩ := emod_le_emod_of_le_roundUp hrem hlt hend (show min ≤ readEnd by omega) (by omega)
  have h3 := Int.emod_lt_of_pos (readEnd - rem) hm
  have h4 : length ((min - rem) % modu) ((readEnd - rem) % modu) + (min - offset) ≤ size := by omega
  obtain ⟨r,hr⟩ := extractBits_some mode v h1 h3.le
  obtain ⟨w,hw⟩ := mergeBits_some mode r.2 h4 acc
  refine ⟨readEnd,w,by omega,?_⟩
  unfold extractSingleStep
  simp only [hv,Bool.false_eq_true,if_false,← hend,← hread,hr,hw]

theorem stitchLoop_some (hv : isIsotropic v = false) (hrem : 0 ≤ rem) (hlt : rem < modu) {absMax : ℤ} {fuel : ℕ}
    {start : ℤ} (hfuel : min (offset + size - 1) absMax - start + 1 < fuel)
    (hpos : 0 < fuel) (acc : V) : ∃ w, stitchLoop mode offset size rem modu v absMax
      (offset + size - 1) fuel start acc = some w := by
  induction fuel generalizing start acc with
  | zero => omega
  | succ fuel ih =>
    rw [stitchLoop]
    split
    · rename_i hle
      obtain ⟨readEnd,result,h1,h2⟩ := extractSingleStep_some hv hrem hlt hle acc
      rw [h2]
      exact ih (by push_cast at hfuel; omega) (by push_cast at hfuel; omega) result
    · exact ⟨acc,rfl⟩

theorem extractBitsAndStitch_some (hv : isIsotropic v = true ∨ 0 < modu) (currOff max : ℤ) (acc : V) :
    ∃ w, extractBitsAndStitch mode offset size currOff (rem,modu,v) max acc = some w := by
  unfold extractBitsAndStitch
  dsimp only
  split
  · apply mergeBits_some
    unfold length
    omega
  · rename_i hiso
    have hm := hv.resolve_left hiso
    apply stitchLoop_some (by simpa using hiso) (Int.emod_nonneg _ hm.ne') (Int.emod_lt_of_pos _ hm)
    · omega
    · omega

end Total

theorem emod_realign (a b rem modu : ℤ) : (b + realign a b rem modu) % modu = (a + rem) % modu := by
  rw [realign,Int.add_emod_emod]
  congr 1
  ring

theorem stitchLoop_min (mode : ReadMode) (offset size rem modu : ℤ) (v : V) (absMax maxBit : ℤ) (fuel : ℕ) (start : ℤ)
    (acc : V) : stitchLoop mode offset size rem modu v (min maxBit absMax) maxBit fuel start acc =
      stitchLoop mode offset size rem modu v absMax maxBit fuel start acc := by
  have hstep : ∀ x w, extractSingleStep mode offset size rem modu v (min maxBit absMax) maxBit x w =
      extractSingleStep mode offset size rem modu v absMax maxBit x w := by
    intro x w
    unfold extractSingleStep
    dsimp only
    rw [show ∀ y, min (min y (min maxBit absMax)) maxBit = min (min y absMax) maxBit by intro y; omega]
  induction fuel generalizing start acc with
  | zero => rfl
  | succ fuel ih => rw [stitchLoop,stitchLoop,hstep,← min_assoc,min_self,funext₂ ih]

theorem extractBitsAndStitch_clip (mode : ReadMode) (offset size : ℤ) (s : Seg V) (acc : V) :
    extractBitsAndStitch mode offset size (max offset s.lo) (realign s.lo (max offset s.lo) s.rem s.modu,s.modu,s.v)
        (min (offset + size - 1) s.hi - max offset s.lo) acc =
      extractBitsAndStitch mode offset size s.lo (s.rem,s.modu,s.v) (s.hi - s.lo) acc := by
  unfold extractBitsAndStitch
  simp only [emod_realign,add_sub_cancel,stitchLoop_min,← max_assoc,max_self,← min_assoc,min_self]

end FramaC.Offsetmap
