import FramaC.Integer
import FramaC.Lib.Pivot

/-! # Offsetmaps: trees, zippers and smart constructors

An offsetmap is a binary tree of contiguous intervals of bits with relative offsets. The
hash-consing tag of a node is dropped: hash-consing makes physical equality coincide with
structural equality, and `V.equal` is equality. A relative alignment `Rel.t` is an integer.
-/
namespace FramaC
open Integer

/-- The kinds of origins that this module gives to imprecise values. -/
inductive OriginKind
  | misalignRead
  | merge
  deriving DecidableEq, Repr

/-- The argument of the functor `Offsetmap.Make`. -/
class OffsetmapLattice (V : Type) where
  bottom : V
  join : V → V → V
  isIncluded : V → V → Bool
  cardinalZeroOrOne : V → Bool
  isIsotropic : V → Bool
  topifyWithOrigin : OriginKind → V → V
  extractBits : (topify : OriginKind) → (start stop size : ℤ) → V → Bool × V
  shiftBits : (topify : OriginKind) → (offset size : ℤ) → V → V
  mergeDistinctBits : (topify : OriginKind) → (conflateBottom : Bool) → V → V → V
  mergeNeutralElement : V
  anisotropicCast : (size : ℤ) → V → V

/-- The booleans of `Int_Intervals_Map`, all of which are isotropic. -/
instance : OffsetmapLattice Bool where
  bottom := false
  join := or
  isIncluded b1 b2 := b2 || !b1
  cardinalZeroOrOne _ := false
  isIsotropic _ := true
  topifyWithOrigin _ v := v
  extractBits _ _ _ _ v := (false,v)
  shiftBits _ _ _ v := v
  -- `assert false` in the source, which does not call it on isotropic values
  mergeDistinctBits _ _ _ v := v
  mergeNeutralElement := false
  anisotropicCast _ v := v

/-- `Node (max, offl, subl, offr, subr, rem, modu, v)`: the interval has length `max + 1`. -/
inductive Offsetmap (V : Type)
  | empty
  | node (max offl : ℤ) (subl : Offsetmap V) (offr : ℤ) (subr : Offsetmap V) (rem modu : ℤ) (v : V)
  deriving DecidableEq, Repr

namespace Offsetmap
open OffsetmapLattice
variable {V : Type}

def realign (offset newOffset rem modu : ℤ) : ℤ := (offset - newOffset + rem) % modu

def signatureInterval (min max : ℤ) : ℤ := logxor (min - 1) max

def isAbove (min1 max1 min2 max2 : ℤ) : Bool :=
  if min1 ≤ 0 ∧ max1 ≥ 0 then true
  else if min2 ≤ 0 ∧ max2 ≥ 0 then false
  else decide (signatureInterval min1 max1 > signatureInterval min2 max2)

/-- The fields of a node: what a zipper stores and what the searches return. -/
structure Cell (V : Type) where
  max : ℤ
  offl : ℤ
  subl : Offsetmap V
  offr : ℤ
  subr : Offsetmap V
  rem : ℤ
  modu : ℤ
  v : V
  deriving DecidableEq, Repr

inductive Zipper (V : Type)
  | endZ
  | right (offset : ℤ) (c : Cell V) (z : Zipper V)
  | left (offset : ℤ) (c : Cell V) (z : Zipper V)

def rezip : Zipper V → ℤ → Offsetmap V → ℤ × Offsetmap V
  | .endZ, currOff, t => (currOff,t)
  | .right offset c z, currOff, t =>
    rezip z offset (.node c.max c.offl c.subl (currOff - offset) t c.rem c.modu c.v)
  | .left offset c z, currOff, t =>
    rezip z offset (.node c.max (currOff - offset) t c.offr c.subr c.rem c.modu c.v)

/-- The leftmost cell, with its absolute position; `none` is `Empty_tree`. -/
def leftmostChild (currOff : ℤ) (zipper : Zipper V) : Offsetmap V → Option (ℤ × Cell V × Zipper V)
  | .empty => none
  | .node max offl .empty offr subr rem modu v =>
    some (currOff,⟨max,offl,.empty,offr,subr,rem,modu,v⟩,zipper)
  | .node max offl (.node max' offl' subl' offr' subr' rem' modu' v') offr subr rem modu v =>
    let subl := .node max' offl' subl' offr' subr' rem' modu' v'
    leftmostChild (currOff + offl) (.left currOff ⟨max,offl,subl,offr,subr,rem,modu,v⟩ zipper) subl

def rightmostChild (currOff : ℤ) (zipper : Zipper V) : Offsetmap V → Option (ℤ × Cell V × Zipper V)
  | .empty => none
  | .node max offl subl offr .empty rem modu v =>
    some (currOff,⟨max,offl,subl,offr,.empty,rem,modu,v⟩,zipper)
  | .node max offl subl offr (.node max' offl' subl' offr' subr' rem' modu' v') rem modu v =>
    let subr := .node max' offl' subl' offr' subr' rem' modu' v'
    rightmostChild (currOff + offr) (.right currOff ⟨max,offl,subl,offr,subr,rem,modu,v⟩ zipper) subr

/-- The bounds of a map whose root is at `currOff`. -/
def minOffset (currOff : ℤ) : Offsetmap V → ℤ
  | .empty => currOff
  | .node _ offl subl _ _ _ _ _ => minOffset (currOff + offl) subl

def maxOffset (currOff : ℤ) : Offsetmap V → ℤ
  | .empty => currOff - 1
  | .node _ _ _ offr subr _ _ _ => maxOffset (currOff + offr) subr

def boundsOffset (currOff : ℤ) (m : Offsetmap V) : ℤ × ℤ := (minOffset currOff m,maxOffset currOff m)

section Lattice
variable [DecidableEq V] [OffsetmapLattice V]

/-- Two adjacent nodes hold the same repeated value, which the separation does not cut unless
it denotes at most one value. -/
def areMergeableNodes (leftOffset : ℤ) (left : ℤ × ℤ × V) (rightOffset : ℤ) (right : ℤ × ℤ × V) : Bool :=
  let (lrem,lmodu,lv) := left
  let (rrem,rmodu,rv) := right
  decide (lv = rv) && decide (lmodu = rmodu) &&
    decide (realign rightOffset leftOffset rrem rmodu = lrem) && (decide (rrem = 0) || cardinalZeroOrOne lv)

/-- The first half of `make_node`: the leftmost node of the right subtree. -/
def glueRight (currOff max offr : ℤ) (subr : Offsetmap V) (currVv : ℤ × ℤ × V) : ℤ × ℤ × Offsetmap V :=
  match leftmostChild (currOff + offr) .endZ subr with
  | none => (max,offr,subr)
  | some (offset,nr,zr) =>
    if areMergeableNodes currOff currVv offset (nr.rem,nr.modu,nr.v) then
      let (currOffr,newSubr) := rezip zr (offset + nr.offr) nr.subr
      (max + nr.max + 1,currOffr - currOff,newSubr)
    else (max,offr,subr)

/-- The second half of `make_node`: the rightmost node of the left subtree. -/
def glueLeft (currOff max rem modu : ℤ) (v : V) (offl : ℤ) (subl : Offsetmap V) (offr : ℤ) :
    ℤ × ℤ × ℤ × ℤ × Offsetmap V × ℤ :=
  match rightmostChild (currOff + offl) .endZ subl with
  | none => (currOff,max,rem,offl,subl,offr)
  | some (offset,nl,zl) =>
    if areMergeableNodes offset (nl.rem,nl.modu,nl.v) currOff (rem,modu,v) then
      let (newCurrOffl,newSubl) := rezip zl (offset + nl.offl) nl.subl
      let succNmax := nl.max + 1
      (currOff - succNmax,max + succNmax,realign currOff offset rem modu,newCurrOffl - offset,newSubl,
        offr + succNmax)
    else (currOff,max,rem,offl,subl,offr)

/-- Allocates a node and glues it to its two neighbours if they are mergeable. -/
def makeNode (currOff max offl : ℤ) (subl : Offsetmap V) (offr : ℤ) (subr : Offsetmap V) (rem modu : ℤ)
    (v : V) : ℤ × Offsetmap V :=
  let (rem,modu) := if isIsotropic v then (0,1) else (rem,modu)
  let (max,offr,subr) := glueRight currOff max offr subr (rem,modu,v)
  let (currOff,max,rem,offl,subl,offr) := glueLeft currOff max rem modu v offl subl offr
  (currOff,.node max offl subl offr subr rem modu v)

def intervalAux (span rem modu : ℤ) (v : V) : Offsetmap V :=
  let (rem,modu) := if isIsotropic v then (0,1) else (rem,modu)
  .node span 0 .empty (span + 1) .empty rem modu v

/-- Adds `[min..max]` next to the tree rooted at `currOff`. -/
@[grind =] def addNode (min max rem modu : ℤ) (v : V) (currOff : ℤ) : Offsetmap V → ℤ × Offsetmap V
  | .empty => (min,intervalAux (max - min) rem modu v)
  | .node nmax noffl nsubl noffr nsubr nrem nmodu nv =>
    let tree := .node nmax noffl nsubl noffr nsubr nrem nmodu nv
    let absMin := currOff
    let absMax := nmax + currOff
    if max < absMin then
      if isAbove min max absMin absMax then
        makeNode min (max - min) 0 .empty (absMin - min) tree rem modu v
      else
        let (newCurrOffl,newNode) := addNode min max rem modu v (currOff + noffl) nsubl
        makeNode currOff nmax (newCurrOffl - currOff) newNode noffr nsubr nrem nmodu nv
    else if isAbove min max absMin absMax then
      makeNode min (max - min) (absMin - min) tree (max - min + 1) .empty rem modu v
    else
      let (newCurrOffr,newNode) := addNode min max rem modu v (currOff + noffr) nsubr
      makeNode absMin nmax noffl nsubl (newCurrOffr - absMin) newNode nrem nmodu nv

/-- `union` with a non-empty left tree; `unionR` is the recursive call on its right subtree. -/
def unionNode (off1 : ℤ) (c : Cell V) (unionR : ℤ → Offsetmap V → ℤ × Offsetmap V) (off2 : ℤ) :
    Offsetmap V → ℤ × Offsetmap V
  | .empty => (off1,.node c.max c.offl c.subl c.offr c.subr c.rem c.modu c.v)
  | .node rmax roffl rsubl roffr rsubr rrem rmodu rv =>
    if isAbove off1 (c.max + off1) off2 (rmax + off2) then
      let (newCurrOffr,newSubr) := unionR off2 (.node rmax roffl rsubl roffr rsubr rrem rmodu rv)
      makeNode off1 c.max c.offl c.subl (newCurrOffr - off1) newSubr c.rem c.modu c.v
    else
      let (newCurrOffl,newSubl) := unionNode off1 c unionR (off2 + roffl) rsubl
      makeNode off2 rmax (newCurrOffl - off2) newSubl roffr rsubr rrem rmodu rv

def union (off1 : ℤ) (t1 : Offsetmap V) (off2 : ℤ) (t2 : Offsetmap V) : ℤ × Offsetmap V :=
  match t1 with
  | .empty =>
    match t2 with
    -- the source asserts that both offsets are equal here
    | .empty => (off1,.empty)
    | .node .. => (off2,t2)
  | .node lmax loffl lsubl loffr lsubr lrem lmodu lv =>
    unionNode off1 ⟨lmax,loffl,lsubl,loffr,lsubr,lrem,lmodu,lv⟩
      (fun o t => union (off1 + loffr) lsubr o t) off2 t2

end Lattice

end Offsetmap
end FramaC
