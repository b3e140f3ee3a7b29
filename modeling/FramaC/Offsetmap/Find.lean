import FramaC.Offsetmap.WellFormed
import FramaC.Ival.Meet

/-! # Reading and writing at the offsets of an ival

Offsets are first reduced by the validity of the base. `none` stands for an exception. A read
looks at the tree only through the clipped segments of its range, and an update only changes
those of its own interval: this gives the store/load and the frame properties.
-/
namespace FramaC

/-- `Base.validity`. -/
inductive Validity
  | empty
  | known (min max : ℤ)
  | unknown (min : ℤ) (known : Option ℤ) (max : ℤ)
  | variable (weak : Bool) (minAlloc maxAlloc maxAllocable : ℤ)
  | invalid
  deriving DecidableEq, Repr

def isWeakValidity : Validity → Bool
  | .variable weak _ _ _ => weak
  | _ => false

/-- `Tr_offset.t`, without the origin of an overlap. -/
inductive TrOffset
  | invalid
  | set (s : List ℤ)
  | interval (min max modu : ℤ)
  | overlap (min max : ℤ)
  deriving DecidableEq, Repr

namespace TrOffset
open Ival

/-- Reduces the offsets so that all accesses fit within `min` and `max`. -/
def reduceForBounds (sc : ℕ) (ival : Ival) (size min max : ℤ) : Res TrOffset :=
  if size = 0 then return .set []
  else do
    let maxValid := max - (size - 1)
    let validRange ← injectRange sc (some min) (some maxValid)
    let reducedIval ← narrow sc ival validRange
    match reducedIval with
    | .set s => return (if s = [] then .invalid else .set s)
    | .topItv (some min) (some max) _ modu =>
      return (if modu < size then .overlap min (max + (size - 1)) else .interval min max modu)
    | .topItv _ _ _ _ => .error .invalidArgument

def trimByValidity (sc : ℕ) (ival : Ival) (size : ℤ) : Validity → Res TrOffset
  | .invalid => return .invalid
  | .empty => return .set []
  | .known min max => reduceForBounds sc ival size min max
  | .unknown min _ max => reduceForBounds sc ival size min max
  | .variable _ _ maxAlloc _ => reduceForBounds sc ival size 0 maxAlloc

theorem trimByValidity_singleton {sc : ℕ} (hsc : 2 ≤ sc) {o size min max : ℤ} (hsize : 1 ≤ size) :
    trimByValidity sc (.set [o]) size (.known min max) =
      .ok (if min ≤ o ∧ o + size - 1 ≤ max then .set [o] else .invalid) := by
  obtain ⟨range,h1,h2,h3⟩ := injectRange_spec hsc (some min) (some (max - (size - 1)))
  obtain ⟨red,h4,h5,h6⟩ := narrow_spec hsc (wf_singleton hsc o) h2
  have hred : red = if min ≤ o ∧ o + size - 1 ≤ max then .set [o] else bottom := by
    have hmem : o ∈ concr range ↔ min ≤ o ∧ o + size - 1 ≤ max := by
      rw [h3,Progression.mem_prog]
      simp
      omega
    split
    · rename_i hin
      apply eq_of_concr_eq hsc h5 (wf_singleton hsc o)
      rw [h6]
      apply Set.inter_eq_left.mpr
      rintro x hx
      rw [mem_concr_set,List.mem_singleton] at hx
      exact hx ▸ hmem.mpr hin
    · rename_i hout
      apply (concr_eq_empty_iff h5).mp
      rw [h6,Set.eq_empty_iff_forall_notMem]
      rintro x ⟨hx,hx'⟩
      rw [mem_concr_set,List.mem_singleton] at hx
      exact hout (hmem.mp (hx ▸ hx'))
  rw [trimByValidity,reduceForBounds,if_neg (by omega)]
  dsimp only
  rw [h1,Res.ok_bind,h4,Res.ok_bind,hred]
  by_cases hin : min ≤ o ∧ o + size - 1 ≤ max
  · simp only [if_pos hin]
    rfl
  · simp only [if_neg hin]
    rfl

end TrOffset

namespace Offsetmap
open OffsetmapLattice Integer
variable {V : Type}

section Reads
variable [OffsetmapLattice V]

def findImpreciseBetween (firstBit lastBit treeOffset : ℤ) : Offsetmap V → V
  | .empty => bottom
  | .node max offl subl offr subr _ _ v =>
    let absMax := max + treeOffset
    let sublValue :=
      if firstBit < treeOffset then findImpreciseBetween firstBit lastBit (treeOffset + offl) subl else bottom
    let subrValue :=
      if lastBit > absMax then findImpreciseBetween firstBit lastBit (treeOffset + offr) subr else bottom
    let currentNodeValue :=
      if lastBit < treeOffset ∨ firstBit > absMax then bottom
      else if isIsotropic v then v
      else topifyWithOrigin .misalignRead v
    OffsetmapLattice.join sublValue (OffsetmapLattice.join subrValue currentNodeValue)

variable {α : Type}

/-- Reads one interval: `readValue` on a value that matches it, `readNodes` otherwise. The first
result tells how far a periodic read may jump. -/
def readItv (sinceAndPeriod : Option (ℤ × ℤ)) (start size : ℤ) (tree : Offsetmap V) (readValue : V → ℤ → α)
    (readNodes : ℤ → Cell V → Zipper V → ℤ → ℤ → Option α) : Option (Option ℤ × α) := do
  let (zipper,curOff,root) ← findBitOffset start .endZ 0 tree
  let r := (curOff + root.rem) % root.modu
  let readEnding := start + size - 1
  let nodeEnding := curOff + root.max
  let isotropic := isIsotropic root.v
  let readFitInNode := decide (readEnding ≤ nodeEnding)
  let value ←
    if readFitInNode && (isotropic || (decide (root.modu = size) && decide (start % root.modu = r))) then
      some (readValue root.v size)
    else readNodes curOff root zipper start size
  let readAhead :=
    match sinceAndPeriod with
    | none => none
    | some (since,period) =>
      if readEnding + size > nodeEnding then none
      else if isotropic || decide (period % root.modu = 0) then some nodeEnding
      else
        let since := max since curOff
        if start - since ≥ ppcm period root.modu then some nodeEnding else none
  some (readAhead,value)

def readOneItv (start size : ℤ) (tree : Offsetmap V) (readValue : V → ℤ → α)
    (readNodes : ℤ → Cell V → Zipper V → ℤ → ℤ → Option α) : Option α :=
  Prod.snd <$> readItv none start size tree readValue readNodes

def readSeries (min max period size : ℤ) (tree : Offsetmap V) (readValue : V → ℤ → α)
    (readNodes : ℤ → Cell V → Zipper V → ℤ → ℤ → Option α) (joinA : α → α → α) : ℕ → ℤ → α → Option α
  | 0,_,_ => none
  | fuel + 1,start,acc => do
    let r := min % period
    let (readAhead,v) ← readItv (some (min,period)) start size tree readValue readNodes
    let acc := joinA v acc
    let next :=
      match readAhead with
      | none => start + period
      | some readAhead => roundUpToR (readAhead + 1 - (size - 1)) r period
    if next ≤ max then readSeries min max period size tree readValue readNodes joinA fuel next acc else some acc

def readSeriesItv (min max period size : ℤ) (tree : Offsetmap V) (readValue : V → ℤ → α)
    (readNodes : ℤ → Cell V → Zipper V → ℤ → ℤ → Option α) (joinA : α → α → α) (acc : α) : Option α :=
  readSeries min max period size tree readValue readNodes joinA ((max - min).toNat + 1) min acc

def read (offsets : TrOffset) (size : ℤ) (tree : Offsetmap V) (readValue : V → ℤ → α)
    (readNodes : ℤ → Cell V → Zipper V → ℤ → ℤ → Option α) (joinA : α → α → α) (acc : α) : Option α :=
  match offsets with
  | .interval min max period => readSeriesItv min max period size tree readValue readNodes joinA acc
  | .set s => s.foldlM (fun acc start => joinA acc <$> readOneItv start size tree readValue readNodes) acc
  | .overlap min max => some (readValue (findImpreciseBetween min max 0 tree) size)
  | .invalid => some acc

def readNodesLoop (readOneNode : ℤ → Cell V → ℤ → ℤ → α → Option α) (start size : ℤ) :
    ℕ → ℤ → Cell V → Zipper V → α → Option α
  | 0,_,_,_,_ => none
  | fuel + 1,offset,c,zipper,acc => do
    let readEnd := start + size - 1
    let nodeEnd := offset + c.max
    let t ← readOneNode offset c start size acc
    if nodeEnd ≥ readEnd then some t
    else
      let (offset,c,zipper) ← moveRight offset c zipper
      readNodesLoop readOneNode start size fuel offset c zipper t

def readSuccessiveNodes (readOneNode : ℤ → Cell V → ℤ → ℤ → α → Option α) (acc : α) (offset : ℤ) (c : Cell V)
    (zipper : Zipper V) (start size : ℤ) : Option α :=
  readNodesLoop readOneNode start size size.toNat offset c zipper acc

def findReadOneNode (littleEndian conflateBottom : Bool) (offset : ℤ) (c : Cell V) (start size : ℤ) (acc : V) :
    Option V :=
  extractBitsAndStitch ⟨littleEndian,.misalignRead,conflateBottom⟩ start size offset (c.rem,c.modu,c.v) c.max acc

/-- Finds the value associated to some offsets represented as an ival. -/
def find (littleEndian : Bool) (sc : ℕ) (validity : Validity) (conflateBottom : Bool) (offsets : Ival) (size : ℤ)
    (tree : Offsetmap V) : Option V := do
  let offsets ← (TrOffset.trimByValidity sc offsets size validity).toOption
  let readNodes := readSuccessiveNodes (findReadOneNode littleEndian conflateBottom) mergeNeutralElement
  read offsets size tree (fun v _ => v) readNodes OffsetmapLattice.join bottom

end Reads

section Writes
variable [DecidableEq V] [OffsetmapLattice V]

/-- The writes of a series that overlap the current node, one after the other. -/
def updateSeries (exact : Bool) (max period size : ℤ) (v : V) :
    ℕ → ℤ → ℤ → Offsetmap V → Option (ℤ × Offsetmap V)
  | 0,_,_,_ => none
  | fuel + 1,offset,o,t =>
    if offset ≤ max then
      match updateItv exact offset (size + offset - 1) size v o t with
      | none => none
      | some (o',t') => updateSeries exact max period size v fuel (offset + period) o' t'
    else some (o,t)

/-- The writes that fit in the left subtree, and where the others begin. -/
def undoneLeft (r mn mx period size currOff : ℤ) : Option (ℤ × Option ℤ) :=
  let lastReadMaxOffset := currOff - size
  if mn + size - 1 < currOff then
    let newMx := roundDownToR lastReadMaxOffset r period
    if newMx ≥ mx then some (mx,none) else some (newMx,some (newMx + period))
  else none

/-- The writes that fit in the right subtree, and where the others end. -/
def undoneRight (r mn mx period absMax : ℤ) : Option (ℤ × Option ℤ) :=
  let firstReadMinOffset := absMax + 1
  if mx > absMax then
    let newMn := roundUpToR firstReadMinOffset r period
    if newMn ≤ mn then some (mn,none) else some (newMn,some (newMn - period))
  else none

/-- Writes `v` at every offset from `mn` to `mx`, every `period`. -/
def updateItvsAux (exact : Bool) (r period size : ℤ) (v : V) (mn mx currOff : ℤ) :
    Offsetmap V → Option (ℤ × Offsetmap V)
  | .empty => some (currOff,.empty)
  | .node max offl subl offr subr rNode mNode vNode => do
    let absOffl := offl + currOff
    let absOffr := offr + currOff
    let absMax := currOff + max
    let ((newOffl,newSubl),undoneL) ←
      match undoneLeft r mn mx period size currOff with
      | none => some ((absOffl,subl),some mn)
      | some (newMx,undone) => (·,undone) <$> updateItvsAux exact r period size v mn newMx absOffl subl
    let ((newOffr,newSubr),undoneR) ←
      match undoneRight r mn mx period absMax with
      | none => some ((absOffr,subr),some mx)
      | some (newMn,undone) => (·,undone) <$> updateItvsAux exact r period size v newMn mx absOffr subr
    let (o,t) := addNode currOff (currOff + max) rNode mNode vNode newOffl newSubl
    let (currOff,tree) := union o t newOffr newSubr
    match undoneL,undoneR with
    | some min,some max =>
      if size = period then updateItv exact min (size + max - 1) size v currOff tree
      else updateSeries exact max period size v ((max - min).toNat + 2) min currOff tree
    | _,_ => some (currOff,tree)

def updateItvs (exact : Bool) (mn mx period size : ℤ) (v : V) (currOff : ℤ) (tree : Offsetmap V) :
    Option (ℤ × Offsetmap V) :=
  if mx ≥ mn then updateItvsAux exact (mn % period) period size v mn mx currOff tree else none

inductive OrBottom (α : Type)
  | bottom
  | value (a : α)
  deriving DecidableEq, Repr

/-- Whether `update_aux_tr_offsets` approximates the set of offsets written. -/
def updateAuxTrOffsetsApproximates (plevel : ℤ) (offsets : TrOffset) (size : ℤ) : Bool :=
  match offsets with
  | .overlap _ _ => false
  | .interval mn mx period =>
    let number := (mx - mn) / period + 1
    if number ≤ plevel ∨ period = size then false else true
  | .set _ => false
  | .invalid => false

def updateAuxTrOffsets (plevel : ℤ) (exact : Bool) (offsets : TrOffset) (size : ℤ) (v : V) (currOff : ℤ)
    (t : Offsetmap V) : Option (OrBottom (ℤ × Offsetmap V)) :=
  match offsets with
  | .overlap mn mx => .value <$> updateItv exact mn mx 1 (topifyWithOrigin .misalignRead v) currOff t
  | .interval mn mx period =>
    let number := (mx - mn) / period + 1
    if period ≥ size then
      if number ≤ plevel ∨ period = size then .value <$> updateItvs exact mn mx period size v currOff t
      else
        let absMax := mx + size - 1
        let v := if period % size = 0 then v else topifyWithOrigin .misalignRead v
        .value <$> updateItv false mn absMax size v currOff t
    else none
  | .set s =>
    .value <$> s.foldlM (fun (currOff,m) offset => updateItv exact offset (offset + size - 1) size v currOff m) (currOff,t)
  | .invalid => some .bottom

def updateAux (plevel : ℤ) (sc : ℕ) (validity : Validity) (exact : Bool) (offsets : Ival) (size : ℤ) (v : V)
    (currOff : ℤ) (t : Offsetmap V) : Option (OrBottom (ℤ × Offsetmap V)) := do
  let v := anisotropicCast size v
  let reduced ← (TrOffset.trimByValidity sc offsets size validity).toOption
  let exact := exact && !isWeakValidity validity
  updateAuxTrOffsets plevel exact reduced size v currOff t

/-- `update_aux` on zero-rooted maps. -/
def update (plevel : ℤ) (sc : ℕ) (validity : Validity) (exact : Bool) (offsets : Ival) (size : ℤ) (v : V)
    (t : Offsetmap V) : Option (OrBottom (Offsetmap V)) := do
  match ← updateAux plevel sc validity exact offsets size v 0 t with
  | .bottom => some .bottom
  | .value (_,r) => some (.value r)

end Writes

section Spec
variable [DecidableEq V] [OffsetmapLattice V]

/-- What a read of `[start..start + size - 1]` makes of the clipped segments. -/
def readClip (littleEndian conflateBottom : Bool) (start size : ℤ) (l : List (Seg V)) : Option V :=
  match l with
  | [] => none
  | s :: l =>
    if s.hi = start + size - 1 ∧ (isIsotropic s.v = true ∨ s.modu = size ∧ s.rem = 0) then some s.v
    else (s :: l).foldlM (fun acc s => extractBitsAndStitch ⟨littleEndian,.misalignRead,conflateBottom⟩ start size s.lo
      (s.rem,s.modu,s.v) (s.hi - s.lo) acc) mergeNeutralElement

section Loop
variable {littleEndian conflateBottom : Bool} {start size hi o : ℤ} {c : Cell V} {z : Zipper V}

omit [DecidableEq V] in
theorem findReadOneNode_eq (acc : V) : findReadOneNode littleEndian conflateBottom o c start size acc =
    extractBitsAndStitch ⟨littleEndian,.misalignRead,conflateBottom⟩ start size (max start o)
      (realign o (max start o) c.rem c.modu,c.modu,c.v) (min (start + size - 1) (o + c.max) - max start o) acc := by
  have h := extractBitsAndStitch_clip ⟨littleEndian,.misalignRead,conflateBottom⟩ start size (c.seg o) acc
  simp only [Cell.seg] at h
  rw [h,findReadOneNode,add_sub_cancel_left]

omit [DecidableEq V] in
theorem readNodesLoop_eq_foldlM {α : Type} (readOneNode : ℤ → Cell V → ℤ → ℤ → α → Option α) {g : α → Seg V → Option α}
    (hg : ∀ o c acc, (c.seg o).Ok → readOneNode o c start size acc = g acc ⟨max start o,min (start + size - 1) (o + c.max),
      realign o (max start o) c.rem c.modu,c.modu,c.v⟩) (fuel : ℕ) (htiles : Tiles o hi (c.seg o :: following o c z))
    (hok : ∀ s ∈ c.seg o :: following o c z, s.Ok) (hsize : 1 ≤ size) (hhi : start + size - 1 ≤ hi)
    (ho : o ≤ start + size - 1) (hstart : start ≤ o + c.max) (hfuel : start + size - max start o ≤ fuel) (acc : α) :
    readNodesLoop readOneNode start size fuel o c z acc =
      (clip start (start + size - 1) (c.seg o :: following o c z)).foldlM g acc := by
  induction fuel generalizing o c z acc with
  | zero => omega
  | succ fuel ih =>
    obtain ⟨-,h2,h3⟩ := htiles
    have h2 : o ≤ o + c.max := h2
    have h3 : Tiles (o + c.max + 1) hi (following o c z) := h3
    obtain ⟨hc,hrest⟩ := List.forall_mem_cons.mp hok
    have hclip : clip start (start + size - 1) (c.seg o :: following o c z) =
        ⟨max start o,min (start + size - 1) (o + c.max),realign o (max start o) c.rem c.modu,c.modu,c.v⟩ ::
          clip start (start + size - 1) (following o c z) := clip_cons_some h2 ho hstart (by omega)
    rw [hclip,List.foldlM_cons,readNodesLoop,hg o c acc hc]
    dsimp only
    congr 1
    funext t
    by_cases hend : o + c.max ≥ start + size - 1
    · rw [if_pos hend,h3.clip_left (by omega)]
      rfl
    · rw [if_neg hend]
      have hfol : following o c z ≠ [] := by
        intro hnil
        rw [hnil] at h3
        have : hi = o + c.max + 1 - 1 := h3
        omega
      obtain ⟨s,l,hsl⟩ := List.exists_cons_of_ne_nil hfol
      obtain ⟨o',c',z',k1,rfl,rfl⟩ := moveRight_spec hsl
      rw [hsl] at h3 hrest ⊢
      have ho' : o' = o + c.max + 1 := h3.1
      have hc' : o' ≤ o' + c'.max := h3.2.1
      have hloop := ih (o := o') (c := c') (z := z') (ho' ▸ h3) hrest (by omega) (by omega)
        (by push_cast at hfuel; omega) t
      rw [k1]
      exact hloop

end Loop

theorem exists_first_node {lo hi start size : ℤ} {t : Offsetmap V} (h : Canon lo hi 0 t) (hlo : lo ≤ start)
    (hsize : 1 ≤ size) (hhi : start + size - 1 ≤ hi) :
    ∃ z o c rest, findBitOffset start .endZ 0 t = some (z,o,c) ∧ (o ≤ start ∧ start ≤ o + c.max) ∧ c.seg o ∈ segs 0 t ∧
      clip start (start + size - 1) (segs 0 t) =
        ⟨start,min (start + size - 1) (o + c.max),realign o start c.rem c.modu,c.modu,c.v⟩ :: rest ∧
      ∀ {α : Type} (readOneNode : ℤ → Cell V → ℤ → ℤ → α → Option α) (g : α → Seg V → Option α),
        (∀ o c acc, (c.seg o).Ok → readOneNode o c start size acc = g acc ⟨max start o,min (start + size - 1) (o + c.max),
          realign o (max start o) c.rem c.modu,c.modu,c.v⟩) →
        ∀ acc, readSuccessiveNodes readOneNode acc o c z start size =
          (clip start (start + size - 1) (segs 0 t)).foldlM g acc := by
  obtain ⟨z,o,c,l,e1,e2,e3,e4,e5⟩ := findBitOffset_spec h.1 hlo (show start ≤ hi by omega) .endZ
  rw [Zipper.after,List.append_nil] at e4
  obtain ⟨m,f1,f2⟩ := (e4 ▸ h.1.tiles : Tiles lo hi (l ++ c.seg o :: following o c z)).split
  have f2 : Tiles o hi (c.seg o :: following o c z) := ⟨rfl,f2.2.1,f2.2.2⟩
  have hmem : ∀ s ∈ c.seg o :: following o c z, s ∈ segs 0 t := by
    intro s hs
    rw [e4]
    exact List.mem_append_right l hs
  have hclip : clip start (start + size - 1) (segs 0 t) =
      clip start (start + size - 1) (c.seg o :: following o c z) := by
    rw [e4,clip_append,e5.clip_right (by omega),List.nil_append]
  have hcons := clip_cons_some (l := following o c z) (s := c.seg o) f2.2.1 (show o ≤ start + size - 1 by omega) e3 (by omega)
  simp only [Cell.seg,max_eq_left e2] at hcons
  refine ⟨z,o,c,_,e1,⟨e2,e3⟩,hmem _ List.mem_cons_self,hclip.trans hcons,?_⟩
  intro α readOneNode g hg acc
  rw [hclip]
  exact readNodesLoop_eq_foldlM readOneNode hg size.toNat f2 (fun s hs => h.2.1 s (hmem s hs)) hsize hhi (by omega) e3
    (by omega) acc

theorem readOneItv_spec {littleEndian conflateBottom : Bool} {lo hi start size : ℤ} {t : Offsetmap V}
    (h : Canon lo hi 0 t) (hlo : lo ≤ start) (hsize : 1 ≤ size) (hhi : start + size - 1 ≤ hi) :
    readOneItv start size t (fun v _ => v)
        (readSuccessiveNodes (findReadOneNode littleEndian conflateBottom) mergeNeutralElement) =
      readClip littleEndian conflateBottom start size (clip start (start + size - 1) (segs 0 t)) := by
  obtain ⟨z,o,c,rest,e1,e2,-,hclip,hread⟩ := exists_first_node h hlo hsize hhi
  have hfold := hread (findReadOneNode littleEndian conflateBottom)
    (fun acc s => extractBitsAndStitch ⟨littleEndian,.misalignRead,conflateBottom⟩ start size s.lo
      (s.rem,s.modu,s.v) (s.hi - s.lo) acc) (fun o c acc _ => findReadOneNode_eq acc) mergeNeutralElement
  -- the test of the source, on the clipped segment
  have htest : (decide (start + size - 1 ≤ o + c.max) && (isIsotropic c.v || (decide (c.modu = size) &&
      decide (start % c.modu = (o + c.rem) % c.modu)))) = true ↔
      min (start + size - 1) (o + c.max) = start + size - 1 ∧
        (isIsotropic c.v = true ∨ c.modu = size ∧ realign o start c.rem c.modu = 0) := by
    have hal : start % c.modu = (o + c.rem) % c.modu ↔ realign o start c.rem c.modu = 0 := by
      rw [realign,eq_comm,Int.emod_eq_emod_iff_emod_sub_eq_zero,show o + c.rem - start = o - start + c.rem by ring]
    simp only [Bool.and_eq_true,Bool.or_eq_true,decide_eq_true_eq,hal,min_eq_left_iff]
  rw [hclip] at hfold ⊢
  rw [readOneItv,readItv,e1,readClip]
  simp only [Option.bind_eq_bind,Option.bind_some]
  by_cases ht : min (start + size - 1) (o + c.max) = start + size - 1 ∧
      (isIsotropic c.v = true ∨ c.modu = size ∧ realign o start c.rem c.modu = 0)
  · rw [if_pos (htest.mpr ht),if_pos ht]
    rfl
  · rw [if_neg (fun hc => ht (htest.mp hc)),if_neg ht,← hfold]
    cases readSuccessiveNodes (findReadOneNode littleEndian conflateBottom) (mergeNeutralElement : V) o c z start size with
    | none => rfl
    | some v => rfl

theorem find_singleton (littleEndian conflateBottom : Bool) {sc : ℕ} (hsc : 2 ≤ sc) {hi o size : ℤ} {t : Offsetmap V}
    (h : Canon 0 hi 0 t) (hsize : 1 ≤ size) :
    find littleEndian sc (.known 0 hi) conflateBottom (.set [o]) size t =
      if 0 ≤ o ∧ o + size - 1 ≤ hi then OffsetmapLattice.join bottom <$>
        readClip littleEndian conflateBottom o size (clip o (o + size - 1) (segs 0 t))
      else some bottom := by
  rw [find,TrOffset.trimByValidity_singleton hsc hsize]
  by_cases hin : 0 ≤ o ∧ o + size - 1 ≤ hi
  · simp only [if_pos hin,Except.toOption,Option.bind_eq_bind,Option.bind_some,read,List.foldlM_cons,List.foldlM_nil]
    rw [readOneItv_spec h hin.1 hsize hin.2]
    cases readClip littleEndian conflateBottom o size (clip o (o + size - 1) (segs 0 t)) with
    | none => rfl
    | some v => rfl
  · simp only [if_neg hin,Except.toOption,Option.bind_eq_bind,Option.bind_some,read]

omit [DecidableEq V] [OffsetmapLattice V] in
theorem Shape.root_zero {hi o : ℤ} {t : Offsetmap V} (h : Shape 0 hi o t) : o = 0 := by
  cases t with
  | empty => exact h.1
  | node max offl subl offr subr rem modu v =>
    have hroot := h.root_le
    obtain ⟨-,-,-,p,hp,hp1,hp2⟩ := h
    have hp0 : p = 0 := by
      by_contra hne
      exact (hp.above 0 le_rfl (by omega) (Ne.symm hne)).asymm (Pivot.below_zero hne)
    omega

theorem update_singleton (plevel : ℤ) {sc : ℕ} (hsc : 2 ≤ sc) {hi o size : ℤ} {t : Offsetmap V} (v : V)
    (h : Canon 0 hi 0 t) (hsize : 1 ≤ size) (ho : 0 ≤ o) (hhi : o + size - 1 ≤ hi) :
    ∃ t', update plevel sc (.known 0 hi) true (.set [o]) size v t = some (.value t') ∧ Canon 0 hi 0 t' ∧
      segs 0 t' = glueList (clip 0 (o - 1) (segs 0 t) ++ [newSeg o (o + size - 1) 0 size (anisotropicCast size v)] ++
        clip (o + size) hi (segs 0 t)) := by
  obtain ⟨o',t',g1,g2,g3⟩ := updateItvWithRem_spec (v := anisotropicCast size v) h ho
    (show o ≤ o + size - 1 by omega) hhi (show size ≠ 0 by omega) (.inr ⟨le_rfl,by omega⟩) true
  obtain rfl := g2.1.root_zero
  refine ⟨t',?_,g2,?_⟩
  · have hup : updateItv true o (o + size - 1) size (anisotropicCast size v) 0 t = some (0,t') := g1
    simp only [update,updateAux,TrOffset.trimByValidity_singleton hsc hsize,if_pos (And.intro ho hhi),Except.toOption,
      Option.bind_eq_bind,Option.bind_some,updateAuxTrOffsets,List.foldlM_cons,List.foldlM_nil,isWeakValidity,
      Bool.not_false,Bool.and_true,hup]
    rfl
  · rwa [sub_add_cancel] at g3

section Frame
variable {hi o size : ℤ} {l : List (Seg V)} {s : Seg V}

theorem clip_updated_left {a b : ℤ} (hl : Good l) (ht : Tiles 0 hi l) (ho : 0 ≤ o) (hhi : o + size - 1 ≤ hi)
    (hsize : 1 ≤ size) (hlo : s.lo = o) (hend : s.hi = o + size - 1) (ha : 0 ≤ a) (hb : b < o) :
    clip a b (glueList (clip 0 (o - 1) l ++ [s] ++ clip (o + size) hi l)) = clip a b l := by
  have hleft : Tiles 0 (o - 1) (clip 0 (o - 1) l) := ht.clip le_rfl (by omega) (by omega)
  have hright : Tiles (o + size) hi (clip (o + size) hi l) := ht.clip (by omega) le_rfl (by omega)
  have hrest : Tiles (o - 1 + 1) hi (glueList ([s] ++ clip (o + size) hi l)) := by
    rw [glueList,Glue.list_append,← glueList,(hl.clip ht _ _).glueList_eq]
    have hone : Tiles (o - 1 + 1) (o + size - 1) [s] :=
      ⟨by omega,by omega,(by omega : o + size - 1 = s.hi + 1 - 1)⟩
    exact hone.foldr_glue (by rwa [sub_add_cancel])
  rw [List.append_assoc,glueList,Glue.list_append,← glueList,
    clip_foldr_left hleft (hl.clip ht _ _) hrest (by omega),clip_clip l ha (by omega)]

theorem clip_updated_right {a b : ℤ} (hl : Good l) (ht : Tiles 0 hi l) (ho : 0 ≤ o) (hhi : o + size - 1 ≤ hi)
    (hsize : 1 ≤ size) (hs : s.Ok) (hlo : s.lo = o) (hend : s.hi = o + size - 1) (ha : o + size ≤ a) (hb : b ≤ hi) :
    clip a b (glueList (clip 0 (o - 1) l ++ [s] ++ clip (o + size) hi l)) = clip a b l := by
  have hleft : Tiles 0 (o - 1) (clip 0 (o - 1) l) := ht.clip le_rfl (by omega) (by omega)
  have hright : Tiles (o + size) hi (clip (o + size) hi l) := ht.clip (by omega) le_rfl (by omega)
  have hone : Tiles (o - 1 + 1) (o + size - 1) [s] :=
    ⟨by omega,by omega,(by omega : o + size - 1 = s.hi + 1 - 1)⟩
  have hok : ∀ u ∈ clip 0 (o - 1) l ++ [s], u.Ok :=
    List.forall_mem_append.mpr ⟨clip_ok hl.1,List.forall_mem_singleton.mpr hs⟩
  rw [glueList,Glue.list_append,← glueList,(hl.clip ht _ _).glueList_eq,
    clip_foldr_right (hleft.append hone) hok (by rwa [sub_add_cancel]) (by omega),clip_clip l (by omega) hb]

theorem clip_updated_self (hl : Good l) (ht : Tiles 0 hi l) (ho : 0 ≤ o) (hhi : o + size - 1 ≤ hi)
    (hsize : 1 ≤ size) (hs : s.Ok) (hlo : s.lo = o) (hend : s.hi = o + size - 1) :
    clip o (o + size - 1) (glueList (clip 0 (o - 1) l ++ [s] ++ clip (o + size) hi l)) = [s] := by
  have hleft : Tiles 0 (o - 1) (clip 0 (o - 1) l) := ht.clip le_rfl (by omega) (by omega)
  have hright : Tiles (o + size - 1 + 1) hi (clip (o + size) hi l) := by
    rw [sub_add_cancel]
    exact ht.clip (by omega) le_rfl (by omega)
  have hone : Tiles (o - 1 + 1) (o + size - 1) [s] :=
    ⟨by omega,by omega,(by omega : o + size - 1 = s.hi + 1 - 1)⟩
  have hgood : Good [s] := ⟨List.forall_mem_singleton.mpr hs,Glue.canonical_singleton s⟩
  rw [List.append_assoc,glueList,Glue.list_append,Glue.list_append,← glueList,(hl.clip ht _ _).glueList_eq,
    clip_foldr_right hleft (clip_ok hl.1) (hone.foldr_glue hright) (by omega),
    clip_foldr_left hone hgood hright le_rfl,clip_self hgood.1 hone (by omega) le_rfl]

end Frame

end Spec

/-- A value written at one offset is read back, the rest of the map is read as before, and the
range is the same. -/
theorem update_then_find {V : Type} [DecidableEq V] [OffsetmapLattice V]
    (hbot : ∀ w : V, OffsetmapLattice.join OffsetmapLattice.bottom w = w) (littleEndian : Bool) (plevel : ℤ) {sc : ℕ}
    (hsc : 2 ≤ sc) {n o s : ℤ} {m : Offsetmap V} (v : V) (hm : WellFormed 0 m) (hn : boundsOffset 0 m = (0,n - 1))
    (hs : 1 ≤ s) (ho : 0 ≤ o) (hos : o + s ≤ n) :
    ∃ m', update plevel sc (.known 0 (n - 1)) true (.set [o]) s v m = some (.value m') ∧
      (WellFormed 0 m' ∧ boundsOffset 0 m' = (0,n - 1)) ∧
      (∀ conflateBottom, find littleEndian sc (.known 0 (n - 1)) conflateBottom (.set [o]) s m' =
        some (anisotropicCast s v)) ∧
      ∀ conflateBottom o' s', 0 ≤ s' → (o' + s' ≤ o ∨ o + s ≤ o') →
        find littleEndian sc (.known 0 (n - 1)) conflateBottom (.set [o']) s' m' =
          find littleEndian sc (.known 0 (n - 1)) conflateBottom (.set [o']) s' m := by
  have hc : Canon 0 (n - 1) 0 m := spanning_iff_canon.mp ⟨hm,hn⟩
  obtain ⟨m',h1,h2,h3⟩ := update_singleton plevel hsc v hc hs ho (by omega)
  have hnew : (newSeg o (o + s - 1) 0 s (anisotropicCast s v)).Ok := newSeg_ok (.inr ⟨le_rfl,by omega⟩)
  have hlo := newSeg_lo o (o + s - 1) 0 s (anisotropicCast s v)
  have hend := newSeg_hi o (o + s - 1) 0 s (anisotropicCast s v)
  refine ⟨m',h1,spanning_iff_canon.mpr h2,?_,?_⟩
  · intro conflateBottom
    have hfit : isIsotropic (newSeg o (o + s - 1) 0 s (anisotropicCast s v)).v = true ∨
        (newSeg o (o + s - 1) 0 s (anisotropicCast s v)).modu = s ∧
          (newSeg o (o + s - 1) 0 s (anisotropicCast s v)).rem = 0 := by
      rw [newSeg_v,newSeg]
      split
      · rename_i hiso
        exact .inl hiso
      · exact .inr ⟨rfl,rfl⟩
    rw [find_singleton littleEndian conflateBottom hsc h2 hs,if_pos ⟨ho,by omega⟩,h3,
      clip_updated_self hc.2 hc.1.tiles ho (by omega) hs hnew hlo hend,readClip,if_pos ⟨hend,hfit⟩,newSeg_v]
    exact congrArg some (hbot _)
  · intro conflateBottom o' s' hs' hdisj
    by_cases hz : s' = 0
    · subst hz
      rfl
    · rw [find_singleton littleEndian conflateBottom hsc h2 (by omega),
        find_singleton littleEndian conflateBottom hsc hc (by omega)]
      by_cases hin : 0 ≤ o' ∧ o' + s' - 1 ≤ n - 1
      · have hclip : clip o' (o' + s' - 1) (segs 0 m') = clip o' (o' + s' - 1) (segs 0 m) := by
          rw [h3]
          rcases hdisj with hd | hd
          · exact clip_updated_left hc.2 hc.1.tiles ho (by omega) hs hlo hend hin.1 (by omega)
          · exact clip_updated_right hc.2 hc.1.tiles ho (by omega) hs hnew hlo hend hd (by omega)
        rw [hclip]
      · rw [if_neg hin,if_neg hin]

theorem update_then_find_interval : ∃ m', update 200 8 (.known 0 31) true (.set [8]) 8 true
      (intervalAux 31 0 1 false) = some (.value m') ∧
    find true 8 (.known 0 31) true (.set [8]) 8 m' = some true ∧
    find true 8 (.known 0 31) true (.set [16]) 4 m' = find true 8 (.known 0 31) true (.set [16]) 4
      (intervalAux 31 0 1 false) := by
  have hspan : Spanning 0 31 ((0 : ℤ),intervalAux 31 0 1 false) :=
    spanning_iff_canon.mpr (intervalAux_spec (show (0 : ℤ) ≤ 31 by omega) (.inl rfl)).1
  obtain ⟨m',h1,-,h3,h4⟩ := @update_then_find Bool _ _ (fun w => rfl) true 200 8 (by omega) 32 8 8
    (intervalAux 31 0 1 false) true hspan.1 hspan.2 (by omega) (by omega) (by omega)
  exact ⟨m',h1,h3 true,h4 true 16 4 (by omega) (by omega)⟩

end Offsetmap
end FramaC
