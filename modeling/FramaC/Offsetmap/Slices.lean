import FramaC.Offsetmap.Find
import FramaC.Offsetmap.Bindings
import FramaC.Ival.Split

/-! # Copying and pasting slices

A copied slice is a map of its own, rooted at zero, which is joined with the map bound to bottom: this leaves each value in
the representation that `anisotropic_cast` gives it. A paste writes the intervals of the source one after the other.
-/
namespace FramaC.Offsetmap
open OffsetmapLattice Integer
variable {V : Type}

section Slices
variable [DecidableEq V] [OffsetmapLattice V]

def isotropicInterval (size : ℤ) (v : V) : Offsetmap V :=
  if size = 0 then .empty else .node (size - 1) 0 .empty size .empty 0 1 v

/-- Copies a node at the end of `acc`; `none` is the failure of the assertion. -/
def copyOneNode (offset : ℤ) (c : Cell V) (start size : ℤ) (acc : Offsetmap V) : Option (Offsetmap V) :=
  let min := Max.max offset start - start
  let nodeEnd := offset + c.max
  let readEnd := start + size - 1
  let max := Min.min readEnd nodeEnd - start
  let newRem := if offset < start then realign offset start c.rem c.modu else c.rem
  let (o,t) := addNode min max newRem c.modu c.v 0 acc
  if o = 0 then some t else none

def copySlice (littleEndian : Bool) (sc : ℕ) (validity : Validity) (offsets : Ival) (size : ℤ) (tree : Offsetmap V) :
    Option (OrBottom (Offsetmap V)) := do
  let offsets ← (TrOffset.trimByValidity sc offsets size validity).toOption
  if size = 0 then some (.value .empty)
  else
    match offsets with
    | .invalid => some .bottom
    | _ =>
      let readNodes := fun offset c zipper start size =>
        some <$> readSuccessiveNodes copyOneNode .empty offset c zipper start size
      let readValue := fun v size => some (intervalAux (size - 1) 0 size v)
      let init := isotropicInterval size bottom
      -- the join may fail too
      let joinTrees := fun t1 t2 => do join littleEndian (← t1) (← t2)
      let t ← read offsets size tree readValue readNodes joinTrees (some init)
      .value <$> t

inductive Direction
  | ltr
  | rtl
  deriving DecidableEq, Repr

def foldBetween {α : Type} (direction : Direction) (entire : Bool) (imin imax : ℤ)
    (f : ℤ × ℤ → V × ℤ × ℤ → α → Option α) (currOff : ℤ) : Offsetmap V → α → Option α
  | .empty,acc => some acc
  | .node max offl subl offr subr rem modu v,acc =>
    let absMax := max + currOff
    let accLeft := fun acc =>
      if imin < currOff then foldBetween direction entire imin imax f (offl + currOff) subl acc else some acc
    let accMiddle := fun acc =>
      if imax < currOff ∨ imin > absMax then some acc
      else if entire then f (currOff,absMax) (v,modu,rem) acc
      else
        let lmin := Max.max imin currOff
        let lmax := Min.min imax absMax
        let lrem := (rem - (lmin - currOff)) % modu
        f (lmin,lmax) (v,modu,lrem) acc
    let accRight := fun acc =>
      if imax > absMax then foldBetween direction entire imin imax f (offr + currOff) subr acc else some acc
    match direction with
    | .ltr => do accRight (← accMiddle (← accLeft acc))
    | .rtl => do accLeft (← accMiddle (← accRight acc))

def pasteSliceItv (exact : Bool) (src : Offsetmap V) (stop startDest : ℤ) (dst : Offsetmap V) : Option (Offsetmap V) :=
  let treatInterval := fun (itv : ℤ × ℤ) (binding : V × ℤ × ℤ) acc =>
    let (imin,imax) := itv
    let (v,modu,rem) := binding
    let dmin := imin + startDest
    let dmax := imax + startDest
    Prod.snd <$> updateItvWithRem exact dmin dmax modu rem v 0 acc
  foldBetween .ltr false 0 stop treatInterval 0 src dst

/-- `Base.validity_from_size`, on a non-negative size. -/
def validityFromSize (size : ℤ) : Validity := if size = 0 then .empty else .known 0 (size - 1)

def pasteSliceNotContiguous (littleEndian : Bool) (plevel : ℤ) (sc : ℕ) (validity : Validity) (exact : Bool)
    (src : Offsetmap V) (size : ℤ) (offsets : Ival) (dst : Offsetmap V) : Option (OrBottom (Offsetmap V)) :=
  match Ival.cardinalLessThan offsets plevel with
  | .ok _ => do
    let stopSrc := size - 1
    let (minValid,maxMaybeValid) :=
      match validity with
      | .invalid => (0,-1)
      | .empty => (0,-1)
      | .known b e => (b,e)
      | .unknown b _ e => (b,e)
      | .variable _ _ maxAlloc _ => (0,maxAlloc)
    let aux := fun startTo (acc : Option (Offsetmap V × Bool)) => do
      let (accOffsm,accSuccess) ← acc
      let stopTo := startTo + size - 1
      if startTo < minValid ∨ stopTo > maxMaybeValid then some (accOffsm,accSuccess)
      else
        let exact := exact && !isWeakValidity validity
        (·,true) <$> pasteSliceItv exact src stopSrc startTo accOffsm
    let (res,success) ← ← (Ival.foldInt aux offsets (some (dst,false))).toOption
    if success then some (.value res) else some .bottom
  | .error .notLessThan => do
    let v ←
      if size ≤ 128 then find littleEndian sc (validityFromSize size) false (.set [0]) size src
      else some (findImpreciseBetween 0 (size - 1) 0 src)
    update plevel sc validity exact offsets size v dst
  | .error _ => none

/-- Pastes `src`, of size `size`, at all the offsets in `dst`. -/
def pasteSlice (littleEndian : Bool) (plevel : ℤ) (sc : ℕ) (validity : Validity) (exact : Bool) (src : Offsetmap V)
    (size : ℤ) (offsets : Ival) (dst : Offsetmap V) : Option (OrBottom (Offsetmap V)) :=
  if size = 0 then some (.value dst)
  else
    match offsets,src with
    | .topItv _ _ _ offperiod,.node _ _ .empty _ .empty vrem vsize v =>
      if vrem = 0 ∧ size = offperiod ∧ (size = vsize ∨ isIsotropic v) then update plevel sc validity exact offsets size v dst
      else pasteSliceNotContiguous littleEndian plevel sc validity exact src size offsets dst
    | _,_ => pasteSliceNotContiguous littleEndian plevel sc validity exact src size offsets dst

end Slices

section Pasting
variable [DecidableEq V] [OffsetmapLattice V] {lo hi m o size start imin imax : ℤ} {t src dst : Offsetmap V} {l : List (Seg V)}

omit [DecidableEq V] [OffsetmapLattice V] in
theorem foldBetween_eq {α : Type} {f : ℤ × ℤ → V × ℤ × ℤ → α → Option α} (h : Shape lo hi o t) (hle : imin ≤ imax) (acc : α) :
    foldBetween .ltr false imin imax f o t acc =
      (clip imin imax (segs o t)).foldlM (fun acc s => f (s.lo,s.hi) (s.v,s.modu,s.rem) acc) acc := by
  induction t generalizing lo hi o acc with
  | empty => rfl
  | node max offl subl offr subr rem modu v ihl ihr =>
    obtain ⟨hmax,hl,hr,-⟩ := h
    have hleft : ∀ acc, (if imin < o then foldBetween .ltr false imin imax f (offl + o) subl acc else some acc) =
        (clip imin imax (segs (o + offl) subl)).foldlM (fun acc s => f (s.lo,s.hi) (s.v,s.modu,s.rem) acc) acc := by
      intro acc
      split
      · rw [add_comm offl o,ihl hl]
      · rw [hl.tiles.clip_right (by omega)]
        rfl
    have hright : ∀ acc, (if imax > max + o then foldBetween .ltr false imin imax f (offr + o) subr acc else some acc) =
        (clip imin imax (segs (o + offr) subr)).foldlM (fun acc s => f (s.lo,s.hi) (s.v,s.modu,s.rem) acc) acc := by
      intro acc
      split
      · rw [add_comm offr o,ihr hr]
      · rw [hr.tiles.clip_left (by omega)]
        rfl
    rw [foldBetween,segs,clip_append,List.foldlM_append]
    dsimp only
    rw [hleft]
    congr 1
    funext acc
    simp only [hright,Bool.false_eq_true,if_false]
    by_cases hout : imax < o ∨ imin > max + o
    · rw [if_pos hout,clip_cons_none (by simp only; omega)]
      rfl
    · have hroot : o - Max.max imin o + rem = rem - (Max.max imin o - o) := by ring
      rw [if_neg hout,clip_cons_some (by simp only; omega) (by simp only; omega) (by simp only; omega) hle,List.foldlM_cons]
      simp only [realign,hroot,add_comm o max]

omit [DecidableEq V] in
theorem Seg.Ok.normalize_bind {s : Seg V} (h : s.Ok) (b : ℤ) : (s.bind b).normalize = s.bind b := by
  rw [Binding.normalize]
  split
  · rename_i hiso
    obtain ⟨-,hmodu⟩ := h.2.2 hiso
    simp only [Seg.bind,hmodu,Int.emod_one]
  · rfl

theorem foldlM_paste (start : ℤ) (hl : Tiles lo m l) (hok : ∀ s ∈ l, s.Ok) (h : Canon 0 hi 0 dst) (hlo : 0 ≤ lo + start)
    (hhi : m + start ≤ hi) : ∃ dst', l.foldlM (fun acc s => Prod.snd <$> updateItvWithRem true (s.lo + start) (s.hi + start)
        s.modu s.rem s.v 0 acc) dst = some dst' ∧ Canon 0 hi 0 dst' ∧
      ∀ b, bindingAt 0 dst' b = (bindings l (b - start)).or (bindingAt 0 dst b) := by
  induction l generalizing lo dst with
  | nil => exact ⟨dst,rfl,h,fun b => rfl⟩
  | cons s l ih =>
    have hle := hl.le
    obtain ⟨rfl,h2,h3⟩ := hl
    have hle3 := h3.le
    obtain ⟨hs,hl⟩ := List.forall_mem_cons.mp hok
    obtain ⟨o1,t1,e1,e2,e3⟩ := updateItvWithRem_bindings (v := s.v) h hlo (by omega : s.lo + start ≤ s.hi + start) (by omega)
      (by have := hs.1; have := hs.2.1; omega) (.inr ⟨hs.1,hs.2.1⟩) true
    obtain rfl := e2.1.root_zero
    obtain ⟨dst',g1,g2,g3⟩ := ih h3 hl e2 (by omega)
    refine ⟨dst',?_,g2,fun b => ?_⟩
    · rw [List.foldlM_cons,e1]
      exact g1
    · rw [g3,e3,bindings]
      by_cases hb : s.lo ≤ b - start ∧ b - start ≤ s.hi
      · obtain ⟨x,hx⟩ := bindingAt_isSome h (by omega) (by omega : b ≤ hi)
        have hpos : b - (s.lo + start + s.rem) = b - start - (s.lo + s.rem) := by ring
        have hwrite : x.write true s.v s.modu ((b - (s.lo + start + s.rem)) % s.modu) = s.bind (b - start) := by
          rw [Binding.write,if_pos rfl,hpos]
          exact hs.normalize_bind _
        rw [h3.bindings_none (by omega),Option.none_or,if_pos hb,Option.some_or,hx,Option.map_some,if_pos (by omega),hwrite]
      · have hsame : (bindingAt 0 dst b).map (fun x => if s.lo + start ≤ b ∧ b ≤ s.hi + start then
            x.write true s.v s.modu ((b - (s.lo + start + s.rem)) % s.modu) else x) = bindingAt 0 dst b := by
          simp only [if_neg (by omega : ¬ (s.lo + start ≤ b ∧ b ≤ s.hi + start)),Option.map_id']
        rw [hsame,if_neg hb]

theorem pasteSliceItv_bindings (hsrc : Canon 0 (size - 1) 0 src) (h : Canon 0 hi 0 dst) (hsize : 1 ≤ size) (hstart : 0 ≤ start)
    (hhi : start + size - 1 ≤ hi) : ∃ dst', pasteSliceItv true src (size - 1) start dst = some dst' ∧ Canon 0 hi 0 dst' ∧
      ∀ b, bindingAt 0 dst' b = if start ≤ b ∧ b ≤ start + size - 1 then bindingAt 0 src (b - start) else bindingAt 0 dst b := by
  obtain ⟨dst',g1,g2,g3⟩ := foldlM_paste start hsrc.1.tiles hsrc.2.1 h (by omega) (by omega)
  refine ⟨dst',?_,g2,fun b => ?_⟩
  · rw [pasteSliceItv,foldBetween_eq hsrc.1 (by omega),clip_self hsrc.2.1 hsrc.1.tiles le_rfl le_rfl]
    exact g1
  · rw [g3]
    split
    · obtain ⟨x,hx⟩ := bindingAt_isSome hsrc (by omega : 0 ≤ b - start) (by omega)
      rw [hx]
      rw [bindingAt] at hx
      rw [hx,Option.some_or]
    · rw [hsrc.1.tiles.bindings_none (by omega),Option.none_or]

end Pasting

section Copying
variable [DecidableEq V] [OffsetmapLattice V] {lo hi m o size start : ℤ} {t acc : Offsetmap V} {l : List (Seg V)}

/-- What `copy_one_node` does to a clipped segment. -/
def copySeg (start : ℤ) (acc : Offsetmap V) (s : Seg V) : Option (Offsetmap V) :=
  let (o,t) := addNode (s.lo - start) (s.hi - start) s.rem s.modu s.v 0 acc
  if o = 0 then some t else none

theorem copyOneNode_eq {c : Cell V} (h : (c.seg o).Ok) (acc : Offsetmap V) : copyOneNode o c start size acc =
    copySeg start acc ⟨max start o,min (start + size - 1) (o + c.max),realign o (max start o) c.rem c.modu,c.modu,c.v⟩ := by
  rw [copyOneNode,copySeg]
  dsimp only
  rw [max_comm o start]
  by_cases hlt : o < start
  · rw [if_pos hlt,max_eq_left hlt.le]
  · have hself : realign o o c.rem c.modu = c.rem := realign_self h.1 h.2.1
    rw [if_neg hlt,max_eq_right (by omega : start ≤ o),hself]

theorem foldlM_copySeg (hl : Tiles lo m l) (hok : ∀ s ∈ l, s.Ok) (h : Canon 0 (lo - start - 1) 0 acc) (hlo : start ≤ lo) :
    ∃ t, l.foldlM (copySeg start) acc = some t ∧ Canon 0 (m - start) 0 t ∧
      ∀ b, bindingAt 0 t b = (bindings l (b + start)).or (bindingAt 0 acc b) := by
  induction l generalizing lo acc with
  | nil =>
    obtain rfl : m = lo - 1 := hl
    refine ⟨acc,rfl,?_,fun b => rfl⟩
    rwa [show lo - 1 - start = lo - start - 1 by ring]
  | cons s l ih =>
    obtain ⟨rfl,h2,h3⟩ := hl
    obtain ⟨hs,hl⟩ := List.forall_mem_cons.mp hok
    obtain ⟨o1,t1,e1,e2,e3⟩ := addNode_right_bindings (v := s.v) h (by omega : s.lo - start ≤ s.hi - start) (.inr ⟨hs.1,hs.2.1⟩)
    obtain rfl := e2.1.root_zero
    obtain ⟨t,g1,g2,g3⟩ := ih h3 hl (by rwa [show s.hi + 1 - start - 1 = s.hi - start by ring]) (by omega)
    refine ⟨t,?_,g2,fun b => ?_⟩
    · rw [List.foldlM_cons,copySeg,e1]
      exact g1
    · rw [g3,e3,bindings]
      by_cases hb : s.lo ≤ b + start ∧ b + start ≤ s.hi
      · have hpos : b - (s.lo - start + s.rem) = b + start - (s.lo + s.rem) := by ring
        have hbind : Binding.normalize ⟨s.v,s.modu,(b - (s.lo - start + s.rem)) % s.modu⟩ = s.bind (b + start) := by
          rw [hpos]
          exact hs.normalize_bind _
        rw [h3.bindings_none (by omega),Option.none_or,if_pos hb,if_pos (by omega),hbind,Option.some_or]
      · rw [if_neg hb,if_neg (by omega)]

theorem intervalAux_copies (h : Canon lo hi 0 t) {c : Cell V} (hmem : c.seg o ∈ segs 0 t) (hlo : o ≤ start)
    (hsize : 1 ≤ size) (hfit : start + size - 1 ≤ o + c.max)
    (hvalue : isIsotropic c.v = true ∨ c.modu = size ∧ start % c.modu = (o + c.rem) % c.modu) :
    Canon 0 (size - 1) 0 (intervalAux (size - 1) 0 size c.v) ∧
      ∀ b, bindingAt 0 (intervalAux (size - 1) 0 size c.v) b = if 0 ≤ b ∧ b ≤ size - 1 then bindingAt 0 t (b + start) else none := by
  have hsize' : size - 1 = size - 1 - 0 := by ring
  obtain ⟨hc,hs⟩ := intervalAux_spec (v := c.v) (show (0 : ℤ) ≤ size - 1 by omega)
    (.inr ⟨le_rfl,by omega⟩ : isIsotropic c.v = true ∨ (0 : ℤ) ≤ 0 ∧ 0 < size)
  rw [← hsize'] at hc hs
  refine ⟨hc,fun b => ?_⟩
  rw [bindingAt,hs,bindings,newSeg_lo,newSeg_hi,newSeg_bind,bindings]
  by_cases hb : 0 ≤ b ∧ b ≤ size - 1
  · rw [if_pos hb,if_pos hb,bindingAt,h.1.tiles.bindings_mem hmem (show o ≤ b + start by omega)
      (show b + start ≤ o + c.max by omega),← (h.2.1 _ hmem).normalize_bind]
    rcases hvalue with hiso | ⟨hmodu,hal⟩
    · simp [Binding.normalize,Cell.seg,Seg.bind,hiso]
    · have hpos : (b - (0 + 0)) % size = (b + start - (o + c.rem)) % c.modu := by
        rw [hmodu] at hal ⊢
        rw [Int.emod_eq_emod_iff_emod_sub_eq_zero] at hal ⊢
        rw [← Int.dvd_iff_emod_eq_zero] at hal ⊢
        rw [show b - (0 + 0) - (b + start - (o + c.rem)) = -(start - (o + c.rem)) by ring]
        exact hal.neg_right
      rw [hpos,← hmodu]
      rfl
  · rw [if_neg hb,if_neg hb]

theorem readOneItv_copy (h : Canon lo hi 0 t) (hlo : lo ≤ start) (hsize : 1 ≤ size) (hhi : start + size - 1 ≤ hi) :
    ∃ r, readOneItv start size t (fun v size => some (intervalAux (size - 1) 0 size v))
        (fun offset c zipper start size => some <$> readSuccessiveNodes copyOneNode .empty offset c zipper start size) =
      some (some r) ∧ Canon 0 (size - 1) 0 r ∧
      ∀ b, bindingAt 0 r b = if 0 ≤ b ∧ b ≤ size - 1 then bindingAt 0 t (b + start) else none := by
  obtain ⟨z,o,c,rest,e1,e2,hmem,-,hread⟩ := exists_first_node h hlo hsize hhi
  simp only [readOneItv,readItv,e1,Option.bind_eq_bind,Option.bind_some]
  split
  · rename_i htest
    simp only [Bool.and_eq_true,Bool.or_eq_true,decide_eq_true_eq] at htest
    exact ⟨_,rfl,intervalAux_copies h hmem e2.1 hsize htest.1 htest.2⟩
  · have htiles : Tiles start (start + size - 1) (clip start (start + size - 1) (segs 0 t)) := h.1.tiles.clip hlo hhi (by omega)
    have hempty : Canon 0 (start - start - 1) 0 (.empty : Offsetmap V) := by
      rw [sub_self]
      exact canon_empty 0
    obtain ⟨r,g1,g2,g3⟩ := foldlM_copySeg htiles (clip_ok h.2.1) hempty le_rfl
    refine ⟨r,?_,?_,fun b => ?_⟩
    · rw [hread copyOneNode (copySeg start) fun o c acc hc => copyOneNode_eq hc acc,g1]
      rfl
    · rwa [show start + size - 1 - start = size - 1 by ring] at g2
    · have hnone : bindingAt 0 (.empty : Offsetmap V) b = none := rfl
      rw [g3,bindings_clip,hnone,Option.or_none]
      by_cases hb : 0 ≤ b ∧ b ≤ size - 1
      · rw [if_pos hb,if_pos (by omega),bindingAt]
      · rw [if_neg hb,if_neg (by omega)]

end Copying

section Bottom
variable [DecidableEq V] [OffsetmapLattice V] {lo hi o size : ℤ} {t : Offsetmap V}

/-- What a copy binds to a bit that is bound to `x`: its value in the representation that `anisotropic_cast` chooses, or bottom
as it is. -/
def Binding.Copied (x x' : Binding V) : Prop :=
  x' = Binding.normalize ⟨anisotropicCast x.size x.value,x.size,x.position⟩ ∨ x.value = bottom ∧ x' = x

def bottomPart (lo hi : ℤ) : ℤ × Offsetmap V := if lo ≤ hi then (lo,.node (hi - lo) 0 .empty (hi - lo + 1) .empty 0 1 bottom) else (lo,.empty)

variable (hbot : ∀ w : V, OffsetmapLattice.join bottom w = w) (hiso : isIsotropic (bottom : V) = true)
include hiso

theorem bottomPart_canon (hle : lo ≤ hi + 1) : Canon lo hi (bottomPart (V := V) lo hi).1 (bottomPart (V := V) lo hi).2 := by
  rw [bottomPart]
  split
  · rename_i hin
    have h := (intervalAux_spec (v := (bottom : V)) hin (.inl hiso : _ ∨ (0 : ℤ) ≤ 0 ∧ (0 : ℤ) < 1)).1
    rwa [intervalAux,if_pos hiso] at h
  · obtain rfl : hi = lo - 1 := by omega
    exact canon_empty lo

omit [DecidableEq V] hiso in
theorem bottomPart_value {b : ℤ} {x : Binding V} (hx : bindingAt (bottomPart (V := V) lo hi).1 (bottomPart (V := V) lo hi).2 b = some x) :
    x.value = bottom := by
  rw [bottomPart] at hx
  split at hx
  · obtain ⟨s,hs,-,-,rfl⟩ := exists_of_bindings hx
    simp only [segs,List.nil_append,List.mem_singleton] at hs
    exact hs ▸ rfl
  · cases hx

theorem mergeLeft_bottom {c : Cell V} (hi : ℤ) (hlo : lo ≤ o) :
    mergeLeft lo ⟨hi - lo,0,.empty,hi - lo + 1,.empty,0,1,(bottom : V)⟩ o c = (bottomPart lo (o - 1),(o + c.offl,c.subl),o,0,c.rem) := by
  rw [mergeLeft,bottomPart]
  dsimp only
  split
  · rename_i he
    rw [he,if_neg (by omega),add_zero]
  · rename_i hne
    rw [if_pos (by omega),if_pos (by omega),addNode,intervalAux,if_pos hiso,realign,Int.emod_one]

theorem mergeRight_bottom {c : Cell V} (lo : ℤ) (hle : c.max + o ≤ hi) :
    mergeRight lo ⟨hi - lo,0,.empty,hi - lo + 1,.empty,0,1,(bottom : V)⟩ o c =
      (bottomPart (c.max + o + 1) hi,(o + c.offr,c.subr),c.max + o) := by
  rw [mergeRight,bottomPart]
  dsimp only
  rw [sub_add_cancel]
  split
  · rename_i he
    rw [← he,if_neg (by omega),show lo + (hi - lo + 1) = hi + 1 by ring]
  · rename_i hne
    rw [if_neg (by omega),if_pos (by omega),addNode,intervalAux,if_pos hiso]

include hbot

theorem mergeRec_bottom (littleEndian : Bool) (fuel : ℕ) (hfuel : hi - lo + 1 < fuel) (h : Canon lo hi o t) :
    ∃ r, mergeRec stopEqual (Merging.join.fAux littleEndian) fuel (bottomPart lo hi) (o,t) = some r ∧ Canon lo hi r.1 r.2 ∧
      ∀ b x, bindingAt o t b = some x → ∃ x', bindingAt r.1 r.2 b = some x' ∧ x.Copied x' := by
  induction fuel generalizing lo hi o t with
  | zero =>
    have := h.1.le
    omega
  | succ fuel ih =>
    rw [mergeRec,stopEqual]
    by_cases he : bottomPart lo hi = (o,t)
    · rw [if_pos he]
      refine ⟨(o,t),by rw [he],h,fun b x hx => ⟨x,hx,.inr ⟨?_,rfl⟩⟩⟩
      have hv : bindingAt (bottomPart (V := V) lo hi).1 (bottomPart (V := V) lo hi).2 b = some x := by rwa [he]
      exact bottomPart_value hv
    · rw [if_neg he]
      cases t with
      | empty =>
        obtain ⟨rfl,rfl⟩ := h.1
        exact absurd (by rw [bottomPart,if_neg (by omega)]) he
      | node max offl subl offr subr rem modu v =>
        have hroot := h.1.root_le
        obtain ⟨hmax,hl,hr,hok,-⟩ := h.node_parts
        obtain ⟨rl,f1,f2,f3⟩ := ih (by omega) hl
        obtain ⟨rr,g1,g2,g3⟩ := ih (by omega) hr
        have hmid : Merging.join.fAux littleEndian o (max + o) 0 1 bottom rem modu v = some (rem,modu,anisotropicCast modu v) := by
          rw [Merging.fAux,fAuxMergeJoin]
          dsimp only
          rw [hbot]
          split
          · rename_i hv
            obtain ⟨hrem,hmodu⟩ := hok.2.2 hv
            simp only at hrem hmodu
            rw [hrem,hmodu]
          · rfl
        obtain ⟨o3,t3,u1,u2,u3⟩ := addNode_right_bindings f2 (by omega : o ≤ max + o)
          (.inr ⟨hok.1,hok.2.1⟩ : isIsotropic (anisotropicCast modu v) = true ∨ 0 ≤ rem ∧ rem < modu)
        obtain ⟨o4,t4,w1,w2,w3⟩ := union_bindings (m := max + o) u2 (by rwa [add_comm o max] at g2)
        refine ⟨(o4,t4),?_,w2,fun b x hx => ?_⟩
        · rw [bottomPart,if_pos (by omega),merge]
          have hleft := mergeLeft_bottom (c := ⟨max,offl,subl,offr,subr,rem,modu,v⟩) hiso hi hroot.1
          have hright := mergeRight_bottom (c := ⟨max,offl,subl,offr,subr,rem,modu,v⟩) hiso lo
            (show max + o ≤ hi by omega)
          rw [add_comm o max] at g1
          dsimp only at hleft hright
          simp only [hleft,hright,f1,g1,hmid,u1,w1,Option.bind_eq_bind,Option.bind_some]
        · rw [w3,u3]
          rw [bindingAt,segs,bindings_append,bindings] at hx
          dsimp only at hx
          by_cases hb : b ≤ max + o
          · rw [if_pos hb]
            by_cases hb' : o ≤ b
            · rw [hl.1.tiles.bindings_none (by omega),Option.none_or,if_pos ⟨hb',by omega⟩] at hx
              rw [if_pos ⟨hb',hb⟩]
              exact ⟨_,rfl,.inl (Option.some.inj hx ▸ rfl)⟩
            · rw [if_neg (by omega),hr.1.tiles.bindings_none (by omega),Option.or_none] at hx
              rw [if_neg (by omega)]
              exact f3 b x hx
          · rw [hl.1.tiles.bindings_none (by omega),Option.none_or,if_neg (by omega)] at hx
            rw [if_neg hb]
            exact g3 b x hx

theorem join_bottom (littleEndian : Bool) (hsize : 1 ≤ size) (h : Canon 0 (size - 1) 0 t) :
    ∃ r, join littleEndian (isotropicInterval size bottom) t = some r ∧ Canon 0 (size - 1) 0 r ∧
      ∀ b x, bindingAt 0 t b = some x → ∃ x', bindingAt 0 r b = some x' ∧ x.Copied x' := by
  have hinit : ((0 : ℤ),isotropicInterval size (bottom : V)) = bottomPart 0 (size - 1) := by
    rw [isotropicInterval,if_neg (by omega),bottomPart,if_pos (by omega),sub_zero,sub_add_cancel]
  obtain ⟨⟨o',r⟩,h1,h2,h3⟩ := mergeRec_bottom hbot hiso littleEndian ((size - 1 - 0 + 1).toNat + 1) (by omega) h
  obtain rfl := h2.1.root_zero
  refine ⟨r,?_,h2,h3⟩
  have hbounds := (bottomPart_canon hiso (by omega : (0 : ℤ) ≤ size - 1 + 1)).1.bounds
  rw [join,Merging.run,hinit,mergeFrom,hbounds]
  dsimp only
  rw [Merging.stop,h1]
  rfl

end Bottom

section Singleton
variable [DecidableEq V] [OffsetmapLattice V] {sc : ℕ} {n o size plevel : ℤ} {t src dst : Offsetmap V}

/-- A bit that is copied: unbound, or bound to a copy, which is the same binding when the cast leaves the value as it is. -/
def CopiedBit (old new : Option (Binding V)) : Prop :=
  (old = none → new = none) ∧ ∀ x, old = some x → ∃ x', new = some x' ∧ x.Copied x' ∧ (anisotropicCast x.size x.value = x.value → x' = x)

omit [DecidableEq V] in
theorem Binding.Copied.eq_self {x x' : Binding V} (h : x.Copied x') (hn : x.normalize = x)
    (hcast : anisotropicCast x.size x.value = x.value) : x' = x := by
  rcases h with h | h
  · rw [h,hcast]
    exact hn
  · exact h.2

theorem normalize_bindingAt {lo hi b : ℤ} {x : Binding V} (h : Canon lo hi o t) (hx : bindingAt o t b = some x) : x.normalize = x := by
  obtain ⟨s,hs,-,-,rfl⟩ := exists_of_bindings hx
  exact (h.2.1 s hs).normalize_bind b

theorem copySlice_singleton (hbot : ∀ w : V, OffsetmapLattice.join bottom w = w) (hiso : isIsotropic (bottom : V) = true)
    (littleEndian : Bool) (hsc : 2 ≤ sc) (h : Canon 0 (n - 1) 0 t) (hsize : 1 ≤ size) (ho : 0 ≤ o) (hos : o + size ≤ n) :
    ∃ r, copySlice littleEndian sc (.known 0 (n - 1)) (.set [o]) size t = some (.value r) ∧ Canon 0 (size - 1) 0 r ∧
      ∀ b, CopiedBit (if 0 ≤ b ∧ b ≤ size - 1 then bindingAt 0 t (b + o) else none) (bindingAt 0 r b) := by
  obtain ⟨s,g1,g2,g3⟩ := readOneItv_copy h ho hsize (by omega)
  obtain ⟨r,j1,j2,j3⟩ := join_bottom hbot hiso littleEndian hsize g2
  refine ⟨r,?_,j2,fun b => ?_⟩
  · simp only [Option.map_eq_map] at g1
    simp only [copySlice,TrOffset.trimByValidity_singleton hsc hsize,if_pos (show 0 ≤ o ∧ o + size - 1 ≤ n - 1 by omega),
      if_neg (show size ≠ 0 by omega),Except.toOption,Option.bind_eq_bind,Option.bind_some,read,List.foldlM_cons,List.foldlM_nil,
      g1,Option.map_eq_map,Option.map_some,Option.pure_def,j1]
  · rw [← g3]
    refine ⟨fun hnone => ?_,fun x hx => ?_⟩
    · apply bindingAt_none j2
      by_contra hb
      obtain ⟨x,hx⟩ := bindingAt_isSome g2 (by omega : 0 ≤ b) (by omega)
      rw [hx] at hnone
      cases hnone
    · obtain ⟨x',hx',hc⟩ := j3 b x hx
      exact ⟨x',hx',hc,hc.eq_self (normalize_bindingAt g2 hx)⟩

theorem pasteSlice_singleton (sc : ℕ) (littleEndian : Bool) (hplevel : 1 ≤ plevel) (hsrc : Canon 0 (size - 1) 0 src) (h : Canon 0 (n - 1) 0 dst)
    (hsize : 1 ≤ size) (ho : 0 ≤ o) (hos : o + size ≤ n) :
    ∃ r, pasteSlice littleEndian plevel sc (.known 0 (n - 1)) true src size (.set [o]) dst = some (.value r) ∧
      Canon 0 (n - 1) 0 r ∧
      ∀ b, bindingAt 0 r b = if o ≤ b ∧ b < o + size then bindingAt 0 src (b - o) else bindingAt 0 dst b := by
  obtain ⟨r,g1,g2,g3⟩ := pasteSliceItv_bindings hsrc h hsize ho (by omega)
  refine ⟨r,?_,g2,fun b => ?_⟩
  · have hcard : Ival.cardinalLessThan (.set [o]) plevel = .ok 1 := if_pos hplevel
    have hpaste : pasteSlice littleEndian plevel sc (.known 0 (n - 1)) true src size (.set [o]) dst =
        pasteSliceNotContiguous littleEndian plevel sc (.known 0 (n - 1)) true src size (.set [o]) dst := if_neg (by omega)
    rw [hpaste,pasteSliceNotContiguous,hcard]
    simp only [Ival.foldInt,List.foldl_cons,List.foldl_nil,Except.toOption,Option.bind_eq_bind,Option.bind_some,isWeakValidity,
      if_neg (show ¬ (o < 0 ∨ o + size - 1 > n - 1) by omega),Bool.not_false,Bool.and_true,g1,Option.map_eq_map,Option.map_some]
    rfl
  · rw [g3]
    by_cases hb : o ≤ b ∧ b < o + size
    · rw [if_pos hb,if_pos (by omega)]
    · rw [if_neg hb,if_neg (by omega)]

/-- A pasted slice is copied back as it was up to the cast, the rest of the map is left as it is, and so is the map when a copy
of its slice is pasted back. -/
theorem paste_then_copy_slice (hbot : ∀ w : V, OffsetmapLattice.join bottom w = w) (hiso : isIsotropic (bottom : V) = true)
    (littleEndian : Bool) (hplevel : 1 ≤ plevel) (hsc : 2 ≤ sc) (hsrc : WellFormed 0 src) (hs : boundsOffset 0 src = (0,size - 1))
    (hdst : WellFormed 0 dst) (hn : boundsOffset 0 dst = (0,n - 1)) (hsize : 1 ≤ size) (ho : 0 ≤ o) (hos : o + size ≤ n) :
    (∃ r copy, pasteSlice littleEndian plevel sc (.known 0 (n - 1)) true src size (.set [o]) dst = some (.value r) ∧
      copySlice littleEndian sc (.known 0 (n - 1)) (.set [o]) size r = some (.value copy) ∧
      (∀ b, CopiedBit (bindingAt 0 src b) (bindingAt 0 copy b)) ∧
      ∀ b, b < o ∨ o + size ≤ b → bindingAt 0 r b = bindingAt 0 dst b) ∧
    ∃ slice r, copySlice littleEndian sc (.known 0 (n - 1)) (.set [o]) size dst = some (.value slice) ∧
      pasteSlice littleEndian plevel sc (.known 0 (n - 1)) true slice size (.set [o]) dst = some (.value r) ∧
      (∀ b, o ≤ b → b < o + size → CopiedBit (bindingAt 0 dst b) (bindingAt 0 r b)) ∧
      ∀ b, b < o ∨ o + size ≤ b → bindingAt 0 r b = bindingAt 0 dst b := by
  have hc : Canon 0 (n - 1) 0 dst := spanning_iff_canon.mp ⟨hdst,hn⟩
  have hcs : Canon 0 (size - 1) 0 src := spanning_iff_canon.mp ⟨hsrc,hs⟩
  constructor
  · obtain ⟨r,p1,p2,p3⟩ := pasteSlice_singleton sc littleEndian hplevel hcs hc hsize ho hos
    obtain ⟨copy,c1,-,c3⟩ := copySlice_singleton hbot hiso littleEndian hsc p2 hsize ho hos
    refine ⟨r,copy,p1,c1,fun b => ?_,fun b hb => ?_⟩
    · have hbit : (if 0 ≤ b ∧ b ≤ size - 1 then bindingAt 0 r (b + o) else none) = bindingAt 0 src b := by
        split
        · rw [p3,if_pos (by omega),add_sub_cancel_right]
        · exact (bindingAt_none hcs (by omega)).symm
      have hcopied := c3 b
      rwa [hbit] at hcopied
    · rw [p3,if_neg (by omega)]
  · obtain ⟨slice,c1,c2,c3⟩ := copySlice_singleton hbot hiso littleEndian hsc hc hsize ho hos
    obtain ⟨r,p1,-,p3⟩ := pasteSlice_singleton sc littleEndian hplevel c2 hc hsize ho hos
    refine ⟨slice,r,c1,p1,fun b hb1 hb2 => ?_,fun b hb => ?_⟩
    · have hcopied := c3 (b - o)
      rw [if_pos (by omega),sub_add_cancel] at hcopied
      rw [p3,if_pos ⟨hb1,hb2⟩]
      exact hcopied
    · rw [p3,if_neg (by omega)]

theorem paste_then_copy_slice_bytes :
    (∃ r copy, pasteSlice true 200 8 (.known 0 31) true (addNode 4 15 0 1 true 0 (intervalAux 3 0 1 false)).2 16 (.set [8])
        (intervalAux 31 0 1 false) = some (.value r) ∧
      copySlice true 8 (.known 0 31) (.set [8]) 16 r = some (.value copy) ∧
      (∀ b, CopiedBit (bindingAt 0 (addNode 4 15 0 1 true 0 (intervalAux 3 0 1 false)).2 b) (bindingAt 0 copy b)) ∧
      ∀ b, b < 8 ∨ 8 + 16 ≤ b → bindingAt 0 r b = bindingAt 0 (intervalAux 31 0 1 false) b) ∧
    ∃ slice r, copySlice true 8 (.known 0 31) (.set [8]) 16 (intervalAux 31 0 1 false) = some (.value slice) ∧
      pasteSlice true 200 8 (.known 0 31) true slice 16 (.set [8]) (intervalAux 31 0 1 false) = some (.value r) ∧
      (∀ b, 8 ≤ b → b < 8 + 16 → CopiedBit (bindingAt 0 (intervalAux 31 0 1 false) b) (bindingAt 0 r b)) ∧
      ∀ b, b < 8 ∨ 8 + 16 ≤ b → bindingAt 0 r b = bindingAt 0 (intervalAux 31 0 1 false) b := by
  have hsrc : Spanning 0 15 (addNode 4 15 0 1 true 0 (intervalAux 3 0 1 false)) :=
    spanning_addNode_right (spanning_iff_canon.mpr (intervalAux_spec (show (0 : ℤ) ≤ 3 by omega) (.inl rfl)).1)
      (by omega) (.inl rfl)
  have hdst : Spanning 0 31 ((0 : ℤ),intervalAux 31 0 1 false) :=
    spanning_iff_canon.mpr (intervalAux_spec (show (0 : ℤ) ≤ 31 by omega) (.inl rfl)).1
  exact @paste_then_copy_slice Bool _ _ 8 32 8 16 200 _ _ (fun _ => rfl) rfl true (by omega) (by omega) hsrc.1 hsrc.2 hdst.1
    hdst.2 (by omega) (by omega) (by omega)

end Singleton

/-- Values with two representations of all the integers of 8 bits: their set, which is not isotropic, and `topInt`, by which
`anisotropic_cast` replaces it. -/
inductive ByteSet
  | bottom
  | zero
  | allValues
  | topInt
  deriving DecidableEq, Repr

instance : OffsetmapLattice ByteSet where
  bottom := .bottom
  join v1 v2 := if v1 = .bottom then v2 else if v2 = .bottom ∨ v1 = v2 then v1 else .topInt
  isIncluded v1 v2 := decide (v1 = .bottom) || decide (v1 = v2) || decide (v2 = .topInt)
  cardinalZeroOrOne v := decide (v = .bottom) || decide (v = .zero)
  isIsotropic v := decide (v ≠ .allValues)
  topifyWithOrigin _ v := if v = .bottom then .bottom else .topInt
  extractBits _ _ _ _ v := (false,if v = .allValues then .topInt else v)
  shiftBits _ _ _ v := if v = .allValues then .topInt else v
  mergeDistinctBits _ _ v acc := if v = .zero then acc else if acc = .zero then v else .topInt
  mergeNeutralElement := .zero
  anisotropicCast size v := if v = .allValues ∧ size = 8 then .topInt else v

/-- A copy casts the values that it finds, and a precision level of zero makes a paste at one offset imprecise. -/
theorem paste_then_copy_other_bits :
    (WellFormed 0 (intervalAux 7 0 8 ByteSet.allValues) ∧ boundsOffset 0 (intervalAux 7 0 8 ByteSet.allValues) = (0,7) ∧
      WellFormed 0 (intervalAux 31 0 1 ByteSet.zero) ∧ boundsOffset 0 (intervalAux 31 0 1 ByteSet.zero) = (0,31)) ∧
    (∃ r copy, pasteSlice true 200 8 (.known 0 31) true (intervalAux 7 0 8 ByteSet.allValues) 8 (.set [8])
        (intervalAux 31 0 1 .zero) = some (.value r) ∧
      copySlice true 8 (.known 0 31) (.set [8]) 8 r = some (.value copy) ∧
      bindingAt 0 (intervalAux 7 0 8 ByteSet.allValues) 0 = some ⟨.allValues,8,0⟩ ∧ bindingAt 0 copy 0 = some ⟨.topInt,1,0⟩) ∧
    (WellFormed 0 (addNode 4 7 0 1 ByteSet.topInt 0 (intervalAux 3 0 1 .zero)).2 ∧
      boundsOffset 0 (addNode 4 7 0 1 ByteSet.topInt 0 (intervalAux 3 0 1 .zero)).2 = (0,7)) ∧
    ∃ r copy, pasteSlice true 0 8 (.known 0 31) true (addNode 4 7 0 1 ByteSet.topInt 0 (intervalAux 3 0 1 .zero)).2 8 (.set [8])
        (intervalAux 31 0 1 .zero) = some (.value r) ∧
      copySlice true 8 (.known 0 31) (.set [8]) 8 r = some (.value copy) ∧
      bindingAt 0 (addNode 4 7 0 1 ByteSet.topInt 0 (intervalAux 3 0 1 .zero)).2 0 = some ⟨.zero,1,0⟩ ∧
      bindingAt 0 copy 0 = some ⟨.topInt,1,0⟩ := by
  have hvalues : Spanning 0 7 ((0 : ℤ),intervalAux 7 0 8 ByteSet.allValues) :=
    spanning_iff_canon.mpr (intervalAux_spec (show (0 : ℤ) ≤ 7 by omega) (.inr ⟨le_rfl,by omega⟩)).1
  have hdst : Spanning 0 31 ((0 : ℤ),intervalAux 31 0 1 ByteSet.zero) :=
    spanning_iff_canon.mpr (intervalAux_spec (show (0 : ℤ) ≤ 31 by omega) (.inl rfl)).1
  have hsrc : Spanning 0 7 (addNode 4 7 0 1 ByteSet.topInt 0 (intervalAux 3 0 1 .zero)) :=
    spanning_addNode_right (spanning_iff_canon.mpr (intervalAux_spec (show (0 : ℤ) ≤ 3 by omega) (.inl rfl)).1)
      (by omega) (.inl rfl)
  exact ⟨⟨hvalues.1,hvalues.2,hdst.1,hdst.2⟩,⟨_,_,rfl,rfl,by decide,by decide⟩,⟨hsrc.1,hsrc.2⟩,⟨_,_,rfl,rfl,by decide,by decide⟩⟩

end FramaC.Offsetmap
