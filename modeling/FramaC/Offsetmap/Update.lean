import FramaC.Offsetmap.Clip

/-! # Cutting and updating offsetmaps

`keep_below` and `keep_above` clip the segments of a tree. An update replaces the clipped
segments of an interval, either by one segment (exact) or by the join of the value with each of
them, found by moving a zipper to the right.
-/
namespace FramaC.Offsetmap
open OffsetmapLattice Pivot
variable {V : Type} [DecidableEq V] [OffsetmapLattice V]

@[grind =] def keepBelow (offset currOff : ℤ) : Offsetmap V → ℤ × Offsetmap V
  | .empty => (offset,.empty)
  | .node max offl subl offr subr rem m v =>
    let newOffl := offl + currOff
    if offset < currOff then keepBelow offset newOffl subl
    else if offset = currOff then (newOffl,subl)
    else
      let sup := currOff + max
      if offset > sup then
        let (newOffr,newSubr) := keepBelow offset (currOff + offr) subr
        (currOff,.node max offl subl (newOffr - currOff) newSubr rem m v)
      else
        let newMax := offset - currOff - 1
        addNode currOff (newMax + currOff) rem m v (currOff + offl) subl

@[grind =] def keepAbove (offset currOff : ℤ) : Offsetmap V → ℤ × Offsetmap V
  | .empty => (offset + 1,.empty)
  | .node max offl subl offr subr rem m v =>
    let newOffr := offr + currOff
    let absMax := currOff + max
    if offset > absMax then keepAbove offset newOffr subr
    else if offset = absMax then (newOffr,subr)
    else if offset < currOff then
      let (newOffl,newSubl) := keepAbove offset (currOff + offl) subl
      (currOff,.node max (newOffl - currOff) newSubl offr subr rem m v)
    else
      let min := offset + 1
      let newReml := realign currOff min rem m
      addNode min absMax newReml m v newOffr subr

section Cuts
variable {lo hi o x : ℤ} {t : Offsetmap V}

theorem keepBelow_spec (h : Canon lo hi o t) (hlo : lo ≤ x) (hhi : x ≤ hi + 1) :
    ∃ o' t', keepBelow x o t = (o',t') ∧ Canon lo (x - 1) o' t' ∧ segs o' t' = clip lo (x - 1) (segs o t) := by
  induction t generalizing lo hi o with
  | empty =>
    obtain ⟨h1,h2⟩ := h.1
    obtain rfl : x = lo := by omega
    exact ⟨x,.empty,rfl,canon_empty x,rfl⟩
  | node max offl subl offr subr rem modu v ihl ihr =>
    have hroot := h.1.root_le
    have hgood := h.2.clip h.1.tiles lo (x - 1)
    obtain ⟨hmax,hl,hr,hok,p,hp,hp1,hp2⟩ := h.node_parts
    rw [segs,clip_append] at hgood ⊢
    rw [keepBelow]
    by_cases hx1 : x < o
    · rw [if_pos hx1,add_comm]
      obtain ⟨o',t',g1,g2,g3⟩ := ihl hl hlo (by omega)
      refine ⟨o',t',g1,g2,?_⟩
      rw [clip_cons_none (.inr (by show x - 1 < o; omega)),hr.1.tiles.clip_left (by omega),List.append_nil,g3]
    rw [if_neg hx1]
    by_cases hx2 : x = o
    · subst hx2
      rw [if_pos rfl]
      refine ⟨offl + x,subl,rfl,by rwa [add_comm],?_⟩
      rw [clip_cons_none (.inr (by show x - 1 < x; omega)),hr.1.tiles.clip_left (by omega),List.append_nil,
        clip_self hl.2.1 hl.1.tiles le_rfl le_rfl,add_comm]
    rw [if_neg hx2]
    have hleft : clip lo (x - 1) (segs (o + offl) subl) = segs (o + offl) subl :=
      clip_self hl.2.1 hl.1.tiles le_rfl (by omega)
    rw [hleft,clip_cons_some hroot.2.1 (by show o ≤ x - 1; omega) (by show lo ≤ o + max; omega) (by omega)] at hgood ⊢
    simp only [max_eq_right hroot.1,realign_self hok.1 hok.2.1] at hgood ⊢
    by_cases hx3 : x > o + max
    · rw [if_pos hx3]
      obtain ⟨o',t',g1,g2,g3⟩ := ihr hr (by omega) hhi
      have hrest : clip lo (x - 1) (segs (o + offr) subr) = segs o' t' := by
        rw [g3,hr.1.tiles.clip_lower (by omega) le_rfl]
      rw [hrest,min_eq_right (show o + max ≤ x - 1 by omega)] at hgood ⊢
      refine ⟨o,.node max offl subl (o' - o) t' rem modu v,by rw [g1],⟨?_,?_⟩,?_⟩
      · exact Shape.node hmax hl.1 (by rw [add_sub_cancel]; exact g2.1)
          (hp.restrict le_rfl (by omega) (by omega) (by omega)) hp1 hp2
      · rwa [segs,add_sub_cancel]
      · rw [segs,add_sub_cancel]
    · rw [if_neg hx3,show x - o - 1 + o = x - 1 by ring]
      rw [hr.1.tiles.clip_left (by omega),min_eq_left (show x - 1 ≤ o + max by omega)] at hgood ⊢
      have hok' : (⟨o,x - 1,rem,modu,v⟩ : Seg V).Ok := hok
      obtain ⟨o',t',g1,g2,g3⟩ := addNode_right hl (show o ≤ x - 1 by omega) (.inr ⟨hok.1,hok.2.1⟩)
      refine ⟨o',t',g1,g2,?_⟩
      rw [g3,newSeg_eq hok',hgood.glueList_eq]

theorem keepAbove_spec (h : Canon lo hi o t) (hlo : lo - 1 ≤ x) (hhi : x ≤ hi) :
    ∃ o' t', keepAbove x o t = (o',t') ∧ Canon (x + 1) hi o' t' ∧ segs o' t' = clip (x + 1) hi (segs o t) := by
  induction t generalizing lo hi o with
  | empty =>
    obtain ⟨h1,h2⟩ := h.1
    obtain rfl : hi = x := by omega
    refine ⟨hi + 1,.empty,rfl,?_,rfl⟩
    exact ⟨⟨rfl,by omega⟩,good_nil⟩
  | node max offl subl offr subr rem modu v ihl ihr =>
    have hroot := h.1.root_le
    have hgood := h.2.clip h.1.tiles (x + 1) hi
    obtain ⟨hmax,hl,hr,hok,p,hp,hp1,hp2⟩ := h.node_parts
    rw [segs,clip_append] at hgood ⊢
    rw [keepAbove]
    dsimp only
    by_cases hx1 : x > o + max
    · rw [if_pos hx1,add_comm offr]
      obtain ⟨o',t',g1,g2,g3⟩ := ihr hr (by omega) hhi
      refine ⟨o',t',g1,g2,?_⟩
      rw [hl.1.tiles.clip_right (by omega),clip_cons_none (.inl (by show o + max < x + 1; omega)),List.nil_append,g3]
    rw [if_neg hx1]
    by_cases hx2 : x = o + max
    · subst hx2
      rw [if_pos rfl]
      refine ⟨offr + o,subr,rfl,by rwa [add_comm offr],?_⟩
      rw [hl.1.tiles.clip_right (by omega),clip_cons_none (.inl (by show o + max < o + max + 1; omega)),
        List.nil_append,clip_self hr.2.1 hr.1.tiles le_rfl le_rfl,add_comm offr]
    rw [if_neg hx2]
    have hright : clip (x + 1) hi (segs (o + offr) subr) = segs (o + offr) subr :=
      clip_self hr.2.1 hr.1.tiles (by omega) le_rfl
    rw [clip_cons_some hroot.2.1 (by show o ≤ hi; omega) (by show x + 1 ≤ o + max; omega) (by omega),hright]
      at hgood ⊢
    simp only [min_eq_right hroot.2.2] at hgood ⊢
    by_cases hx3 : x < o
    · rw [if_pos hx3]
      obtain ⟨o',t',g1,g2,g3⟩ := ihl hl (by omega) (by omega)
      have hrest : clip (x + 1) hi (segs (o + offl) subl) = segs o' t' := by
        rw [g3,hl.1.tiles.clip_upper (by omega) le_rfl]
      rw [hrest,max_eq_right (show x + 1 ≤ o by omega),realign_self hok.1 hok.2.1] at hgood ⊢
      refine ⟨o,.node max (o' - o) t' offr subr rem modu v,by rw [g1],⟨?_,?_⟩,?_⟩
      · exact Shape.node hmax (by rw [add_sub_cancel]; exact g2.1) hr.1
          (hp.restrict (by omega) le_rfl (by omega) (by omega)) hp1 hp2
      · rwa [segs,add_sub_cancel]
      · rw [segs,add_sub_cancel]
    · rw [if_neg hx3,add_comm offr]
      rw [hl.1.tiles.clip_right (by omega),max_eq_left (show o ≤ x + 1 by omega),List.nil_append] at hgood ⊢
      have hok' : (⟨x + 1,o + max,realign o (x + 1) rem modu,modu,v⟩ : Seg V).Ok := hok.clip _ _
      obtain ⟨o',t',g1,g2,g3⟩ := addNode_left hr (show x + 1 ≤ o + max by omega) (.inr ⟨hok'.1,hok'.2.1⟩)
      refine ⟨o',t',g1,g2,?_⟩
      rw [g3,newSeg_eq hok',hgood.glueList_eq]

theorem keepBelow_of_lt (h : Shape lo hi o t) (hx : x < lo) :
    keepBelow x o t = (x,.empty) := by
  induction t generalizing lo hi o with
  | empty => rfl
  | node max offl subl offr subr rem modu v ihl ihr =>
    have hroot := h.root_le
    rw [keepBelow,if_pos (by omega),add_comm offl]
    exact ihl h.2.1 hx

theorem keepAbove_of_gt (h : Shape lo hi o t) (hx : hi < x) : keepAbove x o t = (x + 1,.empty) := by
  induction t generalizing lo hi o with
  | empty => rfl
  | node max offl subl offr subr rem modu v ihl ihr =>
    have hroot := h.root_le
    rw [keepAbove]
    dsimp only
    rw [if_pos (by omega),add_comm offr]
    exact ihr h.2.2.1 hx

end Cuts

section Zippers
omit [DecidableEq V] [OffsetmapLattice V]

/-- The interval a position lies in, with the zipper that leads to it; `none` is
`Bit_Not_found`. -/
def findBitOffset (i : ℤ) (z : Zipper V) (currOff : ℤ) : Offsetmap V → Option (Zipper V × ℤ × Cell V)
  | .empty => none
  | .node max offl subl offr subr rem modu v =>
    let tree : Cell V := ⟨max,offl,subl,offr,subr,rem,modu,v⟩
    let absMax := currOff + max
    if i ≥ currOff ∧ i ≤ absMax then some (z,currOff,tree)
    else if i < currOff then findBitOffset i (.left currOff tree z) (currOff + offl) subl
    else findBitOffset i (.right currOff tree z) (currOff + offr) subr

def unzipUntilLeft : Zipper V → Option (ℤ × Cell V × Zipper V)
  | .endZ => none
  | .right _ _ z => unzipUntilLeft z
  | .left offset tree z => some (offset,tree,z)

/-- The next interval; `none` is `End_reached`. -/
def moveRight (currOff : ℤ) (node : Cell V) (zipper : Zipper V) : Option (ℤ × Cell V × Zipper V) :=
  match node.subr with
  | .node .. => leftmostChild (currOff + node.offr) (.right currOff node zipper) node.subr
  | .empty => unzipUntilLeft zipper

def Cell.seg (o : ℤ) (c : Cell V) : Seg V := ⟨o,o + c.max,c.rem,c.modu,c.v⟩

def Zipper.after : Zipper V → List (Seg V)
  | .endZ => []
  | .right _ _ z => z.after
  | .left o c z => c.seg o :: segs (o + c.offr) c.subr ++ z.after

def following (o : ℤ) (c : Cell V) (z : Zipper V) : List (Seg V) := segs (o + c.offr) c.subr ++ z.after

theorem leftmostChild_after {o : ℤ} {z : Zipper V} {t : Offsetmap V} (hne : t ≠ .empty) :
    ∃ o' c z', leftmostChild o z t = some (o',c,z') ∧ segs o t ++ z.after = c.seg o' :: following o' c z' := by
  induction t generalizing o z with
  | empty => exact absurd rfl hne
  | node max offl subl offr subr rem modu v ihl ihr =>
    cases subl with
    | empty => exact ⟨o,⟨max,offl,.empty,offr,subr,rem,modu,v⟩,z,rfl,rfl⟩
    | node max' offl' subl' offr' subr' rem' modu' v' =>
      obtain ⟨o',c,z',h1,h2⟩ := ihl (o := o + offl) (z := .left o ⟨max,offl,_,offr,subr,rem,modu,v⟩ z) (by simp)
      refine ⟨o',c,z',h1,?_⟩
      rw [← h2,segs,Zipper.after]
      simp [Cell.seg]

theorem unzipUntilLeft_after (z : Zipper V) : (unzipUntilLeft z = none ∧ z.after = []) ∨
    ∃ o c z', unzipUntilLeft z = some (o,c,z') ∧ z.after = c.seg o :: following o c z' := by
  induction z with
  | endZ => exact .inl ⟨rfl,rfl⟩
  | right o c z ih => exact ih
  | left o c z ih => exact .inr ⟨o,c,z,rfl,rfl⟩

theorem moveRight_spec {o : ℤ} {c : Cell V} {z : Zipper V} {s : Seg V} {l : List (Seg V)}
    (h : following o c z = s :: l) :
    ∃ o' c' z', moveRight o c z = some (o',c',z') ∧ s = c'.seg o' ∧ l = following o' c' z' := by
  rw [following] at h
  rw [moveRight]
  cases hsub : c.subr with
  | empty =>
    rw [hsub,segs,List.nil_append] at h
    rcases unzipUntilLeft_after z with ⟨_,h2⟩ | ⟨o',c',z',h1,h2⟩
    · rw [h2] at h
      exact absurd h (by simp)
    · rw [h2] at h
      obtain ⟨e1,e2⟩ := List.cons.inj h
      exact ⟨o',c',z',h1,e1.symm,e2.symm⟩
  | node max offl subl offr subr rem modu v =>
    obtain ⟨o',c',z',h1,h2⟩ := leftmostChild_after (o := o + c.offr) (z := .right o c z)
      (show c.subr ≠ .empty by simp [hsub])
    rw [Zipper.after,h] at h2
    obtain ⟨e1,e2⟩ := List.cons.inj h2
    rw [hsub] at h1
    exact ⟨o',c',z',h1,e1,e2⟩

theorem findBitOffset_spec {lo hi o i : ℤ} {t : Offsetmap V} (h : Shape lo hi o t) (h1 : lo ≤ i) (h2 : i ≤ hi)
    (z : Zipper V) : ∃ z' o' c l, findBitOffset i z o t = some (z',o',c) ∧ o' ≤ i ∧ i ≤ o' + c.max ∧
      segs o t ++ z.after = l ++ c.seg o' :: following o' c z' ∧ Tiles lo (o' - 1) l := by
  induction t generalizing lo hi o z with
  | empty =>
    obtain ⟨h3,h4⟩ := h
    omega
  | node max offl subl offr subr rem modu v ihl ihr =>
    have hroot := h.root_le
    obtain ⟨hmax,hl,hr,_⟩ := h
    rw [findBitOffset]
    by_cases hi1 : i ≥ o ∧ i ≤ o + max
    · rw [if_pos hi1]
      refine ⟨z,o,_,segs (o + offl) subl,rfl,hi1.1,hi1.2,?_,hl.tiles⟩
      rw [segs,List.append_assoc]
      rfl
    rw [if_neg hi1]
    by_cases hi2 : i < o
    · rw [if_pos hi2]
      obtain ⟨z',o',c,l,g1,g2,g3,g4,g5⟩ := ihl hl h1 (by omega) (.left o ⟨max,offl,subl,offr,subr,rem,modu,v⟩ z)
      refine ⟨z',o',c,l,g1,g2,g3,?_,g5⟩
      rw [← g4,segs,Zipper.after]
      simp [Cell.seg]
    · rw [if_neg hi2]
      obtain ⟨z',o',c,l,g1,g2,g3,g4,g5⟩ :=
        ihr hr (by omega) h2 (.right o ⟨max,offl,subl,offr,subr,rem,modu,v⟩ z)
      refine ⟨z',o',c,segs (o + offl) subl ++ ⟨o,o + max,rem,modu,v⟩ :: l,g1,g2,g3,?_,?_⟩
      · rw [Zipper.after] at g4
        rw [segs,List.append_assoc,List.cons_append,g4]
        simp
      · refine hl.tiles.append ⟨?_,?_,g5⟩
        · show o = o - 1 + 1
          omega
        · show o ≤ o + max
          omega

end Zippers

/-- What a weak update of `v` writes over a node, both aligned on the same offset. -/
def joinedNode (rem size : ℤ) (v : V) (rNode mNode : ℤ) (vNode : V) : ℤ × ℤ × V :=
  let joinedValue := join vNode v
  if isIsotropic v || (decide (rem = rNode) && decide (mNode = size)) then
    (rNode,mNode,anisotropicCast mNode joinedValue)
  else if isIsotropic vNode then (rem,size,anisotropicCast size joinedValue)
  else (0,1,topifyWithOrigin .merge joinedValue)

/-- The loop of a weak update; `none` stands for `End_reached`. -/
def updateLoop (offset absMax size rem : ℤ) (v : V) : ℕ → ℤ → Cell V → Zipper V → ℤ → Offsetmap V →
    Option (ℤ × Offsetmap V)
  | 0,_,_,_,_,_ => none
  | fuel + 1,o,c,z,leftOffset,leftTree =>
    if o ≤ absMax then
      let newOffset := max offset o
      let remAt := realign offset newOffset rem size
      let rNode := realign o newOffset c.rem c.modu
      let (newR,newM,newV) := joinedNode remAt size v rNode c.modu c.v
      let nodeAbsMax := o + c.max
      let (endReached,writeMax) := if nodeAbsMax ≥ absMax then (true,absMax) else (false,nodeAbsMax)
      let (newLeftOffset,newLeftTree) := addNode newOffset writeMax newR newM newV leftOffset leftTree
      if endReached then some (newLeftOffset,newLeftTree)
      else
        match moveRight o c z with
        | none => none
        | some (o',c',z') => updateLoop offset absMax size rem v fuel o' c' z' newLeftOffset newLeftTree
    else some (leftOffset,leftTree)

def count : Offsetmap V → ℕ
  | .empty => 0
  | .node _ _ subl _ subr _ _ _ => count subl + count subr + 1

/-- Writes `v`, of the given size and alignment, on `[offset..absMax]`. -/
def updateItvWithRem (exact : Bool) (offset absMax size rem : ℤ) (v : V) (currOff : ℤ) (tree : Offsetmap V) :
    Option (ℤ × Offsetmap V) :=
  if size = 0 then some (currOff,tree)
  else
    let (off1,t1) := keepAbove absMax currOff tree
    let (off2,t2) := keepBelow offset currOff tree
    if exact then
      let (offAdd,tAdd) := addNode offset absMax rem size v off1 t1
      some (union off2 t2 offAdd tAdd)
    else
      match findBitOffset offset .endZ currOff tree with
      | none => none
      | some (z,o,c) =>
        match updateLoop offset absMax size rem v (count tree) o c z off2 t2 with
        | none => none
        | some (leftOffset,leftTree) => some (union leftOffset leftTree off1 t1)

def updateItv (exact : Bool) (offset absMax size : ℤ) (v : V) (currOff : ℤ) (tree : Offsetmap V) :
    Option (ℤ × Offsetmap V) := updateItvWithRem exact offset absMax size 0 v currOff tree

omit [DecidableEq V] in
theorem joinedNode_aligned {rem size rNode mNode : ℤ} {v : V} (vNode : V)
    (h : isIsotropic v = true ∨ 0 ≤ rem ∧ rem < size) (h1 : 0 ≤ rNode) (h2 : rNode < mNode) :
    0 ≤ (joinedNode rem size v rNode mNode vNode).1 ∧
      (joinedNode rem size v rNode mNode vNode).1 < (joinedNode rem size v rNode mNode vNode).2.1 := by
  unfold joinedNode
  by_cases hv : isIsotropic v = true
  · simp [hv,h1,h2]
  · have h := h.resolve_left hv
    dsimp only
    split
    · exact ⟨h1,h2⟩
    split
    · exact h
    · exact ⟨le_rfl,by norm_num⟩

def joinedSeg (offset size rem : ℤ) (v : V) (s : Seg V) : Seg V :=
  let r := joinedNode (realign offset s.lo rem size) size v s.rem s.modu s.v
  newSeg s.lo s.hi r.1 r.2.1 r.2.2

section Updates
variable {lo hi o offset absMax size rem : ℤ} {t : Offsetmap V} {v : V}

omit [DecidableEq V] in
theorem realign_aligned (h : isIsotropic v = true ∨ 0 ≤ rem ∧ rem < size) (a b : ℤ) :
    isIsotropic v = true ∨ 0 ≤ realign a b rem size ∧ realign a b rem size < size := by
  refine h.imp_right fun h => ⟨Int.emod_nonneg _ (by omega),Int.emod_lt_of_pos _ (by omega)⟩

omit [DecidableEq V] in
theorem joinedSeg_ok (h : isIsotropic v = true ∨ 0 ≤ rem ∧ rem < size) {s : Seg V} (hs : s.Ok) :
    (joinedSeg offset size rem v s).Ok :=
  newSeg_ok (.inr (joinedNode_aligned s.v (realign_aligned h _ _) hs.1 hs.2.1))

omit [DecidableEq V] [OffsetmapLattice V] in
theorem length_segs (o : ℤ) (t : Offsetmap V) : (segs o t).length = count t := by
  induction t generalizing o with
  | empty => rfl
  | node max offl subl offr subr rem modu v ihl ihr =>
    rw [segs,List.length_append,List.length_cons,ihl,ihr,count]
    omega

theorem updateLoop_spec (hv : isIsotropic v = true ∨ 0 ≤ rem ∧ rem < size) {fuel : ℕ} {c : Cell V} {z : Zipper V}
    {lo' : ℤ} {lt : Offsetmap V} (htiles : Tiles o hi (c.seg o :: following o c z))
    (hok : ∀ s ∈ c.seg o :: following o c z, s.Ok) (hfuel : (following o c z).length < fuel)
    (ho : o ≤ absMax) (hoff : offset ≤ o + c.max) (hle : offset ≤ absMax) (hhi : absMax ≤ hi)
    (hleft : Canon lo (max offset o - 1) lo' lt) :
    ∃ o' t', updateLoop offset absMax size rem v fuel o c z lo' lt = some (o',t') ∧ Canon lo absMax o' t' ∧
      segs o' t' = glueList (segs lo' lt ++
        (clip offset absMax (c.seg o :: following o c z)).map (joinedSeg offset size rem v)) := by
  induction fuel generalizing o c z lo' lt with
  | zero => omega
  | succ fuel ih =>
    obtain ⟨h1,h2,h3⟩ := htiles
    have h2 : o ≤ o + c.max := h2
    have h3 : Tiles (o + c.max + 1) hi (following o c z) := h3
    obtain ⟨hc,hrest⟩ := List.forall_mem_cons.mp hok
    have hcok : (⟨max offset o,min absMax (o + c.max),realign o (max offset o) c.rem c.modu,c.modu,c.v⟩ : Seg V).Ok :=
      hc.clip _ _
    obtain ⟨r,m,w,hj⟩ : ∃ r m w, joinedNode (realign offset (max offset o) rem size) size v
        (realign o (max offset o) c.rem c.modu) c.modu c.v = (r,m,w) := ⟨_,_,_,rfl⟩
    have hal : 0 ≤ r ∧ r < m := by
      have := joinedNode_aligned c.v (realign_aligned hv offset (max offset o)) hcok.1 hcok.2.1
      rwa [hj] at this
    have hseg : ∀ b, joinedSeg offset size rem v
        ⟨max offset o,b,realign o (max offset o) c.rem c.modu,c.modu,c.v⟩ = newSeg (max offset o) b r m w := by
      intro b
      simp only [joinedSeg,hj]
    have hclip : clip offset absMax (c.seg o :: following o c z) =
        ⟨max offset o,min absMax (o + c.max),realign o (max offset o) c.rem c.modu,c.modu,c.v⟩ ::
          clip offset absMax (following o c z) := clip_cons_some h2 ho hoff hle
    rw [hclip,List.map_cons,hseg,updateLoop,if_pos ho]
    simp only [hj]
    by_cases hend : o + c.max ≥ absMax
    · rw [if_pos hend,h3.clip_left (by omega),min_eq_left hend]
      obtain ⟨o1,t1,g1,g2,g3⟩ := addNode_right (v := w) hleft (show max offset o ≤ absMax by omega) (.inr hal)
      exact ⟨o1,t1,by simp only [g1,if_true],g2,g3⟩
    · rw [if_neg hend]
      have hfol : following o c z ≠ [] := by
        intro hnil
        rw [hnil] at h3
        have : hi = o + c.max + 1 - 1 := h3
        omega
      obtain ⟨s,l,hsl⟩ := List.exists_cons_of_ne_nil hfol
      obtain ⟨o',c',z',k1,rfl,rfl⟩ := moveRight_spec hsl
      have ho' : o' = o + c.max + 1 := by
        rw [hsl] at h3
        exact h3.1
      obtain ⟨o1,t1,g1,g2,g3⟩ := addNode_right (v := w) hleft (show max offset o ≤ o + c.max by omega) (.inr hal)
      rw [hsl] at h3 hrest hfuel ⊢
      have hlen : (following o' c' z').length < fuel := by simpa using hfuel
      have hc' : o' ≤ o' + c'.max := h3.2.1
      have hleft' : Canon lo (max offset o' - 1) o1 t1 := by
        rwa [show max offset o' - 1 = o + c.max by omega]
      obtain ⟨o2,t2,f1,f2,f3⟩ := ih (ho' ▸ h3) hrest hlen (by omega) (by omega) hleft'
      refine ⟨o2,t2,?_,f2,?_⟩
      · simp only [g1,k1,Bool.false_eq_true,if_false]
        exact f1
      · rw [f3,g3,glueList_append_left]
        · rw [List.append_assoc,min_eq_right (show o + c.max ≤ absMax by omega)]
          rfl
        · intro s hs
          rcases List.mem_append.mp hs with hs | hs
          · exact hleft.2.1 s hs
          · rw [List.mem_singleton] at hs
            exact hs ▸ newSeg_ok (.inr hal)
        · intro s hs
          obtain ⟨u,hu,rfl⟩ := List.mem_map.mp hs
          exact joinedSeg_ok hv (clip_ok hrest u hu)

/-- The segments of `[offset..absMax]` after an update. -/
def updatedSegs (exact : Bool) (offset absMax size rem : ℤ) (v : V) (l : List (Seg V)) : List (Seg V) :=
  if exact then [newSeg offset absMax rem size v]
  else (clip offset absMax l).map (joinedSeg offset size rem v)

omit [DecidableEq V] in
theorem updatedSegs_ok (offset absMax : ℤ) (hv : isIsotropic v = true ∨ 0 ≤ rem ∧ rem < size) (exact : Bool) {l : List (Seg V)}
    (hl : ∀ s ∈ l, s.Ok) : ∀ s ∈ updatedSegs exact offset absMax size rem v l, s.Ok := by
  intro s hs
  cases exact with
  | true =>
    rw [updatedSegs,if_pos rfl,List.mem_singleton] at hs
    exact hs ▸ newSeg_ok hv
  | false =>
    obtain ⟨u,hu,rfl⟩ := List.mem_map.mp hs
    exact joinedSeg_ok hv (clip_ok hl u hu)

theorem updateItvWithRem_spec (h : Canon lo hi o t) (hlo : lo ≤ offset) (hle : offset ≤ absMax) (hhi : absMax ≤ hi)
    (hsize : size ≠ 0) (hv : isIsotropic v = true ∨ 0 ≤ rem ∧ rem < size) (exact : Bool) :
    ∃ o' t', updateItvWithRem exact offset absMax size rem v o t = some (o',t') ∧ Canon lo hi o' t' ∧
      segs o' t' = glueList (clip lo (offset - 1) (segs o t) ++ updatedSegs exact offset absMax size rem v (segs o t)
        ++ clip (absMax + 1) hi (segs o t)) := by
  obtain ⟨o1,t1,a1,a2,a3⟩ := keepAbove_spec h (show lo - 1 ≤ absMax by omega) hhi
  obtain ⟨o2,t2,b1,b2,b3⟩ := keepBelow_spec h hlo (show offset ≤ hi + 1 by omega)
  have hnew := updatedSegs_ok offset absMax hv exact h.2.1
  rw [updateItvWithRem,if_neg hsize,a1,b1]
  cases exact with
  | true =>
    obtain ⟨o3,t3,c1,c2,c3⟩ := addNode_left a2 hle hv
    obtain ⟨o4,t4,d1,d2,d3⟩ := union_spec b2 (by rwa [sub_add_cancel] : Canon (offset - 1 + 1) hi o3 t3)
    refine ⟨o4,t4,by simp only [c1,d1,if_true],d2,?_⟩
    rw [d3,c3,glueList_append_right,b3,a3,List.append_assoc]
    · rfl
    · intro s hs
      rcases List.mem_cons.mp hs with rfl | hs
      · exact newSeg_ok hv
      · exact a2.2.1 s hs
  | false =>
    obtain ⟨z,o',c,l,e1,e2,e3,e4,e5⟩ := findBitOffset_spec h.1 hlo (show offset ≤ hi by omega) .endZ
    rw [Zipper.after,List.append_nil] at e4
    obtain ⟨m,f1,f2⟩ := (e4 ▸ h.1.tiles : Tiles lo hi (l ++ c.seg o' :: following o' c z)).split
    have f2 : Tiles o' hi (c.seg o' :: following o' c z) := ⟨rfl,f2.2.1,f2.2.2⟩
    have hok : ∀ s ∈ c.seg o' :: following o' c z, s.Ok := fun s hs => h.2.1 s (by rw [e4]; simp [hs])
    have hlen : (following o' c z).length < count t := by
      rw [← length_segs o,e4,List.length_append,List.length_cons]
      omega
    have hclip : clip offset absMax (segs o t) = clip offset absMax (c.seg o' :: following o' c z) := by
      rw [e4,clip_append,e5.clip_right (by omega),List.nil_append]
    obtain ⟨o3,t3,c1,c2,c3⟩ := updateLoop_spec hv f2 hok hlen (by omega) e3 hle hhi
      (by rwa [max_eq_left e2] : Canon lo (max offset o' - 1) o2 t2)
    obtain ⟨o4,t4,d1,d2,d3⟩ := union_spec c2 a2
    refine ⟨o4,t4,by simp only [e1,c1,d1,Bool.false_eq_true,if_false],d2,?_⟩
    rw [d3,c3,glueList_append_left,b3,a3,updatedSegs,hclip]
    · rfl
    · intro s hs
      rcases List.mem_append.mp hs with hs | hs
      · exact b2.2.1 s hs
      · rw [updatedSegs,if_neg (by simp),hclip] at hnew
        exact hnew s hs
    · exact a2.2.1

end Updates

end FramaC.Offsetmap
