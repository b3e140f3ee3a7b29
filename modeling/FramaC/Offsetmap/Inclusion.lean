import FramaC.Offsetmap.WellFormed

/-! # Inclusion of offsetmaps

`is_included_aux` compares two trees on the range that is common to both. The cache of the
source is transparent and left out. The descent succeeds exactly when all nodes that intersect
pass the comparison of nodes, which is the inclusion of the values when these are isotropic.
-/
namespace FramaC.Offsetmap
open OffsetmapLattice
variable {V : Type} [DecidableEq V] [OffsetmapLattice V]

/-- Inclusion of two repeated values on `[mabsMin..mabsMax]`. -/
def isIncludedNodesValues (amin1 amax1 r1 m1 : ℤ) (v1 : V) (amin2 amax2 r2 m2 : ℤ) (v2 : V) (mabsMin mabsMax : ℤ) :
    Bool :=
  if isIsotropic v1 || isIsotropic v2 then isIncluded v1 v2
  else
    let maxTest := if amax1 < amax2 then decide ((mabsMax + 1) % m1 = r1) else true
    let okMin := decide (amin1 = amin2) || decide (mabsMin % m1 = r1)
    let okMax := decide (amax1 = amax2) || maxTest
    if decide (r1 = r2) && decide (m1 = m2) && okMin && okMax then isIncluded v1 v2 else false

def isIncludedAux : ℤ → Offsetmap V → ℤ → Offsetmap V → Bool
  | _,.empty,_,_ => true
  | _,_,_,.empty => true
  | o1,.node max1 offl1 subl1 offr1 subr1 r1rel m1 v1,o2,.node max2 offl2 subl2 offr2 subr2 r2rel m2 v2 =>
    let t1 : Offsetmap V := .node max1 offl1 subl1 offr1 subr1 r1rel m1 v1
    let t2 : Offsetmap V := .node max2 offl2 subl2 offr2 subr2 r2rel m2 v2
    if t1 = t2 ∧ o1 = o2 then true
    else
      let amax1 := max1 + o1
      let amax2 := max2 + o2
      let ol1 := o1 + offl1
      let ol2 := o2 + offl2
      let or1 := o1 + offr1
      let or2 := o2 + offr2
      let r1 := (o1 + r1rel) % m1
      let r2 := (o2 + r2rel) % m2
      if amax1 < o2 then isIncludedAux o1 t1 ol2 subl2 && isIncludedAux or1 subr1 o2 t2
      else if o1 > amax2 then isIncludedAux o1 t1 or2 subr2 && isIncludedAux ol1 subl1 o2 t2
      else if o1 = o2 then
        (if amax1 = amax2 then
          (if (decide (r1 = r2) && decide (m1 = m2)) || isIsotropic v1 || isIsotropic v2 then isIncluded v1 v2
            else false) && isIncludedAux or1 subr1 or2 subr2
        else if amax1 > amax2 then
          isIncludedNodesValues o1 amax1 r1 m1 v1 o2 amax2 r2 m2 v2 o1 amax2 && isIncludedAux o1 t1 or2 subr2
        else isIncludedNodesValues o1 amax1 r1 m1 v1 o2 amax2 r2 m2 v2 o1 amax1 && isIncludedAux or1 subr1 o2 t2) &&
        isIncludedAux ol1 subl1 ol2 subl2
      else
        let treatCurrentRightNodes (mabsMin : ℤ) : Bool :=
          if amax1 = amax2 then
            isIncludedNodesValues o1 amax1 r1 m1 v1 o2 amax2 r2 m2 v2 mabsMin amax1 && isIncludedAux or1 subr1 or2 subr2
          else if amax1 > amax2 then
            isIncludedNodesValues o1 amax1 r1 m1 v1 o2 amax2 r2 m2 v2 mabsMin amax2 && isIncludedAux o1 t1 or2 subr2
          else
            isIncludedNodesValues o1 amax1 r1 m1 v1 o2 amax2 r2 m2 v2 mabsMin amax1 && isIncludedAux or1 subr1 o2 t2
        if o1 > o2 then treatCurrentRightNodes o1 && isIncludedAux ol1 subl1 o2 t2
        else treatCurrentRightNodes o2 && isIncludedAux o1 t1 ol2 subl2
termination_by _ t1 _ t2 => count t1 + count t2
decreasing_by all_goals simp +zetaDelta only [count]; omega

def isIncludedMap (t1 t2 : Offsetmap V) : Bool := isIncludedAux 0 t1 0 t2

/-- The comparison of two nodes on the intersection of their intervals. -/
def Seg.isIncluded (s1 s2 : Seg V) : Bool :=
  isIncludedNodesValues s1.lo s1.hi ((s1.lo + s1.rem) % s1.modu) s1.modu s1.v s2.lo s2.hi ((s2.lo + s2.rem) % s2.modu)
    s2.modu s2.v (max s1.lo s2.lo) (min s1.hi s2.hi)

/-- In a region, the nodes of the first tree pass the comparison with those of the second one. -/
def NodesIn (P : ℤ → Prop) (o1 : ℤ) (t1 : Offsetmap V) (o2 : ℤ) (t2 : Offsetmap V) : Prop :=
  ∀ b, P b → ∀ s1 s2, HasSeg (segs o1 t1) b s1 → HasSeg (segs o2 t2) b s2 → s1.isIncluded s2 = true

section Regions
omit [DecidableEq V]
variable {P Q : ℤ → Prop} {lo1 hi1 lo2 hi2 o1 o2 : ℤ} {c1 c2 : Cell V} {t1 t2 : Offsetmap V}

theorem Seg.isIncluded_self (hrefl : ∀ v : V, OffsetmapLattice.isIncluded v v = true) (s : Seg V) :
    s.isIncluded s = true := by
  simp [Seg.isIncluded,isIncludedNodesValues,hrefl]

theorem nodesIn_or : NodesIn P o1 t1 o2 t2 ∧ NodesIn Q o1 t1 o2 t2 ↔ NodesIn (fun b => P b ∨ Q b) o1 t1 o2 t2 := by
  constructor
  · rintro ⟨h,h'⟩ b (hb | hb)
    · exact h b hb
    · exact h' b hb
  · intro h
    exact ⟨fun b hb => h b (.inl hb),fun b hb => h b (.inr hb)⟩

theorem nodesIn_congr (h : ∀ b, P b ↔ Q b) : NodesIn P o1 t1 o2 t2 ↔ NodesIn Q o1 t1 o2 t2 := by
  rw [show P = Q from funext fun b => propext (h b)]

theorem nodesIn_subl_left (h : Shape lo1 hi1 o1 c1.node) :
    NodesIn P (o1 + c1.offl) c1.subl o2 t2 ↔ NodesIn (fun b => P b ∧ b < o1) o1 c1.node o2 t2 := by
  constructor
  · rintro hs b ⟨hb,hlt⟩ s1 s2 h1 h2
    exact hs b hb s1 s2 ((hasSeg_subl h hlt).mp h1) h2
  · intro hs b hb s1 s2 h1 h2
    have hlt := (h1.mem h.2.1.tiles).2
    exact hs b ⟨hb,by omega⟩ s1 s2 ((hasSeg_subl h (by omega)).mpr h1) h2

theorem nodesIn_subr_left (h : Shape lo1 hi1 o1 c1.node) :
    NodesIn P (o1 + c1.offr) c1.subr o2 t2 ↔ NodesIn (fun b => P b ∧ c1.max + o1 < b) o1 c1.node o2 t2 := by
  constructor
  · rintro hs b ⟨hb,hlt⟩ s1 s2 h1 h2
    exact hs b hb s1 s2 ((hasSeg_subr h hlt).mp h1) h2
  · intro hs b hb s1 s2 h1 h2
    have hlt := (h1.mem h.2.2.1.tiles).1
    exact hs b ⟨hb,by omega⟩ s1 s2 ((hasSeg_subr h (by omega)).mpr h1) h2

theorem nodesIn_subl_right (h : Shape lo2 hi2 o2 c2.node) :
    NodesIn P o1 t1 (o2 + c2.offl) c2.subl ↔ NodesIn (fun b => P b ∧ b < o2) o1 t1 o2 c2.node := by
  constructor
  · rintro hs b ⟨hb,hlt⟩ s1 s2 h1 h2
    exact hs b hb s1 s2 h1 ((hasSeg_subl h hlt).mp h2)
  · intro hs b hb s1 s2 h1 h2
    have hlt := (h2.mem h.2.1.tiles).2
    exact hs b ⟨hb,by omega⟩ s1 s2 h1 ((hasSeg_subl h (by omega)).mpr h2)

theorem nodesIn_subr_right (h : Shape lo2 hi2 o2 c2.node) :
    NodesIn P o1 t1 (o2 + c2.offr) c2.subr ↔ NodesIn (fun b => P b ∧ c2.max + o2 < b) o1 t1 o2 c2.node := by
  constructor
  · rintro hs b ⟨hb,hlt⟩ s1 s2 h1 h2
    exact hs b hb s1 s2 h1 ((hasSeg_subr h hlt).mp h2)
  · intro hs b hb s1 s2 h1 h2
    have hlt := (h2.mem h.2.2.1.tiles).1
    exact hs b ⟨hb,by omega⟩ s1 s2 h1 ((hasSeg_subr h (by omega)).mpr h2)

theorem nodesIn_middle (h1 : Shape lo1 hi1 o1 c1.node) (h2 : Shape lo2 hi2 o2 c2.node) (ho1 : o1 ≤ c2.max + o2)
    (ho2 : o2 ≤ c1.max + o1) : (c1.seg o1).isIncluded (c2.seg o2) = true ↔
      NodesIn (fun b => o1 ≤ b ∧ b ≤ c1.max + o1 ∧ o2 ≤ b ∧ b ≤ c2.max + o2) o1 c1.node o2 c2.node := by
  constructor
  · rintro hs b ⟨hb1,hb2,hb3,hb4⟩ s1 s2 hs1 hs2
    rwa [(hasSeg_root h1 hb1 hb2).mp hs1,(hasSeg_root h2 hb3 hb4).mp hs2]
  · intro hs
    have hm1 : 0 ≤ c1.max := h1.1
    have hm2 : 0 ≤ c2.max := h2.1
    have hb : o1 ≤ max o1 o2 ∧ max o1 o2 ≤ c1.max + o1 ∧ o2 ≤ max o1 o2 ∧ max o1 o2 ≤ c2.max + o2 := by omega
    exact hs (max o1 o2) hb _ _ ((hasSeg_root h1 hb.1 hb.2.1).mpr rfl) ((hasSeg_root h2 hb.2.2.1 hb.2.2.2).mpr rfl)

theorem isIncluded_seg : (c1.seg o1).isIncluded (c2.seg o2) =
    isIncludedNodesValues o1 (c1.max + o1) ((o1 + c1.rem) % c1.modu) c1.modu c1.v o2 (c2.max + o2)
      ((o2 + c2.rem) % c2.modu) c2.modu c2.v (max o1 o2) (min (c1.max + o1) (c2.max + o2)) := by
  simp only [Seg.isIncluded,Cell.seg,add_comm o1 c1.max,add_comm o2 c2.max]

theorem isIncludedNodesValues_same_bounds (amin amax r1 m1 : ℤ) (v1 : V) (r2 m2 : ℤ) (v2 : V) (mabsMin mabsMax : ℤ) :
    isIncludedNodesValues amin amax r1 m1 v1 amin amax r2 m2 v2 mabsMin mabsMax =
      if (decide (r1 = r2) && decide (m1 = m2) || isIsotropic v1 || isIsotropic v2) = true then
        OffsetmapLattice.isIncluded v1 v2 else false := by
  rw [isIncludedNodesValues]
  cases isIsotropic v1 <;> cases isIsotropic v2 <;> simp

theorem and_min_bound (f : ℤ → Bool) (a1 a2 : ℤ) (x y z : Bool) :
    (if a1 = a2 then f a1 && x else if a1 > a2 then f a2 && y else f a1 && z) =
      (f (min a1 a2) && if a1 = a2 then x else if a1 > a2 then y else z) := by
  split
  · rename_i h
    rw [h,min_self]
  split
  · rw [min_eq_right (by omega)]
  · rw [min_eq_left (by omega)]

end Regions

theorem isIncludedAux_node_eq (c1 c2 : Cell V) (o1 o2 : ℤ) : isIncludedAux o1 c1.node o2 c2.node =
    if c1.node = c2.node ∧ o1 = o2 then true
    else if c1.max + o1 < o2 then
      isIncludedAux o1 c1.node (o2 + c2.offl) c2.subl && isIncludedAux (o1 + c1.offr) c1.subr o2 c2.node
    else if o1 > c2.max + o2 then
      isIncludedAux o1 c1.node (o2 + c2.offr) c2.subr && isIncludedAux (o1 + c1.offl) c1.subl o2 c2.node
    else ((c1.seg o1).isIncluded (c2.seg o2) &&
        (if c1.max + o1 = c2.max + o2 then isIncludedAux (o1 + c1.offr) c1.subr (o2 + c2.offr) c2.subr
        else if c1.max + o1 > c2.max + o2 then isIncludedAux o1 c1.node (o2 + c2.offr) c2.subr
        else isIncludedAux (o1 + c1.offr) c1.subr o2 c2.node)) &&
      (if o1 = o2 then isIncludedAux (o1 + c1.offl) c1.subl (o2 + c2.offl) c2.subl
      else if o1 > o2 then isIncludedAux (o1 + c1.offl) c1.subl o2 c2.node
      else isIncludedAux o1 c1.node (o2 + c2.offl) c2.subl) := by
  rw [isIncluded_seg,Cell.node,Cell.node,isIncludedAux]
  dsimp only
  by_cases he : c1.node = c2.node ∧ o1 = o2
  · rw [← Cell.node.eq_1 c1,← Cell.node.eq_1 c2,if_pos he,if_pos he]
  rw [← Cell.node.eq_1 c1,← Cell.node.eq_1 c2,if_neg he,if_neg he]
  by_cases hlt : c1.max + o1 < o2
  · rw [if_pos hlt,if_pos hlt]
  rw [if_neg hlt,if_neg hlt]
  by_cases hgt : o1 > c2.max + o2
  · rw [if_pos hgt,if_pos hgt]
  rw [if_neg hgt,if_neg hgt]
  rcases lt_trichotomy o1 o2 with ho | ho | ho
  · rw [if_neg ho.ne,if_neg ho.ne,if_neg ho.not_gt,if_neg ho.not_gt,max_eq_right ho.le,
      and_min_bound (isIncludedNodesValues o1 _ _ _ _ o2 _ _ _ _ o2)]
  · subst ho
    rw [if_pos rfl,if_pos rfl,max_self,← and_min_bound (isIncludedNodesValues o1 _ _ _ _ o1 _ _ _ _ o1)]
    split
    · rename_i h
      rw [h,isIncludedNodesValues_same_bounds]
    · rfl
  · rw [if_neg ho.ne',if_neg ho.ne',if_pos ho,if_pos ho,max_eq_left ho.le,
      and_min_bound (isIncludedNodesValues o1 _ _ _ _ o2 _ _ _ _ o1)]

section Descent
variable (hrefl : ∀ v : V, OffsetmapLattice.isIncluded v v = true)
include hrefl

theorem isIncludedAux_node {lo1 hi1 o1 lo2 hi2 o2 : ℤ} (c1 c2 : Cell V) (h1 : Shape lo1 hi1 o1 c1.node)
    (h2 : Shape lo2 hi2 o2 c2.node)
    (ih : ∀ {lo hi o lo' hi' o' : ℤ} {t t' : Offsetmap V}, count t + count t' < count c1.node + count c2.node →
      Shape lo hi o t → Shape lo' hi' o' t' →
        (isIncludedAux o t o' t' = true ↔ NodesIn (fun _ => True) o t o' t')) :
    isIncludedAux o1 c1.node o2 c2.node = true ↔ NodesIn (fun _ => True) o1 c1.node o2 c2.node := by
  have hcount1 : count c1.node = count c1.subl + count c1.subr + 1 := rfl
  have hcount2 : count c2.node = count c2.subl + count c2.subr + 1 := rfl
  have hm1 : 0 ≤ c1.max := h1.1
  have hm2 : 0 ≤ c2.max := h2.1
  have ell := ih (by omega) h1.2.1 h2.2.1
  have err := ih (by omega) h1.2.2.1 h2.2.2.1
  have etl := ih (by omega) h1 h2.2.1
  have etr := ih (by omega) h1 h2.2.2.1
  have elt := ih (by omega) h1.2.1 h2
  have ert := ih (by omega) h1.2.2.1 h2
  rw [nodesIn_subl_left h1,nodesIn_subl_right h2] at ell
  rw [nodesIn_subr_left h1,nodesIn_subr_right h2] at err
  rw [nodesIn_subl_right h2] at etl
  rw [nodesIn_subr_right h2] at etr
  rw [nodesIn_subl_left h1] at elt
  rw [nodesIn_subr_left h1] at ert
  simp only [true_and] at ell err etl etr elt ert
  rw [isIncludedAux_node_eq]
  split
  · rename_i he
    obtain ⟨he,rfl⟩ := he
    refine ⟨fun _ b _ s1 s2 hs1 hs2 => ?_,fun _ => rfl⟩
    rw [he] at hs1
    rw [h2.tiles.hasSeg_unique hs1 hs2]
    exact s2.isIncluded_self hrefl
  split
  · rw [Bool.and_eq_true,etl,ert,nodesIn_or]
    apply nodesIn_congr
    intro b
    simp only [iff_true]
    omega
  split
  · rw [Bool.and_eq_true,etr,elt,nodesIn_or]
    apply nodesIn_congr
    intro b
    simp only [iff_true]
    omega
  -- the nodes intersect: what follows the intersection, then what precedes it
  have hright : (if c1.max + o1 = c2.max + o2 then isIncludedAux (o1 + c1.offr) c1.subr (o2 + c2.offr) c2.subr
      else if c1.max + o1 > c2.max + o2 then isIncludedAux o1 c1.node (o2 + c2.offr) c2.subr
      else isIncludedAux (o1 + c1.offr) c1.subr o2 c2.node) = true ↔
      NodesIn (fun b => min (c1.max + o1) (c2.max + o2) < b) o1 c1.node o2 c2.node := by
    split
    · rw [err]
      exact nodesIn_congr fun b => by omega
    split
    · rw [etr]
      exact nodesIn_congr fun b => by omega
    · rw [ert]
      exact nodesIn_congr fun b => by omega
  have hleft : (if o1 = o2 then isIncludedAux (o1 + c1.offl) c1.subl (o2 + c2.offl) c2.subl
      else if o1 > o2 then isIncludedAux (o1 + c1.offl) c1.subl o2 c2.node
      else isIncludedAux o1 c1.node (o2 + c2.offl) c2.subl) = true ↔
      NodesIn (fun b => b < max o1 o2) o1 c1.node o2 c2.node := by
    split
    · rw [ell]
      exact nodesIn_congr fun b => by omega
    split
    · rw [elt]
      exact nodesIn_congr fun b => by omega
    · rw [etl]
      exact nodesIn_congr fun b => by omega
  rw [Bool.and_eq_true,Bool.and_eq_true,nodesIn_middle h1 h2 (by omega) (by omega),hright,hleft,nodesIn_or,nodesIn_or]
  apply nodesIn_congr
  intro b
  simp only [iff_true]
  omega

theorem isIncludedAux_iff_nodes {lo1 hi1 o1 lo2 hi2 o2 : ℤ} {t1 t2 : Offsetmap V} (h1 : Shape lo1 hi1 o1 t1)
    (h2 : Shape lo2 hi2 o2 t2) : isIncludedAux o1 t1 o2 t2 = true ↔ NodesIn (fun _ => True) o1 t1 o2 t2 := by
  induction hn : count t1 + count t2 using Nat.strong_induction_on generalizing lo1 hi1 o1 t1 lo2 hi2 o2 t2 with
  | _ n ih =>
    cases t1 with
    | empty =>
      rw [isIncludedAux]
      exact ⟨fun _ b _ s1 s2 hs => absurd hs.1 (by simp [segs]),fun _ => rfl⟩
    | node max1 offl1 subl1 offr1 subr1 r1rel m1 v1 =>
      cases t2 with
      | empty =>
        rw [isIncludedAux]
        · exact ⟨fun _ b _ s1 s2 _ hs => absurd hs.1 (by simp [segs]),fun _ => rfl⟩
        · simp
      | node max2 offl2 subl2 offr2 subr2 r2rel m2 v2 =>
        refine isIncludedAux_node hrefl ⟨max1,offl1,subl1,offr1,subr1,r1rel,m1,v1⟩
          ⟨max2,offl2,subl2,offr2,subr2,r2rel,m2,v2⟩ h1 h2 ?_
        intro lo hi o lo' hi' o' t t' hlt hs hs'
        exact ih _ (hn ▸ hlt) hs hs' rfl

end Descent

/-- Where both trees are bound in a region, the values of the first one are included in those
of the second one. -/
def SubOn (P : ℤ → Prop) (o1 : ℤ) (t1 : Offsetmap V) (o2 : ℤ) (t2 : Offsetmap V) : Prop :=
  ∀ b, P b → ∀ v1 v2, HasVal (segs o1 t1) b v1 → HasVal (segs o2 t2) b v2 → isIncluded v1 v2 = true

omit [DecidableEq V] in
theorem isIncludedNodesValues_of_isotropic (hiso : ∀ v : V, isIsotropic v = true)
    (amin1 amax1 r1 m1 : ℤ) (v1 : V) (amin2 amax2 r2 m2 : ℤ) (v2 : V) (mabsMin mabsMax : ℤ) :
    isIncludedNodesValues amin1 amax1 r1 m1 v1 amin2 amax2 r2 m2 v2 mabsMin mabsMax = isIncluded v1 v2 := by
  simp [isIncludedNodesValues,hiso]

omit [DecidableEq V] in
theorem nodesIn_iff_subOn (hiso : ∀ v : V, isIsotropic v = true) {P : ℤ → Prop} {o1 o2 : ℤ} {t1 t2 : Offsetmap V} :
    NodesIn P o1 t1 o2 t2 ↔ SubOn P o1 t1 o2 t2 := by
  simp only [NodesIn,Seg.isIncluded,isIncludedNodesValues_of_isotropic hiso]
  constructor
  · rintro h b hb v1 v2 ⟨s1,hs1,h1,h2,rfl⟩ ⟨s2,hs2,h3,h4,rfl⟩
    exact h b hb s1 s2 ⟨hs1,h1,h2⟩ ⟨hs2,h3,h4⟩
  · intro h b hb s1 s2 h1 h2
    exact h b hb s1.v s2.v ⟨s1,h1.1,h1.2.1,h1.2.2,rfl⟩ ⟨s2,h2.1,h2.2.1,h2.2.2,rfl⟩

theorem isIncludedAux_iff (hiso : ∀ v : V, isIsotropic v = true) (hrefl : ∀ v : V, isIncluded v v = true)
    {lo1 hi1 o1 lo2 hi2 o2 : ℤ} {t1 t2 : Offsetmap V} (h1 : Shape lo1 hi1 o1 t1) (h2 : Shape lo2 hi2 o2 t2) :
    isIncludedAux o1 t1 o2 t2 = true ↔ SubOn (fun _ => True) o1 t1 o2 t2 := by
  rw [isIncludedAux_iff_nodes hrefl h1 h2,nodesIn_iff_subOn hiso]

end FramaC.Offsetmap
