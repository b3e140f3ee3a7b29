import FramaC.Offsetmap.Merge

/-! # Well-formed offsetmaps

The invariant as the source states and checks it: contiguous intervals, `is_above` between every
node and the roots of its subtrees, relative offsets of empty subtrees, alignments, and no
mergeable neighbours. A tree is well-formed and spans a range exactly when it is canonical on
this range, so that every operation keeps well-formed trees and trees with the same content are
equal.
-/
namespace FramaC.Offsetmap
open OffsetmapLattice Pivot
variable {V : Type}

/-- The node on `[o..o + max]` is above the root of the tree at `o'`. -/
def AboveRoot (o max o' : ℤ) : Offsetmap V → Prop
  | .empty => True
  | .node max' _ _ _ _ _ _ _ => isAbove o (o + max) o' (max' + o') = true

def RootsAbove (o : ℤ) : Offsetmap V → Prop
  | .empty => True
  | .node max offl subl offr subr _ _ _ => AboveRoot o max (o + offl) subl ∧ AboveRoot o max (o + offr) subr ∧
      RootsAbove (o + offl) subl ∧ RootsAbove (o + offr) subr

def EmptyOffsets : Offsetmap V → Prop
  | .empty => True
  | .node max offl subl offr subr _ _ _ => (subl = .empty → offl = 0) ∧ (subr = .empty → offr = max + 1) ∧
      EmptyOffsets subl ∧ EmptyOffsets subr

/-- The invariant of a tree rooted at `o`. -/
structure WellFormed [DecidableEq V] [OffsetmapLattice V] (o : ℤ) (t : Offsetmap V) : Prop where
  nonempty : ∀ s ∈ segs o t, s.lo ≤ s.hi
  contiguous : (segs o t).IsChain fun s s' => s'.lo = s.hi + 1
  above : RootsAbove o t
  aligned : ∀ s ∈ segs o t, 0 ≤ s.rem ∧ s.rem < s.modu
  offsets : EmptyOffsets t
  isotropic : ∀ s ∈ segs o t, isIsotropic s.v = true → s.rem = 0 ∧ s.modu = 1
  separate : (segs o t).IsChain fun s s' => areMergeableNodes s.lo (s.rem,s.modu,s.v) s'.lo (s'.rem,s'.modu,s'.v) = false

/-- A well-formed tree, with the position of its root, that spans `[lo..hi]`. -/
def Spanning [DecidableEq V] [OffsetmapLattice V] (lo hi : ℤ) (r : ℤ × Offsetmap V) : Prop :=
  WellFormed r.1 r.2 ∧ boundsOffset r.1 r.2 = (lo,hi)

section Shapes
variable {lo hi o : ℤ} {s : Seg V} {l l' : List (Seg V)}

theorem Tiles.contiguous (h : Tiles lo hi l) : l.IsChain fun s s' => s'.lo = s.hi + 1 := by
  induction l generalizing lo with
  | nil => exact List.IsChain.nil
  | cons s l ih =>
    obtain ⟨h1,h2,h3⟩ := h
    cases l with
    | nil => exact List.IsChain.singleton s
    | cons t l => exact List.isChain_cons_cons.mpr ⟨h3.1,ih h3⟩

theorem Tiles.next (h : Tiles lo hi l) (hne : l ≠ [])
    (hc : (l ++ s :: l').IsChain fun s s' => s'.lo = s.hi + 1) : s.lo = hi + 1 := by
  induction l generalizing lo with
  | nil => exact absurd rfl hne
  | cons t l ih =>
    obtain ⟨h1,h2,h3⟩ := h
    cases l with
    | nil =>
      have hnext := (List.isChain_cons_cons.mp hc).1
      have : hi = t.hi + 1 - 1 := h3
      omega
    | cons u l => exact ih h3 (by simp) (List.isChain_cons_cons.mp hc).2

theorem pivot_mem_root {max offl offr p : ℤ} {subl subr : Offsetmap V} (hmax : 0 ≤ max)
    (hl : Shape lo (o - 1) (o + offl) subl) (hr : Shape (o + max + 1) hi (o + offr) subr)
    (hal : AboveRoot o max (o + offl) subl) (har : AboveRoot o max (o + offr) subr) (hp : IsPivot lo hi p) :
    o ≤ p ∧ p ≤ o + max := by
  have hp1 := hp.lower
  have hp2 := hp.upper
  have hle := hl.le
  have hle' := hr.le
  constructor
  · by_contra hlt
    cases subl with
    | empty =>
      obtain ⟨h1,h2⟩ := hl
      omega
    | node max' offl' subl' offr' subr' rem' modu' v' =>
      have hroot := hl.root_le
      obtain ⟨-,-,-,q,hq,hq1,hq2⟩ := hl
      obtain rfl := (hp.restrict le_rfl (by omega) hp1 (by omega)).unique hq
      have hfalse := isAbove_eq_false hp (show o ≤ o + max by omega) ⟨hq1,by omega⟩ (by omega) (by omega)
        (show o + max < o + offl ∨ max' + (o + offl) < o by omega)
      exact absurd (hal.symm.trans hfalse) (by simp)
  · by_contra hlt
    cases subr with
    | empty =>
      obtain ⟨h1,h2⟩ := hr
      omega
    | node max' offl' subl' offr' subr' rem' modu' v' =>
      have hroot := hr.root_le
      obtain ⟨-,-,-,q,hq,hq1,hq2⟩ := hr
      obtain rfl := (hp.restrict (by omega) le_rfl (by omega) hp2).unique hq
      have hfalse := isAbove_eq_false hp (show o ≤ o + max by omega) ⟨hq1,by omega⟩ (by omega) (by omega)
        (show o + max < o + offr ∨ max' + (o + offr) < o by omega)
      exact absurd (har.symm.trans hfalse) (by simp)

theorem shape_of_above {t : Offsetmap V} (hne : ∀ s ∈ segs o t, s.lo ≤ s.hi)
    (hc : (segs o t).IsChain fun s s' => s'.lo = s.hi + 1) (ha : RootsAbove o t) (he : EmptyOffsets t) :
    Shape (minOffset o t) (maxOffset o t) o t := by
  induction t generalizing o with
  | empty => exact ⟨rfl,rfl⟩
  | node max offl subl offr subr rem modu v ihl ihr =>
    obtain ⟨hal,har,hl,hr⟩ := ha
    obtain ⟨hel,her,hl',hr'⟩ := he
    rw [segs] at hne hc
    have hmax : o ≤ o + max := hne ⟨o,o + max,rem,modu,v⟩ (by simp)
    have hcr := hc.right_of_append
    have sl := ihl (fun s hs => hne s (by simp [hs])) hc.left_of_append hl hl'
    have sr := ihr (fun s hs => hne s (by simp [hs])) (List.isChain_of_isChain_cons hcr) hr hr'
    have hleft : maxOffset (o + offl) subl = o - 1 := by
      cases subl with
      | empty =>
        rw [hel rfl,maxOffset,add_zero]
      | node max' offl' subl' offr' subr' rem' modu' v' =>
        have := sl.tiles.next (by simp [segs]) hc
        simp only at this
        omega
    have hright : minOffset (o + offr) subr = o + max + 1 := by
      cases hsub : subr with
      | empty =>
        rw [her hsub,minOffset]
        ring
      | node max' offl' subl' offr' subr' rem' modu' v' =>
        rw [← hsub]
        have ht := sr.tiles
        have hne' : segs (o + offr) subr ≠ [] := by simp [hsub,segs]
        obtain ⟨s,l,hsl⟩ := List.exists_cons_of_ne_nil hne'
        rw [hsl] at ht hcr
        exact ht.1.symm.trans (List.isChain_cons_cons.mp hcr).1
    rw [hleft] at sl
    rw [hright] at sr
    have hle := sl.le
    have hle' := sr.le
    obtain ⟨p,hp⟩ := exists_pivot (show minOffset (o + offl) subl ≤ maxOffset (o + offr) subr by omega)
    obtain ⟨hp1,hp2⟩ := pivot_mem_root (by omega) sl sr hal har hp
    exact Shape.node (by omega) sl sr hp hp1 hp2

theorem Shape.aboveRoot {max p : ℤ} {o' lo' hi' : ℤ} {t : Offsetmap V} (hp : IsPivot lo hi p) (h1 : o ≤ p)
    (h2 : p ≤ o + max) (h : Shape lo' hi' o' t) (hlo : lo ≤ lo') (hhi : hi' ≤ hi)
    (hdisj : o + max < lo' ∨ hi' < o) : AboveRoot o max o' t := by
  cases t with
  | empty => trivial
  | node max' offl' subl' offr' subr' rem' modu' v' =>
    have hroot := h.root_le
    exact isAbove_eq_true hp ⟨h1,h2⟩ (by omega) (by omega) (by omega) (by omega)

theorem Shape.rootsAbove {t : Offsetmap V} (h : Shape lo hi o t) : RootsAbove o t := by
  induction t generalizing lo hi o with
  | empty => trivial
  | node max offl subl offr subr rem modu v ihl ihr =>
    have hroot := h.root_le
    obtain ⟨hmax,hl,hr,p,hp,hp1,hp2⟩ := h
    exact ⟨hl.aboveRoot hp hp1 hp2 le_rfl (by omega) (by omega),
      hr.aboveRoot hp hp1 hp2 (by omega) le_rfl (by omega),ihl hl,ihr hr⟩

theorem Shape.emptyOffsets {t : Offsetmap V} (h : Shape lo hi o t) : EmptyOffsets t := by
  induction t generalizing lo hi o with
  | empty => trivial
  | node max offl subl offr subr rem modu v ihl ihr =>
    obtain ⟨hmax,hl,hr,-⟩ := h
    refine ⟨?_,?_,ihl hl,ihr hr⟩
    · rintro rfl
      obtain ⟨h1,h2⟩ := hl
      omega
    · rintro rfl
      obtain ⟨h1,h2⟩ := hr
      omega

end Shapes

section Operations
variable [DecidableEq V] [OffsetmapLattice V]

theorem Spanning.canon {lo hi o : ℤ} {t : Offsetmap V} (h : Spanning lo hi (o,t)) : Canon lo hi o t := by
  obtain ⟨h,hb⟩ := h
  have hshape := shape_of_above h.nonempty h.contiguous h.above h.offsets
  obtain ⟨rfl,rfl⟩ := Prod.mk.inj hb
  refine ⟨hshape,?_,h.separate⟩
  intro s hs
  exact ⟨(h.aligned s hs).1,(h.aligned s hs).2,h.isotropic s hs⟩

theorem Canon.spanning {lo hi o : ℤ} {t : Offsetmap V} (h : Canon lo hi o t) : Spanning lo hi (o,t) := by
  refine ⟨?_,h.1.bounds⟩
  exact {
    nonempty := fun s hs => (h.1.mem_segs hs).2.1
    contiguous := h.1.tiles.contiguous
    above := h.1.rootsAbove
    aligned := fun s hs => ⟨(h.2.1 s hs).1,(h.2.1 s hs).2.1⟩
    offsets := h.1.emptyOffsets
    isotropic := fun s hs => (h.2.1 s hs).2.2
    separate := h.2.2 }

theorem spanning_iff_canon {lo hi o : ℤ} {t : Offsetmap V} : Spanning lo hi (o,t) ↔ Canon lo hi o t :=
  ⟨Spanning.canon,Canon.spanning⟩

theorem WellFormed.canon {o : ℤ} {t : Offsetmap V} (h : WellFormed o t) :
    Canon (minOffset o t) (maxOffset o t) o t := Spanning.canon ⟨h,rfl⟩

theorem spanning_addNode_left {hi o min max rem modu : ℤ} {v : V} {t : Offsetmap V} (h : Spanning (max + 1) hi (o,t))
    (hle : min ≤ max) (hv : isIsotropic v = true ∨ 0 ≤ rem ∧ rem < modu) :
    Spanning min hi (addNode min max rem modu v o t) := by
  obtain ⟨o',t',g1,g2,-⟩ := addNode_left h.canon hle hv
  rw [g1]
  exact g2.spanning

theorem spanning_addNode_right {lo o min max rem modu : ℤ} {v : V} {t : Offsetmap V}
    (h : Spanning lo (min - 1) (o,t)) (hle : min ≤ max) (hv : isIsotropic v = true ∨ 0 ≤ rem ∧ rem < modu) :
    Spanning lo max (addNode min max rem modu v o t) := by
  obtain ⟨o',t',g1,g2,-⟩ := addNode_right h.canon hle hv
  rw [g1]
  exact g2.spanning

theorem spanning_union {lo m hi o1 o2 : ℤ} {t1 t2 : Offsetmap V} (h1 : Spanning lo m (o1,t1))
    (h2 : Spanning (m + 1) hi (o2,t2)) : Spanning lo hi (union o1 t1 o2 t2) := by
  obtain ⟨o',t',g1,g2,-⟩ := union_spec h1.canon h2.canon
  rw [g1]
  exact g2.spanning

theorem spanning_keepBelow {lo hi o x : ℤ} {t : Offsetmap V} (h : Spanning lo hi (o,t)) (hx : x ≤ hi + 1) :
    Spanning (min lo x) (x - 1) (keepBelow x o t) := by
  have hc := h.canon
  by_cases hlo : lo ≤ x
  · obtain ⟨o',t',g1,g2,-⟩ := keepBelow_spec hc hlo hx
    rw [g1,min_eq_left hlo]
    exact g2.spanning
  · rw [keepBelow_of_lt hc.1 (by omega),min_eq_right (by omega)]
    exact (canon_empty x).spanning

theorem spanning_keepAbove {lo hi o x : ℤ} {t : Offsetmap V} (h : Spanning lo hi (o,t)) (hx : lo - 1 ≤ x) :
    Spanning (x + 1) (max hi x) (keepAbove x o t) := by
  have hc := h.canon
  by_cases hhi : x ≤ hi
  · obtain ⟨o',t',g1,g2,-⟩ := keepAbove_spec hc hx hhi
    rw [g1,max_eq_left hhi]
    exact g2.spanning
  · have hempty := canon_empty (V := V) (x + 1)
    rw [add_sub_cancel_right] at hempty
    rw [keepAbove_of_gt hc.1 (by omega),max_eq_right (by omega)]
    exact hempty.spanning

theorem spanning_updateItv {lo hi o offset absMax size : ℤ} {t : Offsetmap V} (exact : Bool) (v : V)
    (h : Spanning lo hi (o,t)) (hlo : lo ≤ offset) (hle : offset ≤ absMax) (hhi : absMax ≤ hi) (hsize : 0 ≤ size) :
    ∃ r, updateItv exact offset absMax size v o t = some r ∧ Spanning lo hi r := by
  by_cases hz : size = 0
  · exact ⟨(o,t),if_pos hz,h⟩
  · obtain ⟨o',t',g1,g2,-⟩ := updateItvWithRem_spec (v := v) h.canon hlo hle hhi hz
      (.inr ⟨le_rfl,by omega⟩) exact
    exact ⟨(o',t'),g1,g2.spanning⟩

theorem spanning_mapOnValuesAux {lo hi o : ℤ} {t : Offsetmap V} (f : V → V) (h : Spanning lo hi (o,t)) :
    Spanning lo hi (mapOnValuesAux f o t) := by
  obtain ⟨o',t',g1,g2,-⟩ := mapOnValuesAux_spec f h.canon
  rw [g1]
  exact g2.spanning

theorem spanning_merging {lo hi : ℤ} {t1 t2 : ℤ × Offsetmap V} (littleEndian : Bool) (op : Merging V)
    (h1 : Spanning lo hi t1) (h2 : Spanning lo hi t2) :
    ∃ r, op.run littleEndian t1 t2 = some r ∧ Spanning lo hi r := by
  obtain ⟨r,hr,hc⟩ := op.run_spec littleEndian h1.canon h2.canon
  exact ⟨r,hr,hc.spanning⟩

theorem WellFormed.eq_of_segs_eq {o : ℤ} {t t' : Offsetmap V} (h : WellFormed o t) (h' : WellFormed o t')
    (he : segs o t = segs o t') : t = t' := by
  have hc := h.canon.1
  have hc' := h'.canon.1
  cases t with
  | empty =>
    cases t' with
    | empty => rfl
    | node => simp [segs] at he
  | node max offl subl offr subr rem modu v =>
    have hne : segs o (.node max offl subl offr subr rem modu v) ≠ [] := by simp [segs]
    obtain ⟨e1,e2⟩ := hc.tiles.unique (he ▸ hc'.tiles) hne
    rw [e1,e2] at hc
    exact (hc.unique hc' he).2

end Operations

end FramaC.Offsetmap
