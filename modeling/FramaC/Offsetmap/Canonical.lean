import FramaC.Offsetmap.Basic
import FramaC.Lib.Glue

/-! # Canonical shape of offsetmaps

A tree is seen as the list of its segments, in order and with absolute bounds. The node at the
root of a tree is the segment that holds the pivot of its range: this invariant is what
`is_above` maintains, and it determines the tree from the list. Every smart constructor returns
the tree of the glued list.
-/
namespace FramaC.Offsetmap
open OffsetmapLattice Pivot
variable {V : Type}

/-- An interval with its value, the size of the value and its alignment relative to `lo`. -/
structure Seg (V : Type) where
  lo : ℤ
  hi : ℤ
  rem : ℤ
  modu : ℤ
  v : V
  deriving DecidableEq, Repr

/-- The segments of a tree rooted at `o`, from left to right. -/
def segs (o : ℤ) : Offsetmap V → List (Seg V)
  | .empty => []
  | .node max offl subl offr subr rem modu v =>
    segs (o + offl) subl ++ ⟨o,o + max,rem,modu,v⟩ :: segs (o + offr) subr

/-- The tree rooted at `o` spans `[lo..hi]`, and every root holds the pivot of its range. -/
def Shape (lo hi o : ℤ) : Offsetmap V → Prop
  | .empty => o = lo ∧ hi = lo - 1
  | .node max offl subl offr subr _ _ _ => 0 ≤ max ∧ Shape lo (o - 1) (o + offl) subl ∧
      Shape (o + max + 1) hi (o + offr) subr ∧ ∃ p, IsPivot lo hi p ∧ o ≤ p ∧ p ≤ o + max

theorem isAbove_eq_true {lo hi a b c d p : ℤ} (hp : IsPivot lo hi p) (hab : a ≤ p ∧ p ≤ b) (hcd : c ≤ d)
    (hc : lo ≤ c) (hd : d ≤ hi) (hdisj : b < c ∨ d < a) : isAbove a b c d = true := by
  unfold isAbove
  split
  · rfl
  · rename_i h1
    have h0 : p ≠ 0 := by
      rintro rfl
      exact h1 hab
    split
    · rename_i h2
      exact absurd (below_zero h0) (hp.above 0 (by omega) (by omega) (Ne.symm h0)).asymm
    · rename_i h2
      exact decide_eq_true (signature_lt hp hab hcd h0 h1 h2 hc hd hdisj)

theorem isAbove_eq_false {lo hi a b c d p : ℤ} (hp : IsPivot lo hi p) (hab : a ≤ b) (hcd : c ≤ p ∧ p ≤ d)
    (hla : lo ≤ a) (hbh : b ≤ hi) (hdisj : b < c ∨ d < a) : isAbove a b c d = false := by
  unfold isAbove
  have h1 : ¬ (a ≤ 0 ∧ 0 ≤ b) := by
    intro h
    have hne : p ≠ 0 := by omega
    exact (hp.above 0 (by omega) (by omega) (Ne.symm hne)).asymm (below_zero hne)
  rw [if_neg h1]
  split
  · rfl
  · rename_i h2
    have h0 : p ≠ 0 := by
      rintro rfl
      exact h2 hcd
    have := signature_lt hp hcd hab h0 h2 h1 hla hbh hdisj.symm
    apply decide_eq_false
    simp only [signatureInterval,Integer.logxor,gt_iff_lt,not_lt]
    exact this.le

section Shapes
variable {lo hi o : ℤ} {t : Offsetmap V}

theorem Shape.le (h : Shape lo hi o t) : lo ≤ hi + 1 := by
  induction t generalizing lo hi o with
  | empty =>
    obtain ⟨-,rfl⟩ := h
    omega
  | node max offl subl offr subr rem modu v ihl ihr =>
    obtain ⟨hmax,hl,hr,_⟩ := h
    have := ihl hl
    have := ihr hr
    omega

theorem Shape.root_le {max offl offr rem modu : ℤ} {subl subr : Offsetmap V} {v : V}
    (h : Shape lo hi o (.node max offl subl offr subr rem modu v)) : lo ≤ o ∧ o ≤ o + max ∧ o + max ≤ hi := by
  obtain ⟨hmax,hl,hr,_⟩ := h
  have := hl.le
  have := hr.le
  omega

theorem Shape.empty_of_lt (h : Shape lo hi o t) (hlt : hi < lo) : t = .empty := by
  cases t with
  | empty => rfl
  | node max offl subl offr subr rem modu v =>
    have := h.root_le
    omega

theorem Shape.empty_iff (h : Shape lo hi o t) : t = .empty ↔ hi = lo - 1 := by
  constructor
  · rintro rfl
    exact h.2
  · intro he
    exact h.empty_of_lt (by omega)

theorem Shape.bounds (h : Shape lo hi o t) : boundsOffset o t = (lo,hi) := by
  have hmin : ∀ {lo hi o : ℤ} {t : Offsetmap V}, Shape lo hi o t → minOffset o t = lo := by
    intro lo hi o t h
    induction t generalizing lo hi o with
    | empty => exact h.1
    | node max offl subl offr subr rem modu v ihl ihr => exact ihl h.2.1
  have hmax : ∀ {lo hi o : ℤ} {t : Offsetmap V}, Shape lo hi o t → maxOffset o t = hi := by
    intro lo hi o t h
    induction t generalizing lo hi o with
    | empty =>
      obtain ⟨rfl,rfl⟩ := h
      rfl
    | node max offl subl offr subr rem modu v ihl ihr => exact ihr h.2.2.1
  rw [boundsOffset,hmin h,hmax h]

theorem Shape.root_unique {hi' o' : ℤ} (h : Shape lo hi o t) (h' : Shape lo hi' o' t) : o = o' := by
  induction t generalizing hi hi' o o' with
  | empty => exact h.1.trans h'.1.symm
  | node max offl subl offr subr rem modu v ihl ihr =>
    have := ihl h.2.1 h'.2.1
    omega

theorem Shape.root_unique_upper {lo' o' : ℤ} (h : Shape lo hi o t) (h' : Shape lo' hi o' t) : o = o' := by
  induction t generalizing lo lo' o o' with
  | empty =>
    obtain ⟨h1,h2⟩ := h
    obtain ⟨h1',h2'⟩ := h'
    omega
  | node max offl subl offr subr rem modu v ihl ihr =>
    have := ihr h.2.2.1 h'.2.2.1
    omega

theorem Shape.mem_segs (h : Shape lo hi o t) {s : Seg V} (hs : s ∈ segs o t) :
    lo ≤ s.lo ∧ s.lo ≤ s.hi ∧ s.hi ≤ hi := by
  induction t generalizing lo hi o with
  | empty => simp [segs] at hs
  | node max offl subl offr subr rem modu v ihl ihr =>
    have hroot := h.root_le
    obtain ⟨hmax,hl,hr,_⟩ := h
    rw [segs,List.mem_append,List.mem_cons] at hs
    rcases hs with hs | rfl | hs
    · have := ihl hl hs
      omega
    · exact ⟨hroot.1,hroot.2.1,hroot.2.2⟩
    · have := ihr hr hs
      omega

theorem Shape.node {max offl offr rem modu : ℤ} {subl subr : Offsetmap V} {v : V} (hmax : 0 ≤ max)
    (hl : Shape lo (o - 1) (o + offl) subl) (hr : Shape (o + max + 1) hi (o + offr) subr) {p : ℤ}
    (hp : IsPivot lo hi p) (h1 : o ≤ p) (h2 : p ≤ o + max) :
    Shape lo hi o (.node max offl subl offr subr rem modu v) := ⟨hmax,hl,hr,p,hp,h1,h2⟩

end Shapes

theorem split_unique {l1 l2 r1 r2 : List (Seg V)} {s1 s2 : Seg V} {p : ℤ}
    (h : l1 ++ s1 :: r1 = l2 ++ s2 :: r2) (hl1 : ∀ s ∈ l1, s.hi < p) (hl2 : ∀ s ∈ l2, s.hi < p)
    (hs1 : p ≤ s1.hi) (hs2 : p ≤ s2.hi) : l1 = l2 ∧ s1 = s2 ∧ r1 = r2 := by
  induction l1 generalizing l2 with
  | nil =>
    cases l2 with
    | nil => simpa using h
    | cons a l2 =>
      obtain ⟨rfl,_⟩ := List.cons.inj h
      exact absurd (hl2 s1 (by simp)) (by omega)
  | cons a l1 ih =>
    cases l2 with
    | nil =>
      obtain ⟨rfl,_⟩ := List.cons.inj h
      exact absurd (hl1 a (by simp)) (by omega)
    | cons b l2 =>
      obtain ⟨rfl,h'⟩ := List.cons.inj h
      obtain ⟨h1,h2,h3⟩ := ih h' (fun s hs => hl1 s (by simp [hs])) fun s hs => hl2 s (by simp [hs])
      exact ⟨by rw [h1],h2,h3⟩

theorem Shape.unique {lo hi o o' : ℤ} {t t' : Offsetmap V} (h : Shape lo hi o t) (h' : Shape lo hi o' t')
    (hs : segs o t = segs o' t') : o = o' ∧ t = t' := by
  induction t generalizing lo hi o o' t' with
  | empty =>
    obtain rfl := (h'.empty_iff).mpr h.2
    exact ⟨h.1.trans h'.1.symm,rfl⟩
  | node max offl subl offr subr rem modu v ihl ihr =>
    cases t' with
    | empty => simp [segs] at hs
    | node max' offl' subl' offr' subr' rem' modu' v' =>
      obtain ⟨hmax,hl,hr,p,hp,hp1,hp2⟩ := h
      obtain ⟨hmax',hl',hr',p',hp',hp1',hp2'⟩ := h'
      obtain rfl := hp.unique hp'
      have hll : ∀ s ∈ segs (o + offl) subl, s.hi < p := fun s hs => by
        have := (hl.mem_segs hs).2.2
        omega
      have hll' : ∀ s ∈ segs (o' + offl') subl', s.hi < p := fun s hs => by
        have := (hl'.mem_segs hs).2.2
        omega
      obtain ⟨e1,e2,e3⟩ := split_unique hs hll hll' hp2 hp2'
      simp only [Seg.mk.injEq] at e2
      obtain ⟨rfl,em,rfl,rfl,rfl⟩ := e2
      obtain rfl : max = max' := by omega
      obtain ⟨eo,rfl⟩ := ihl hl hl' e1
      obtain ⟨eo',rfl⟩ := ihr hr hr' e3
      obtain rfl : offl = offl' := by omega
      obtain rfl : offr = offr' := by omega
      exact ⟨rfl,rfl⟩

section Gluing
variable [DecidableEq V] [OffsetmapLattice V]

def Seg.mergeable (s t : Seg V) : Bool := areMergeableNodes s.lo (s.rem,s.modu,s.v) t.lo (t.rem,t.modu,t.v)

def Seg.glue (s t : Seg V) : Seg V := { s with hi := t.hi }

/-- The alignment is that of the size, and isotropic values have size one. -/
def Seg.Ok (s : Seg V) : Prop :=
  0 ≤ s.rem ∧ s.rem < s.modu ∧ (isIsotropic s.v = true → s.rem = 0 ∧ s.modu = 1)

def glueList (l : List (Seg V)) : List (Seg V) := Glue.list Seg.mergeable Seg.glue l

def Good (l : List (Seg V)) : Prop := (∀ s ∈ l, s.Ok) ∧ Glue.Canonical Seg.mergeable l

theorem Seg.mergeable_iff {s t : Seg V} (hs : s.Ok) : s.mergeable t = true ↔
    s.v = t.v ∧ s.modu = t.modu ∧ s.modu ∣ t.lo + t.rem - (s.lo + s.rem) ∧
      (t.rem = 0 ∨ cardinalZeroOrOne s.v = true) := by
  have hmod : s.modu = t.modu → (realign t.lo s.lo t.rem t.modu = s.rem ↔
      s.modu ∣ t.lo + t.rem - (s.lo + s.rem)) := by
    intro he
    rw [realign,← he,Int.dvd_iff_emod_eq_zero,show t.lo + t.rem - (s.lo + s.rem) =
      t.lo - s.lo + t.rem - s.rem by ring,← Int.emod_eq_emod_iff_emod_sub_eq_zero,
      Int.emod_eq_of_lt hs.1 hs.2.1]
  simp only [mergeable,areMergeableNodes,Bool.and_eq_true,Bool.or_eq_true,decide_eq_true_eq,and_assoc]
  constructor
  · rintro ⟨h1,h2,h3,h4⟩
    exact ⟨h1,h2,(hmod h2).mp h3,h4⟩
  · rintro ⟨h1,h2,h3,h4⟩
    exact ⟨h1,h2,(hmod h2).mpr h3,h4⟩

theorem Seg.mergeable_congr {s s' : Seg V} (hs : s.Ok) (hs' : s'.Ok) (hv : s.v = s'.v) (hmod : s.modu = s'.modu)
    (hd : s.modu ∣ s'.lo + s'.rem - (s.lo + s.rem)) (u : Seg V) : s.mergeable u = s'.mergeable u := by
  have hiff : s.mergeable u = true ↔ s'.mergeable u = true := by
    rw [Seg.mergeable_iff hs,Seg.mergeable_iff hs',← hv,← hmod]
    refine and_congr_right fun _ => and_congr_right fun _ => and_congr_left fun _ => ?_
    rw [show u.lo + u.rem - (s.lo + s.rem) =
      u.lo + u.rem - (s'.lo + s'.rem) + (s'.lo + s'.rem - (s.lo + s.rem)) by ring]
    exact dvd_add_left hd
  exact Bool.eq_iff_iff.mpr hiff

theorem glue_laws : Glue.Laws (Seg.mergeable (V := V)) Seg.glue Seg.Ok where
  closed hs _ _ := hs
  right _ _ _ := rfl
  left {s t u} hs ht _ hm := by
    obtain ⟨hv,hmod,hd,_⟩ := (Seg.mergeable_iff hs).mp hm
    exact Seg.mergeable_congr (s := s.glue t) hs ht hv hmod hd u
  assoc _ _ _ := rfl

theorem good_nil : Good ([] : List (Seg V)) := ⟨by simp,Glue.canonical_nil⟩

theorem good_glueList {l : List (Seg V)} (h : ∀ s ∈ l, s.Ok) : Good (glueList l) :=
  ⟨glue_laws.forall_list h,glue_laws.canonical_list h⟩

theorem Good.glueList_eq {l : List (Seg V)} (h : Good l) : glueList l = l := Glue.list_of_canonical h.2

theorem Good.left {l r : List (Seg V)} (h : Good (l ++ r)) : Good l :=
  ⟨fun s hs => h.1 s (by simp [hs]),h.2.left_of_append⟩

theorem Good.right {l r : List (Seg V)} (h : Good (l ++ r)) : Good r :=
  ⟨fun s hs => h.1 s (by simp [hs]),h.2.right_of_append⟩

theorem glueList_append_left {l r : List (Seg V)} (hl : ∀ s ∈ l, s.Ok) (hr : ∀ s ∈ r, s.Ok) :
    glueList (glueList l ++ r) = glueList (l ++ r) := glue_laws.list_append_left hl hr

theorem glueList_append_right {l r : List (Seg V)} (hr : ∀ s ∈ r, s.Ok) :
    glueList (l ++ glueList r) = glueList (l ++ r) := glue_laws.list_append_right hr

def newSeg (lo hi rem modu : ℤ) (v : V) : Seg V :=
  if isIsotropic v then ⟨lo,hi,0,1,v⟩ else ⟨lo,hi,rem,modu,v⟩

section
omit [DecidableEq V]
variable (lo hi rem modu : ℤ) (v : V)

@[simp] theorem newSeg_lo : (newSeg lo hi rem modu v).lo = lo := by unfold newSeg; split <;> rfl
@[simp] theorem newSeg_hi : (newSeg lo hi rem modu v).hi = hi := by unfold newSeg; split <;> rfl
@[simp] theorem newSeg_v : (newSeg lo hi rem modu v).v = v := by unfold newSeg; split <;> rfl

end

omit [DecidableEq V] in
theorem newSeg_ok {lo hi rem modu : ℤ} {v : V} (h : isIsotropic v = true ∨ 0 ≤ rem ∧ rem < modu) :
    (newSeg lo hi rem modu v).Ok := by
  unfold newSeg
  split
  · exact ⟨le_rfl,by simp,by simp⟩
  · rename_i hi
    rcases h with h | h
    · exact absurd h hi
    · exact ⟨h.1,h.2,fun hv => absurd hv hi⟩

omit [DecidableEq V] in
theorem newSeg_eq {lo hi rem modu : ℤ} {v : V} (h : (⟨lo,hi,rem,modu,v⟩ : Seg V).Ok) :
    newSeg lo hi rem modu v = ⟨lo,hi,rem,modu,v⟩ := by
  unfold newSeg
  split
  · rename_i hi
    obtain ⟨h1,h2⟩ := h.2.2 hi
    simp only at h1 h2
    rw [h1,h2]
  · rfl

end Gluing

theorem leftmostChild_spec {lo hi o : ℤ} {t : Offsetmap V} (h : Shape lo hi o t) (hne : t ≠ .empty)
    (z : Zipper V) : ∃ c z' o' t', leftmostChild o z t = some (lo,c,z') ∧ 0 ≤ c.max ∧
      rezip z' (lo + c.offr) c.subr = rezip z o' t' ∧ Shape (lo + c.max + 1) hi o' t' ∧
      segs o t = ⟨lo,lo + c.max,c.rem,c.modu,c.v⟩ :: segs o' t' := by
  induction t generalizing lo hi o z with
  | empty => exact absurd rfl hne
  | node max offl subl offr subr rem modu v ihl ihr =>
    have hroot := h.root_le
    obtain ⟨hmax,hl,hr,p,hp,hp1,hp2⟩ := h
    cases subl with
    | empty =>
      obtain ⟨h1,h2⟩ := hl
      obtain rfl : o = lo := by omega
      exact ⟨⟨max,offl,.empty,offr,subr,rem,modu,v⟩,z,o + offr,subr,rfl,hmax,rfl,hr,rfl⟩
    | node max' offl' subl' offr' subr' rem' modu' v' =>
      obtain ⟨c,z',o',t',h1,h2,h3,h4,h5⟩ := ihl hl (by simp) (.left o ⟨max,offl,_,offr,subr,rem,modu,v⟩ z)
      have hle := h4.le
      refine ⟨c,z',o,.node max (o' - o) t' offr subr rem modu v,h1,h2,h3,?_,?_⟩
      · exact Shape.node hmax (by rwa [add_sub_cancel]) hr
          (hp.restrict (by omega) le_rfl (by omega) (by omega)) hp1 hp2
      · rw [segs,h5,segs,add_sub_cancel,List.cons_append]

theorem rightmostChild_spec {lo hi o : ℤ} {t : Offsetmap V} (h : Shape lo hi o t) (hne : t ≠ .empty)
    (z : Zipper V) : ∃ off c z' o' t', rightmostChild o z t = some (off,c,z') ∧ 0 ≤ c.max ∧
      off + c.max = hi ∧ rezip z' (off + c.offl) c.subl = rezip z o' t' ∧ Shape lo (off - 1) o' t' ∧
      segs o t = segs o' t' ++ [⟨off,hi,c.rem,c.modu,c.v⟩] := by
  induction t generalizing lo hi o z with
  | empty => exact absurd rfl hne
  | node max offl subl offr subr rem modu v ihl ihr =>
    have hroot := h.root_le
    obtain ⟨hmax,hl,hr,p,hp,hp1,hp2⟩ := h
    cases subr with
    | empty =>
      obtain ⟨h1,h2⟩ := hr
      obtain rfl : hi = o + max := by omega
      exact ⟨o,⟨max,offl,subl,offr,.empty,rem,modu,v⟩,z,o + offl,subl,rfl,hmax,rfl,rfl,hl,rfl⟩
    | node max' offl' subl' offr' subr' rem' modu' v' =>
      obtain ⟨off,c,z',o',t',h1,h2,h3,h4,h5,h6⟩ :=
        ihr hr (by simp) (.right o ⟨max,offl,subl,offr,_,rem,modu,v⟩ z)
      have hle := h5.le
      refine ⟨off,c,z',o,.node max offl subl (o' - o) t' rem modu v,h1,h2,h3,h4,?_,?_⟩
      · exact Shape.node hmax hl (by rwa [add_sub_cancel])
          (hp.restrict le_rfl (by omega) (by omega) (by omega)) hp1 hp2
      · rw [segs,h6,segs,add_sub_cancel]
        simp

section Constructors
variable [DecidableEq V] [OffsetmapLattice V]

/-- A canonical tree rooted at `o` that spans `[lo..hi]`. -/
def Canon (lo hi o : ℤ) (t : Offsetmap V) : Prop := Shape lo hi o t ∧ Good (segs o t)

theorem canon_empty (lo : ℤ) : Canon lo (lo - 1) lo (.empty : Offsetmap V) := ⟨⟨rfl,rfl⟩,good_nil⟩

theorem Canon.node_parts {lo hi o max offl offr rem modu : ℤ} {subl subr : Offsetmap V} {v : V}
    (h : Canon lo hi o (.node max offl subl offr subr rem modu v)) :
    0 ≤ max ∧ Canon lo (o - 1) (o + offl) subl ∧ Canon (o + max + 1) hi (o + offr) subr ∧
      (⟨o,o + max,rem,modu,v⟩ : Seg V).Ok ∧ ∃ p, IsPivot lo hi p ∧ o ≤ p ∧ p ≤ o + max := by
  obtain ⟨⟨hmax,hl,hr,hp⟩,hgood⟩ := h
  rw [segs] at hgood
  have hright := hgood.right
  exact ⟨hmax,⟨hl,hgood.left⟩,⟨hr,Good.right (l := [_]) hright⟩,hright.1 _ (by simp),hp⟩

theorem glueRight_spec {c max offr hi : ℤ} (rem modu : ℤ) (v : V) {subr : Offsetmap V}
    (hr : Shape (c + max + 1) hi (c + offr) subr) :
    ∃ max' offr' subr', glueRight c max offr subr (rem,modu,v) = (max',offr',subr') ∧ max ≤ max' ∧
      Shape (c + max' + 1) hi (c + offr') subr' ∧
      ⟨c,c + max',rem,modu,v⟩ :: segs (c + offr') subr' =
        Glue.cons Seg.mergeable Seg.glue ⟨c,c + max,rem,modu,v⟩ (segs (c + offr) subr) := by
  by_cases hne : subr = .empty
  · subst hne
    exact ⟨max,offr,.empty,rfl,le_rfl,hr,rfl⟩
  · obtain ⟨n,z,o',t',h1,h2,h3,h4,h5⟩ := leftmostChild_spec hr hne .endZ
    rw [glueRight,h1,h5,Glue.cons]
    change ∃ max' offr' subr', _ ∧ _ ∧ _ ∧ _ =
      if areMergeableNodes c (rem,modu,v) (c + max + 1) (n.rem,n.modu,n.v) then _ else _
    by_cases hm : areMergeableNodes c (rem,modu,v) (c + max + 1) (n.rem,n.modu,n.v) = true
    · refine ⟨max + n.max + 1,o' - c,t',?_,by omega,?_,?_⟩
      · simp only [hm,if_true,h3,rezip]
      · rwa [add_sub_cancel,show c + (max + n.max + 1) + 1 = c + max + 1 + n.max + 1 by ring]
      · rw [if_pos hm,add_sub_cancel,show c + (max + n.max + 1) = c + max + 1 + n.max by ring]
        rfl
    · refine ⟨max,offr,subr,?_,le_rfl,hr,?_⟩
      · simp only [hm,Bool.false_eq_true,if_false]
      · rw [if_neg hm,h5]

theorem glueLeft_spec {c offl lo : ℤ} (max rem modu offr : ℤ) (v : V) {subl : Offsetmap V}
    (hl : Canon lo (c - 1) (c + offl) subl) (R : List (Seg V)) :
    ∃ c' max' rem' offl' subl' offr',
      glueLeft c max rem modu v offl subl offr = (c',max',rem',offl',subl',offr') ∧ c' ≤ c ∧
      c' + max' = c + max ∧ c' + offr' = c + offr ∧ Shape lo (c' - 1) (c' + offl') subl' ∧
      segs (c' + offl') subl' ++ ⟨c',c' + max',rem',modu,v⟩ :: R =
        (segs (c + offl) subl).foldr (Glue.cons Seg.mergeable Seg.glue) (⟨c,c + max,rem,modu,v⟩ :: R) := by
  by_cases hne : subl = .empty
  · subst hne
    exact ⟨c,max,rem,offl,.empty,offr,rfl,le_rfl,rfl,rfl,hl.1,rfl⟩
  · obtain ⟨off,n,z,o',t',h1,h2,h3,h4,h5,h6⟩ := rightmostChild_spec hl.1 hne .endZ
    have hgood := hl.2.2
    rw [h6] at hgood
    rw [glueLeft,h1,h6,glue_laws.foldr_append_singleton hgood]
    change ∃ c' max' rem' offl' subl' offr', _ ∧ _ ∧ _ ∧ _ ∧ _ ∧ _ =
      if areMergeableNodes off (n.rem,n.modu,n.v) c (rem,modu,v) then _ else _
    by_cases hm : areMergeableNodes off (n.rem,n.modu,n.v) c (rem,modu,v) = true
    · have hoff : c - (n.max + 1) = off := by omega
      have hparts := hm
      simp only [areMergeableNodes,Bool.and_eq_true,decide_eq_true_eq,and_assoc] at hparts
      obtain ⟨e1,e2,e3,_⟩ := hparts
      refine ⟨c - (n.max + 1),max + (n.max + 1),realign c off rem modu,o' - off,t',offr + (n.max + 1),?_,
        by omega,by ring,by ring,?_,?_⟩
      · simp only [hm,if_true,h4,rezip]
      · rwa [hoff,add_sub_cancel]
      · rw [if_pos hm,hoff,add_sub_cancel,e3,← e1,← e2]
        congr 2
        simp only [Seg.glue,Seg.mk.injEq,and_true,true_and]
        omega
    · refine ⟨c,max,rem,offl,subl,offr,?_,le_rfl,rfl,rfl,hl.1,?_⟩
      · simp only [hm,Bool.false_eq_true,if_false]
      · rw [if_neg hm,h6,List.append_assoc]
        rfl

theorem makeNode_spec {lo hi c max offl offr rem modu p : ℤ} {v : V} {subl subr : Offsetmap V}
    (hl : Canon lo (c - 1) (c + offl) subl) (hr : Canon (c + max + 1) hi (c + offr) subr)
    (hp : IsPivot lo hi p) (hp1 : c ≤ p) (hp2 : p ≤ c + max)
    (hv : isIsotropic v = true ∨ 0 ≤ rem ∧ rem < modu) :
    ∃ o t, makeNode c max offl subl offr subr rem modu v = (o,t) ∧ Canon lo hi o t ∧
      segs o t = glueList (segs (c + offl) subl ++ newSeg c (c + max) rem modu v :: segs (c + offr) subr) := by
  obtain ⟨r,m,hrm⟩ : ∃ r m, (if isIsotropic v then ((0 : ℤ),(1 : ℤ)) else (rem,modu)) = (r,m) := ⟨_,_,rfl⟩
  have hseg : newSeg c (c + max) rem modu v = ⟨c,c + max,r,m,v⟩ := by
    unfold newSeg
    split
    · rename_i hi
      rw [if_pos hi] at hrm
      cases hrm
      rfl
    · rename_i hi
      rw [if_neg hi] at hrm
      cases hrm
      rfl
  have hok : (⟨c,c + max,r,m,v⟩ : Seg V).Ok := hseg ▸ newSeg_ok hv
  obtain ⟨max1,offr1,subr1,g1,g2,g3,g4⟩ := glueRight_spec r m v hr.1
  obtain ⟨c2,max2,rem2,offl2,subl2,offr2,f1,f2,f3,f4,f5,f6⟩ :=
    glueLeft_spec max1 r m offr1 v hl (segs (c + offr1) subr1)
  have hle := g3.le
  have hle' := f5.le
  have hlist : segs (c2 + offl2) subl2 ++ ⟨c2,c2 + max2,rem2,m,v⟩ :: segs (c2 + offr2) subr1 =
      glueList (segs (c + offl) subl ++ newSeg c (c + max) rem modu v :: segs (c + offr) subr) := by
    rw [f4,f6,g4,hseg,glueList,Glue.list_append,Glue.list,← glueList,hr.2.glueList_eq]
  refine ⟨c2,.node max2 offl2 subl2 offr2 subr1 rem2 m v,?_,⟨?_,?_⟩,hlist⟩
  · simp only [makeNode,hrm,g1,f1]
  · have hsr : Shape (c2 + max2 + 1) hi (c2 + offr2) subr1 := by rwa [f3,f4]
    exact Shape.node (by omega) f5 hsr hp (by omega) (by omega)
  · rw [segs,hlist]
    refine good_glueList ?_
    intro s hs
    rw [List.mem_append,List.mem_cons] at hs
    rcases hs with hs | rfl | hs
    · exact hl.2.1 s hs
    · exact hseg ▸ hok
    · exact hr.2.1 s hs

theorem intervalAux_spec {min max rem modu : ℤ} {v : V} (hle : min ≤ max)
    (hv : isIsotropic v = true ∨ 0 ≤ rem ∧ rem < modu) :
    Canon min max min (intervalAux (max - min) rem modu v) ∧
      segs min (intervalAux (max - min) rem modu v) = [newSeg min max rem modu v] := by
  obtain ⟨p,hp⟩ := exists_pivot hle
  have hp1 := hp.lower
  have hp2 := hp.upper
  have hsegs : segs min (intervalAux (max - min) rem modu v) = [newSeg min max rem modu v] := by
    unfold intervalAux newSeg
    by_cases hiso : isIsotropic v = true
    · simp [hiso,segs]
    · simp [hiso,segs]
  refine ⟨⟨?_,?_⟩,hsegs⟩
  · have hl : Shape min (min - 1) (min + 0) (.empty : Offsetmap V) := ⟨by omega,rfl⟩
    have hr : Shape (min + (max - min) + 1) max (min + (max - min + 1)) (.empty : Offsetmap V) :=
      ⟨by omega,by omega⟩
    unfold intervalAux
    exact Shape.node (by omega) hl hr hp hp1 (by omega)
  · rw [hsegs]
    refine ⟨?_,Glue.canonical_singleton _⟩
    intro s hs
    rw [List.mem_singleton] at hs
    exact hs ▸ newSeg_ok hv

theorem addNode_left {hi o min max rem modu : ℤ} {v : V} {t : Offsetmap V} (h : Canon (max + 1) hi o t)
    (hle : min ≤ max) (hv : isIsotropic v = true ∨ 0 ≤ rem ∧ rem < modu) :
    ∃ o' t', addNode min max rem modu v o t = (o',t') ∧ Canon min hi o' t' ∧
      segs o' t' = glueList (newSeg min max rem modu v :: segs o t) := by
  induction t generalizing hi o with
  | empty =>
    obtain ⟨h1,h2⟩ := h.1
    obtain rfl : hi = max := by omega
    obtain ⟨hc,hs⟩ := intervalAux_spec hle hv
    exact ⟨min,_,rfl,hc,hs⟩
  | node nmax noffl nsubl noffr nsubr nrem nmodu nv ihl ihr =>
    have hroot := h.1.root_le
    obtain ⟨hnmax,hl,hr,hok,q,hq,hq1,hq2⟩ := h.node_parts
    obtain ⟨p,hp⟩ := exists_pivot (show min ≤ hi by omega)
    rw [addNode,if_pos (show max < o by omega)]
    by_cases hpm : p ≤ max
    · rw [if_pos (isAbove_eq_true hp ⟨hp.lower,hpm⟩ (by omega) (by omega) (by omega) (by omega))]
      have hl' : Canon min (min - 1) (min + 0) (.empty : Offsetmap V) := by
        rw [add_zero]
        exact canon_empty min
      have hr' : Canon (min + (max - min) + 1) hi (min + (o - min))
          (.node nmax noffl nsubl noffr nsubr nrem nmodu nv) := by
        rwa [add_sub_cancel,add_sub_cancel]
      obtain ⟨o',t',h1,h2,h3⟩ := makeNode_spec hl' hr' hp hp.lower (by omega) hv
      rw [add_sub_cancel,add_sub_cancel] at h3
      exact ⟨o',t',h1,h2,h3⟩
    · obtain rfl : p = q := (hp.restrict (by omega) le_rfl (by omega) hp.upper).unique hq
      rw [isAbove_eq_false hp hle (by omega) le_rfl (by omega) (by omega)]
      obtain ⟨o1,t1,g1,g2,g3⟩ := ihl hl
      have hl' : Canon min (o - 1) (o + (o1 - o)) t1 := by rwa [add_sub_cancel]
      obtain ⟨o',t',h1,h2,h3⟩ := makeNode_spec hl' hr hp hq1 hq2 (.inr ⟨hok.1,hok.2.1⟩)
      refine ⟨o',t',?_,h2,?_⟩
      · simp only [g1,Bool.false_eq_true,if_false]
        exact h1
      · rw [h3,add_sub_cancel,g3,newSeg_eq hok,glueList_append_left,segs,List.cons_append]
        · intro s hs
          rcases List.mem_cons.mp hs with rfl | hs
          · exact newSeg_ok hv
          · exact hl.2.1 s hs
        · intro s hs
          rcases List.mem_cons.mp hs with rfl | hs
          · exact hok
          · exact hr.2.1 s hs

theorem addNode_right {lo o min max rem modu : ℤ} {v : V} {t : Offsetmap V} (h : Canon lo (min - 1) o t)
    (hle : min ≤ max) (hv : isIsotropic v = true ∨ 0 ≤ rem ∧ rem < modu) :
    ∃ o' t', addNode min max rem modu v o t = (o',t') ∧ Canon lo max o' t' ∧
      segs o' t' = glueList (segs o t ++ [newSeg min max rem modu v]) := by
  induction t generalizing lo o with
  | empty =>
    obtain ⟨h1,h2⟩ := h.1
    obtain rfl : lo = min := by omega
    obtain ⟨hc,hs⟩ := intervalAux_spec hle hv
    exact ⟨lo,_,rfl,hc,hs⟩
  | node nmax noffl nsubl noffr nsubr nrem nmodu nv ihl ihr =>
    have hroot := h.1.root_le
    obtain ⟨hnmax,hl,hr,hok,q,hq,hq1,hq2⟩ := h.node_parts
    obtain ⟨p,hp⟩ := exists_pivot (show lo ≤ max by omega)
    rw [addNode,if_neg (show ¬ max < o by omega)]
    by_cases hpm : min ≤ p
    · rw [if_pos (isAbove_eq_true hp ⟨hpm,hp.upper⟩ (by omega) (by omega) (by omega) (by omega))]
      have hl' : Canon lo (min - 1) (min + (o - min)) (.node nmax noffl nsubl noffr nsubr nrem nmodu nv) := by
        rwa [add_sub_cancel]
      have hr' : Canon (min + (max - min) + 1) max (min + (max - min + 1)) (.empty : Offsetmap V) :=
        ⟨⟨by omega,by omega⟩,good_nil⟩
      have hpmax := hp.upper
      obtain ⟨o',t',h1,h2,h3⟩ := makeNode_spec hl' hr' hp hpm (by omega) hv
      rw [add_sub_cancel,add_sub_cancel] at h3
      exact ⟨o',t',h1,h2,h3⟩
    · obtain rfl : p = q := (hp.restrict le_rfl (by omega) hp.lower (by omega)).unique hq
      rw [isAbove_eq_false hp hle (by omega) (by omega) (by omega) (by omega)]
      obtain ⟨o1,t1,g1,g2,g3⟩ := ihr hr
      have hr' : Canon (o + nmax + 1) max (o + (o1 - o)) t1 := by rwa [add_sub_cancel]
      obtain ⟨o',t',h1,h2,h3⟩ := makeNode_spec hl hr' hp hq1 hq2 (.inr ⟨hok.1,hok.2.1⟩)
      refine ⟨o',t',?_,h2,?_⟩
      · simp only [g1,Bool.false_eq_true,if_false]
        exact h1
      · rw [h3,add_sub_cancel,g3,newSeg_eq hok,List.append_cons,glueList_append_right,segs]
        · simp
        · intro s hs
          rcases List.mem_append.mp hs with hs | hs
          · exact hr.2.1 s hs
          · rw [List.mem_singleton] at hs
            exact hs ▸ newSeg_ok hv

theorem union_spec {lo m hi o1 o2 : ℤ} {t1 t2 : Offsetmap V} (h1 : Canon lo m o1 t1)
    (h2 : Canon (m + 1) hi o2 t2) : ∃ o t, union o1 t1 o2 t2 = (o,t) ∧ Canon lo hi o t ∧
      segs o t = glueList (segs o1 t1 ++ segs o2 t2) := by
  induction t1 generalizing lo m o1 o2 t2 hi with
  | empty =>
    obtain ⟨rfl,e1⟩ := h1.1
    obtain rfl : o1 = m + 1 := by omega
    cases t2 with
    | empty =>
      obtain ⟨rfl,e2⟩ := h2.1
      exact ⟨_,_,rfl,h2,rfl⟩
    | node => exact ⟨_,_,rfl,h2,h2.2.glueList_eq.symm⟩
  | node lmax loffl lsubl loffr lsubr lrem lmodu lv ihl ihr =>
    have hroot1 := h1.1.root_le
    obtain ⟨hlmax,hll,hlr,hlok,p1,hp1,hp11,hp12⟩ := h1.node_parts
    -- the inner recursion goes down the left spine of the right tree
    induction t2 generalizing o2 hi with
    | empty =>
      obtain ⟨rfl,e2⟩ := h2.1
      obtain rfl : hi = m := by omega
      refine ⟨_,_,rfl,h1,?_⟩
      rw [segs.eq_1,List.append_nil,h1.2.glueList_eq]
    | node rmax roffl rsubl roffr rsubr rrem rmodu rv ihl2 ihr2 =>
      have hroot2 := h2.1.root_le
      obtain ⟨hrmax,hrl,hrr,hrok,p2,hp2,hp21,hp22⟩ := h2.node_parts
      obtain ⟨p,hp⟩ := exists_pivot (show lo ≤ hi by omega)
      rw [union,unionNode]
      dsimp only
      by_cases hpm : p ≤ m
      · obtain rfl : p = p1 := (hp.restrict le_rfl (by omega) hp.lower hpm).unique hp1
        rw [if_pos (isAbove_eq_true hp (by omega) (by omega) (by omega) (by omega) (by omega))]
        obtain ⟨or,tr,g1,g2,g3⟩ := ihr hlr h2
        have hr' : Canon (o1 + lmax + 1) hi (o1 + (or - o1)) tr := by rwa [add_sub_cancel]
        obtain ⟨o',t',k1,k2,k3⟩ := makeNode_spec hll hr' hp hp11 hp12 (.inr ⟨hlok.1,hlok.2.1⟩)
        refine ⟨o',t',?_,k2,?_⟩
        · simp only [g1]
          exact k1
        · rw [k3,add_sub_cancel,g3,newSeg_eq hlok,List.append_cons,glueList_append_right,segs.eq_2 o1]
          · simp
          · intro s hs
            rcases List.mem_append.mp hs with hs | hs
            · exact hlr.2.1 s hs
            · exact h2.2.1 s hs
      · obtain rfl : p = p2 := (hp.restrict (by omega) le_rfl (by omega) hp.upper).unique hp2
        rw [isAbove_eq_false hp (by omega) (by omega) (by omega) (by omega) (by omega)]
        obtain ⟨ol,tl,g1,g2,g3⟩ := ihl2 hrl
        rw [union] at g1
        have hl' : Canon lo (o2 - 1) (o2 + (ol - o2)) tl := by rwa [add_sub_cancel]
        obtain ⟨o',t',k1,k2,k3⟩ := makeNode_spec hl' hrr hp hp21 hp22 (.inr ⟨hrok.1,hrok.2.1⟩)
        refine ⟨o',t',?_,k2,?_⟩
        · simp only [g1,Bool.false_eq_true,if_false]
          exact k1
        · rw [k3,add_sub_cancel,g3,newSeg_eq hrok,glueList_append_left,segs.eq_2 o2,List.append_assoc]
          · intro s hs
            rcases List.mem_append.mp hs with hs | hs
            · exact h1.2.1 s hs
            · exact hrl.2.1 s hs
          · intro s hs
            rcases List.mem_cons.mp hs with rfl | hs
            · exact hrok
            · exact hrr.2.1 s hs

end Constructors

end FramaC.Offsetmap
