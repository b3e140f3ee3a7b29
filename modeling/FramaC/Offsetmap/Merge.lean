import FramaC.Offsetmap.Update
import FramaC.Offsetmap.Stitch

/-! # Merging offsetmaps of the same range

Both roots hold the pivot of the range: the merge computes the value of their intersection, and
goes on with what is left of both trees on each side. The caches of the source are transparent
and left out; `none` stands for `assert false`.
-/
namespace FramaC.Offsetmap
open OffsetmapLattice Pivot Integer
variable {V : Type}

section Functional
variable [DecidableEq V] [OffsetmapLattice V]

/-- The left parts of two nodes, the beginning of their intersection, and both alignments there. -/
def mergeLeft (o1 : ℤ) (c1 : Cell V) (o2 : ℤ) (c2 : Cell V) :
    (ℤ × Offsetmap V) × (ℤ × Offsetmap V) × ℤ × ℤ × ℤ :=
  let absOffl1 := o1 + c1.offl
  let absOffl2 := o2 + c2.offl
  if o1 = o2 then ((absOffl1,c1.subl),(absOffl2,c2.subl),o1,c1.rem,c2.rem)
  else if o1 < o2 then
    let newRem1 := realign o1 o2 c1.rem c1.modu
    (addNode o1 (o2 - 1) c1.rem c1.modu c1.v absOffl1 c1.subl,(absOffl2,c2.subl),o2,newRem1,c2.rem)
  else
    let newRem2 := realign o2 o1 c2.rem c2.modu
    ((absOffl1,c1.subl),addNode o2 (o1 - 1) c2.rem c2.modu c2.v absOffl2 c2.subl,o1,c1.rem,newRem2)

def mergeRight (o1 : ℤ) (c1 : Cell V) (o2 : ℤ) (c2 : Cell V) : (ℤ × Offsetmap V) × (ℤ × Offsetmap V) × ℤ :=
  let absMax1 := c1.max + o1
  let absMax2 := c2.max + o2
  let absOffr1 := o1 + c1.offr
  let absOffr2 := o2 + c2.offr
  if absMax1 = absMax2 then ((absOffr1,c1.subr),(absOffr2,c2.subr),absMax1)
  else if absMax1 < absMax2 then
    let min := absMax1 + 1
    let rem2 := realign o2 min c2.rem c2.modu
    ((absOffr1,c1.subr),addNode min absMax2 rem2 c2.modu c2.v absOffr2 c2.subr,absMax1)
  else
    let min := absMax2 + 1
    let rem1 := realign o1 min c1.rem c1.modu
    (addNode min absMax1 rem1 c1.modu c1.v absOffr1 c1.subr,(absOffr2,c2.subr),absMax2)

/-- What merges two aligned values on `[absMin..absMax]`. -/
abbrev FAux (V : Type) := (absMin absMax rem1 modu1 : ℤ) → V → (rem2 modu2 : ℤ) → V → Option (ℤ × ℤ × V)

/-- `cache` is used for the recursive calls on subtrees. -/
def merge (cache : ℤ × Offsetmap V → ℤ × Offsetmap V → Option (ℤ × Offsetmap V)) (fAux : FAux V) :
    ℤ × Offsetmap V → ℤ × Offsetmap V → Option (ℤ × Offsetmap V)
  | (o1,.empty),(_,.empty) => some (o1,.empty)
  | (o1,.node max1 offl1 subl1 offr1 subr1 rem1 modu1 v1),(o2,.node max2 offl2 subl2 offr2 subr2 rem2 modu2 v2) =>
    let c1 : Cell V := ⟨max1,offl1,subl1,offr1,subr1,rem1,modu1,v1⟩
    let c2 : Cell V := ⟨max2,offl2,subl2,offr2,subr2,rem2,modu2,v2⟩
    let (l1,l2,middleAbsMin,middleRem1,middleRem2) := mergeLeft o1 c1 o2 c2
    let (r1,r2,middleAbsMax) := mergeRight o1 c1 o2 c2
    do
      let (currOffl,leftT) ← cache l1 l2
      let (currOffr,rightT) ← cache r1 r2
      let (rem,modu,v) ← fAux middleAbsMin middleAbsMax middleRem1 modu1 v1 middleRem2 modu2 v2
      let (currOffl,leftT) := addNode middleAbsMin middleAbsMax rem modu v currOffl leftT
      some (union currOffl leftT currOffr rightT)
  | _,_ => none

/-- The recursion that ties `merge`: `stop` tells when a result is known without looking at the nodes. -/
def mergeRec (stop : ℤ × Offsetmap V → ℤ × Offsetmap V → Option (ℤ × Offsetmap V)) (fAux : FAux V) :
    ℕ → ℤ × Offsetmap V → ℤ × Offsetmap V → Option (ℤ × Offsetmap V)
  | 0,_,_ => none
  | fuel + 1,t1,t2 =>
    match stop t1 t2 with
    | some r => some r
    | none => merge (mergeRec stop fAux fuel) fAux t1 t2

def mergeFrom (stop : ℤ × Offsetmap V → ℤ × Offsetmap V → Option (ℤ × Offsetmap V)) (fAux : FAux V)
    (t1 t2 : ℤ × Offsetmap V) : Option (ℤ × Offsetmap V) :=
  let (lo,hi) := boundsOffset t1.1 t1.2
  mergeRec stop fAux ((hi - lo + 1).toNat + 1) t1 t2

def Cell.node (c : Cell V) : Offsetmap V := .node c.max c.offl c.subl c.offr c.subr c.rem c.modu c.v

/-- `l` holds what the tree rooted at `o` has before `m`. -/
def LeftPart (lo m o : ℤ) (t : Offsetmap V) (l : ℤ × Offsetmap V) : Prop :=
  Canon lo (m - 1) l.1 l.2 ∧ ∀ b v, b < m → HasVal (segs o t) b v → HasVal (segs l.1 l.2) b v

/-- `r` holds what the tree rooted at `o` has after `m`. -/
def RightPart (m hi o : ℤ) (t : Offsetmap V) (r : ℤ × Offsetmap V) : Prop :=
  Canon (m + 1) hi r.1 r.2 ∧ ∀ b v, m < b → HasVal (segs o t) b v → HasVal (segs r.1 r.2) b v

section Parts
variable {lo hi m o : ℤ} {c : Cell V}

section Bits
omit [DecidableEq V] [OffsetmapLattice V]
variable {b : ℤ} {v : V} {s : Seg V}

theorem hasSeg_node : HasSeg (segs o c.node) b s ↔ HasSeg (segs (o + c.offl) c.subl) b s ∨
    (o ≤ b ∧ b ≤ o + c.max ∧ s = c.seg o) ∨ HasSeg (segs (o + c.offr) c.subr) b s := by
  rw [Cell.node,segs,← Cell.seg.eq_1 o c]
  simp only [HasSeg,List.mem_append,List.mem_cons,or_and_right]
  apply or_congr_right
  apply or_congr_left
  constructor
  · rintro ⟨rfl,h1,h2⟩
    exact ⟨h1,h2,rfl⟩
  · rintro ⟨h1,h2,rfl⟩
    exact ⟨rfl,h1,h2⟩

theorem hasSeg_subl (h : Shape lo hi o c.node) (hb : b < o) :
    HasSeg (segs o c.node) b s ↔ HasSeg (segs (o + c.offl) c.subl) b s := by
  obtain ⟨hmax,hl,hr,-⟩ := h
  rw [hasSeg_node]
  constructor
  · rintro (hs | hs | hs)
    · exact hs
    · omega
    · have := hs.mem hr.tiles
      omega
  · exact .inl

theorem hasSeg_subr (h : Shape lo hi o c.node) (hb : c.max + o < b) :
    HasSeg (segs o c.node) b s ↔ HasSeg (segs (o + c.offr) c.subr) b s := by
  obtain ⟨hmax,hl,hr,-⟩ := h
  rw [hasSeg_node]
  constructor
  · rintro (hs | hs | hs)
    · have := hs.mem hl.tiles
      omega
    · omega
    · exact hs
  · exact fun hs => .inr (.inr hs)

theorem hasSeg_root (h : Shape lo hi o c.node) (h1 : o ≤ b) (h2 : b ≤ c.max + o) :
    HasSeg (segs o c.node) b s ↔ s = c.seg o := by
  obtain ⟨hmax,hl,hr,-⟩ := h
  rw [hasSeg_node]
  constructor
  · rintro (hs | hs | hs)
    · have := hs.mem hl.tiles
      omega
    · exact hs.2.2
    · have := hs.mem hr.tiles
      omega
  · exact fun hs => .inr (.inl ⟨h1,by omega,hs⟩)

theorem hasVal_subl (h : Shape lo hi o c.node) (hb : b < o) :
    HasVal (segs o c.node) b v ↔ HasVal (segs (o + c.offl) c.subl) b v := by
  simp only [hasVal_iff,hasSeg_subl h hb]

theorem hasVal_subr (h : Shape lo hi o c.node) (hb : c.max + o < b) :
    HasVal (segs o c.node) b v ↔ HasVal (segs (o + c.offr) c.subr) b v := by
  simp only [hasVal_iff,hasSeg_subr h hb]

theorem hasVal_root (h : Shape lo hi o c.node) (h1 : o ≤ b) (h2 : b ≤ c.max + o) :
    HasVal (segs o c.node) b v ↔ c.v = v := by
  simp only [hasVal_iff,hasSeg_root h h1 h2,exists_eq_left,Cell.seg]

end Bits

theorem leftPart_subl (h : Canon lo hi o c.node) : LeftPart lo o o c.node (o + c.offl,c.subl) := by
  obtain ⟨hmax,hl,-⟩ := h.node_parts
  refine ⟨hl,?_⟩
  intro b v hb hv
  exact (hasVal_subl h.1 hb).mp hv

theorem leftPart_addNode (h : Canon lo hi o c.node) (h1 : o < m) (h2 : m ≤ o + c.max) :
    LeftPart lo m o c.node (addNode o (m - 1) c.rem c.modu c.v (o + c.offl) c.subl) := by
  obtain ⟨hmax,hl,hr,hok,-⟩ := h.node_parts
  have hal : isIsotropic c.v = true ∨ 0 ≤ c.rem ∧ c.rem < c.modu := .inr ⟨hok.1,hok.2.1⟩
  obtain ⟨o',t',g1,g2,-⟩ := addNode_right hl (show o ≤ m - 1 by omega) hal
  refine ⟨g1 ▸ g2,?_⟩
  intro b v hb hv
  apply hasVal_addNode_right hl (by omega) hal rfl
  by_cases hbo : b < o
  · exact .inl ((hasVal_subl h.1 hbo).mp hv)
  · exact .inr ⟨by omega,by omega,(hasVal_root h.1 (by omega) (by omega)).mp hv⟩

theorem rightPart_subr (h : Canon lo hi o c.node) : RightPart (c.max + o) hi o c.node (o + c.offr,c.subr) := by
  obtain ⟨hmax,hl,hr,-⟩ := h.node_parts
  refine ⟨by rwa [add_comm c.max],?_⟩
  intro b v hb hv
  exact (hasVal_subr h.1 hb).mp hv

theorem rightPart_addNode (h : Canon lo hi o c.node) (h1 : o ≤ m) (h2 : m < c.max + o) :
    RightPart m hi o c.node
      (addNode (m + 1) (c.max + o) (realign o (m + 1) c.rem c.modu) c.modu c.v (o + c.offr) c.subr) := by
  obtain ⟨hmax,hl,hr,hok,-⟩ := h.node_parts
  rw [add_comm o c.max] at hr
  have hok' := hok.clip (m + 1) (c.max + o)
  have hal : isIsotropic c.v = true ∨ 0 ≤ realign o (m + 1) c.rem c.modu ∧ realign o (m + 1) c.rem c.modu < c.modu :=
    .inr ⟨hok'.1,hok'.2.1⟩
  obtain ⟨o',t',g1,g2,-⟩ := addNode_left hr (show m + 1 ≤ c.max + o by omega) hal
  refine ⟨g1 ▸ g2,?_⟩
  intro b v hb hv
  apply hasVal_addNode_left hr (by omega) hal rfl
  by_cases hbo : b ≤ c.max + o
  · exact .inr ⟨by omega,hbo,(hasVal_root h.1 (by omega) hbo).mp hv⟩
  · exact .inl ((hasVal_subr h.1 (by omega)).mp hv)

variable {o1 o2 : ℤ} {c1 c2 : Cell V}

theorem mergeLeft_spec (h1 : Canon lo hi o1 c1.node) (h2 : Canon lo hi o2 c2.node) (ho1 : o1 ≤ c2.max + o2)
    (ho2 : o2 ≤ c1.max + o1) : ∃ l1 l2 r1 r2, mergeLeft o1 c1 o2 c2 = (l1,l2,max o1 o2,r1,r2) ∧
      LeftPart lo (max o1 o2) o1 c1.node l1 ∧ LeftPart lo (max o1 o2) o2 c2.node l2 ∧
      (0 ≤ r1 ∧ r1 < c1.modu) ∧ (0 ≤ r2 ∧ r2 < c2.modu) := by
  obtain ⟨-,-,-,hok1,-⟩ := h1.node_parts
  obtain ⟨-,-,-,hok2,-⟩ := h2.node_parts
  have hr1 := (hok1.clip o2 o2)
  have hr2 := (hok2.clip o1 o1)
  rw [mergeLeft]
  dsimp only
  split
  · rename_i he
    subst he
    rw [max_self]
    exact ⟨_,_,_,_,rfl,leftPart_subl h1,leftPart_subl h2,⟨hok1.1,hok1.2.1⟩,⟨hok2.1,hok2.2.1⟩⟩
  split
  · rename_i hne hlt
    rw [max_eq_right hlt.le]
    exact ⟨_,_,_,_,rfl,leftPart_addNode h1 hlt (by omega),leftPart_subl h2,⟨hr1.1,hr1.2.1⟩,
      ⟨hok2.1,hok2.2.1⟩⟩
  · rename_i hne hlt
    rw [max_eq_left (by omega)]
    exact ⟨_,_,_,_,rfl,leftPart_subl h1,leftPart_addNode h2 (by omega) (by omega),⟨hok1.1,hok1.2.1⟩,
      ⟨hr2.1,hr2.2.1⟩⟩

theorem mergeRight_spec (h1 : Canon lo hi o1 c1.node) (h2 : Canon lo hi o2 c2.node) (ho1 : o1 ≤ c2.max + o2)
    (ho2 : o2 ≤ c1.max + o1) : ∃ r1 r2, mergeRight o1 c1 o2 c2 = (r1,r2,min (c1.max + o1) (c2.max + o2)) ∧
      RightPart (min (c1.max + o1) (c2.max + o2)) hi o1 c1.node r1 ∧
      RightPart (min (c1.max + o1) (c2.max + o2)) hi o2 c2.node r2 := by
  rw [mergeRight]
  dsimp only
  split
  · rename_i he
    rw [← he,min_self]
    exact ⟨_,_,rfl,rightPart_subr h1,he ▸ rightPart_subr h2⟩
  split
  · rename_i hne hlt
    rw [min_eq_left hlt.le]
    exact ⟨_,_,rfl,rightPart_subr h1,rightPart_addNode h2 ho2 hlt⟩
  · rename_i hne hlt
    rw [min_eq_right (by omega)]
    exact ⟨_,_,rfl,rightPart_addNode h1 ho1 (by omega),rightPart_subr h2⟩

end Parts

/-- `r` spans the same range as both trees and relates their values at every bit. -/
def Merged (Q : V → V → V → Prop) (lo hi : ℤ) (t1 t2 r : ℤ × Offsetmap V) : Prop :=
  Canon lo hi r.1 r.2 ∧ ∀ b v1 v2, HasVal (segs t1.1 t1.2) b v1 → HasVal (segs t2.1 t2.2) b v2 →
    ∃ v, HasVal (segs r.1 r.2) b v ∧ Q v1 v2 v

def FAux.Sound (Q : V → V → V → Prop) (fAux : FAux V) : Prop :=
  ∀ absMin absMax rem1 modu1 v1 rem2 modu2 v2, absMin ≤ absMax → 0 ≤ rem1 ∧ rem1 < modu1 →
    0 ≤ rem2 ∧ rem2 < modu2 → ∃ r m v, fAux absMin absMax rem1 modu1 v1 rem2 modu2 v2 = some (r,m,v) ∧
      (isIsotropic v = true ∨ 0 ≤ r ∧ r < m) ∧ Q v1 v2 v

def StopSound (Q : V → V → V → Prop)
    (stop : ℤ × Offsetmap V → ℤ × Offsetmap V → Option (ℤ × Offsetmap V)) : Prop :=
  ∀ lo hi t1 t2 r, Canon lo hi t1.1 t1.2 → Canon lo hi t2.1 t2.2 → stop t1 t2 = some r → Merged Q lo hi t1 t2 r

section Runs
variable {Q : V → V → V → Prop} {fAux : FAux V} {lo hi : ℤ}

theorem merge_spec {cache : ℤ × Offsetmap V → ℤ × Offsetmap V → Option (ℤ × Offsetmap V)} (hf : fAux.Sound Q)
    (hcache : ∀ lo' hi' t1 t2, hi' - lo' < hi - lo → Canon lo' hi' t1.1 t1.2 → Canon lo' hi' t2.1 t2.2 →
      ∃ r, cache t1 t2 = some r ∧ Merged Q lo' hi' t1 t2 r) {t1 t2 : ℤ × Offsetmap V}
    (h1 : Canon lo hi t1.1 t1.2) (h2 : Canon lo hi t2.1 t2.2) :
    ∃ r, merge cache fAux t1 t2 = some r ∧ Merged Q lo hi t1 t2 r := by
  obtain ⟨o1,t1⟩ := t1
  obtain ⟨o2,t2⟩ := t2
  cases t1 with
  | empty =>
    obtain ⟨e1,e2⟩ := h1.1
    obtain rfl := (h2.1.empty_iff).mpr e2
    exact ⟨_,rfl,h1,fun b v1 v2 hv => absurd hv hasVal_nil⟩
  | node max1 offl1 subl1 offr1 subr1 rem1 modu1 v1 =>
    cases t2 with
    | empty =>
      have := h1.1.root_le
      have := h2.1.2
      omega
    | node max2 offl2 subl2 offr2 subr2 rem2 modu2 v2 =>
      have hroot1 := h1.1.root_le
      have hroot2 := h2.1.root_le
      obtain ⟨-,-,-,-,p,hp,hp1,hp2⟩ := h1.node_parts
      obtain ⟨-,-,-,-,q,hq,hq1,hq2⟩ := h2.node_parts
      obtain rfl := hp.unique hq
      obtain ⟨c1,hc1⟩ : ∃ c1 : Cell V, c1 = ⟨max1,offl1,subl1,offr1,subr1,rem1,modu1,v1⟩ := ⟨_,rfl⟩
      obtain ⟨c2,hc2⟩ : ∃ c2 : Cell V, c2 = ⟨max2,offl2,subl2,offr2,subr2,rem2,modu2,v2⟩ := ⟨_,rfl⟩
      have hn1 : Canon lo hi o1 c1.node := by rwa [hc1]
      have hn2 : Canon lo hi o2 c2.node := by rwa [hc2]
      have hm1 : c1.max = max1 := by rw [hc1]
      have hm2 : c2.max = max2 := by rw [hc2]
      obtain ⟨l1,l2,mr1,mr2,a1,a2,a3,a4,a5⟩ := mergeLeft_spec hn1 hn2 (by omega) (by omega)
      obtain ⟨r1,r2,b1,b2,b3⟩ := mergeRight_spec hn1 hn2 (by omega) (by omega)
      obtain ⟨lm,f1,f2,f3⟩ := hcache lo (max o1 o2 - 1) l1 l2 (by omega) a2.1 a3.1
      obtain ⟨rm,g1,g2,g3⟩ := hcache (min (c1.max + o1) (c2.max + o2) + 1) hi r1 r2 (by omega) b2.1 b3.1
      obtain ⟨rem,modu,v,k1,k2,k3⟩ := hf (max o1 o2) (min (c1.max + o1) (c2.max + o2)) mr1 c1.modu c1.v mr2 c2.modu
        c2.v (by omega) a4 a5
      obtain ⟨o3,t3,u1,u2,u3⟩ := addNode_right (v := v) f2
        (show max o1 o2 ≤ min (c1.max + o1) (c2.max + o2) by omega) k2
      obtain ⟨o4,t4,w1,w2,w3⟩ := union_spec u2 g2
      refine ⟨(o4,t4),?_,w2,?_⟩
      · subst hc1
        subst hc2
        rw [merge]
        simp only [a1,b1,f1,g1,k1,u1,w1,Option.bind_eq_bind,Option.bind_some]
      · intro b x1 x2 hx1 hx2
        have hx1 : HasVal (segs o1 c1.node) b x1 := by rwa [hc1]
        have hx2 : HasVal (segs o2 c2.node) b x2 := by rwa [hc2]
        by_cases hb1 : b < max o1 o2
        · obtain ⟨w,hw,hq⟩ := f3 b x1 x2 (a2.2 b x1 hb1 hx1) (a3.2 b x2 hb1 hx2)
          exact ⟨w,hasVal_union u2 g2 w1 (.inl (hasVal_addNode_right f2 (by omega) k2 u1 (.inl hw))),hq⟩
        by_cases hb2 : min (c1.max + o1) (c2.max + o2) < b
        · obtain ⟨w,hw,hq⟩ := g3 b x1 x2 (b2.2 b x1 hb2 hx1) (b3.2 b x2 hb2 hx2)
          exact ⟨w,hasVal_union u2 g2 w1 (.inr hw),hq⟩
        · obtain rfl := (hasVal_root hn1.1 (by omega) (by omega)).mp hx1
          obtain rfl := (hasVal_root hn2.1 (by omega) (by omega)).mp hx2
          have hmid := hasVal_addNode_right (b := b) f2 (by omega) k2 u1 (.inr ⟨by omega,by omega,rfl⟩)
          exact ⟨v,hasVal_union u2 g2 w1 (.inl hmid),k3⟩

theorem mergeRec_spec {stop : ℤ × Offsetmap V → ℤ × Offsetmap V → Option (ℤ × Offsetmap V)} (hf : fAux.Sound Q)
    (hstop : StopSound Q stop) {fuel : ℕ} (hfuel : hi - lo + 1 < fuel) {t1 t2 : ℤ × Offsetmap V}
    (h1 : Canon lo hi t1.1 t1.2) (h2 : Canon lo hi t2.1 t2.2) :
    ∃ r, mergeRec stop fAux fuel t1 t2 = some r ∧ Merged Q lo hi t1 t2 r := by
  induction fuel generalizing lo hi t1 t2 with
  | zero =>
    have := h1.1.le
    omega
  | succ fuel ih =>
    rw [mergeRec]
    cases hs : stop t1 t2 with
    | some r => exact ⟨r,rfl,hstop lo hi t1 t2 r h1 h2 hs⟩
    | none =>
      apply merge_spec hf ?_ h1 h2
      intro lo' hi' s1 s2 hlt hs1 hs2
      exact ih (by push_cast at hfuel; omega) hs1 hs2

theorem mergeFrom_spec {stop : ℤ × Offsetmap V → ℤ × Offsetmap V → Option (ℤ × Offsetmap V)} (hf : fAux.Sound Q)
    (hstop : StopSound Q stop) {t1 t2 : ℤ × Offsetmap V} (h1 : Canon lo hi t1.1 t1.2) (h2 : Canon lo hi t2.1 t2.2) :
    ∃ r, mergeFrom stop fAux t1 t2 = some r ∧ Merged Q lo hi t1 t2 r := by
  rw [mergeFrom,h1.1.bounds]
  exact mergeRec_spec hf hstop (by push_cast; omega) h1 h2

end Runs

end Functional

section Values
variable [OffsetmapLattice V]

/-- Rereads a value on `[absMin..absMax]`; the source passes `abs_max` as the length of the node. -/
def reinterpretBits (littleEndian : Bool) (absMin absMax : ℤ) (vv : ℤ × ℤ × V) : Option V :=
  extractBitsAndStitch ⟨littleEndian,.merge,false⟩ absMin (length absMin absMax) absMin vv absMax mergeNeutralElement

def fAuxMergeGeneric (littleEndian : Bool) (mergeV : ℤ → V → V → V) : FAux V :=
  fun absMin absMax rem1 modu1 v1 rem2 modu2 v2 =>
    if rem1 = rem2 ∧ modu1 = modu2 then some (rem1,modu1,anisotropicCast modu1 (mergeV modu1 v1 v2))
    else
      let size := length absMin absMax
      let v1Fit := decide (modu1 = size) && decide (rem1 = 0)
      let v2Fit := decide (modu2 = size) && decide (rem2 = 0)
      if (isIsotropic v1 || v1Fit) && (isIsotropic v2 || v2Fit) then some (0,size,mergeV size v1 v2)
      else do
        let v1' ← reinterpretBits littleEndian absMin absMax (rem1,modu1,v1)
        let v2' ← reinterpretBits littleEndian absMin absMax (rem2,modu2,v2)
        some (0,size,mergeV size v1' v2')

def fAuxMergeNarrow (littleEndian : Bool) (mergeV : ℤ → V → V → V) : FAux V :=
  fun absMin absMax rem1 modu1 v1 rem2 modu2 v2 => do
    let size := length absMin absMax
    let v1' ← reinterpretBits littleEndian absMin absMax (rem1,modu1,v1)
    let v2' ← reinterpretBits littleEndian absMin absMax (rem2,modu2,v2)
    some (0,size,mergeV size v1' v2')

def fAuxMergeJoin (littleEndian : Bool) (mergeV : ℤ → V → V → V) : FAux V :=
  fun absMin absMax rem1 modu1 v1 rem2 modu2 v2 =>
    let joined size v1 v2 := anisotropicCast size (mergeV size v1 v2)
    if isIsotropic v2 then some (rem1,modu1,joined modu1 v1 v2)
    else if isIsotropic v1 then some (rem2,modu2,joined modu2 v1 v2)
    else fAuxMergeGeneric littleEndian mergeV absMin absMax rem1 modu1 v1 rem2 modu2 v2

/-- The function that `map2_on_values` merges with. -/
def fAuxMap2 (f : V → V → V) : FAux V := fun _ _ _ _ v1 _ _ v2 => some (0,1,f v1 v2)

section Sound
variable (littleEndian : Bool) (mergeV : ℤ → V → V → V)

theorem reinterpretBits_some (absMin absMax : ℤ) {rem modu : ℤ} (h : 0 ≤ rem ∧ rem < modu) (v : V) :
    ∃ w, reinterpretBits littleEndian absMin absMax (rem,modu,v) = some w :=
  extractBitsAndStitch_some (.inr (by omega)) _ _ _

theorem fAuxMergeNarrow_sound : FAux.Sound (fun _ _ _ => True) (fAuxMergeNarrow littleEndian mergeV) := by
  intro absMin absMax rem1 modu1 v1 rem2 modu2 v2 hle h1 h2
  obtain ⟨w1,e1⟩ := reinterpretBits_some littleEndian absMin absMax h1 v1
  obtain ⟨w2,e2⟩ := reinterpretBits_some littleEndian absMin absMax h2 v2
  refine ⟨0,length absMin absMax,mergeV (length absMin absMax) w1 w2,?_,.inr ⟨le_rfl,?_⟩,trivial⟩
  · simp only [fAuxMergeNarrow,e1,e2,Option.bind_eq_bind,Option.bind_some]
  · unfold length
    omega

theorem fAuxMergeGeneric_sound : FAux.Sound (fun _ _ _ => True) (fAuxMergeGeneric littleEndian mergeV) := by
  intro absMin absMax rem1 modu1 v1 rem2 modu2 v2 hle h1 h2
  have hpos : 0 < length absMin absMax := by
    unfold length
    omega
  unfold fAuxMergeGeneric
  dsimp only
  split
  · exact ⟨_,_,_,rfl,.inr h1,trivial⟩
  split
  · exact ⟨_,_,_,rfl,.inr ⟨le_rfl,hpos⟩,trivial⟩
  · exact fAuxMergeNarrow_sound littleEndian mergeV absMin absMax rem1 modu1 v1 rem2 modu2 v2 hle h1 h2

theorem fAuxMergeJoin_sound : FAux.Sound (fun _ _ _ => True) (fAuxMergeJoin littleEndian mergeV) := by
  intro absMin absMax rem1 modu1 v1 rem2 modu2 v2 hle h1 h2
  unfold fAuxMergeJoin
  dsimp only
  split
  · exact ⟨_,_,_,rfl,.inr h1,trivial⟩
  split
  · exact ⟨_,_,_,rfl,.inr h2,trivial⟩
  · exact fAuxMergeGeneric_sound littleEndian mergeV absMin absMax rem1 modu1 v1 rem2 modu2 v2 hle h1 h2

theorem fAuxMap2_sound (f : V → V → V) : FAux.Sound (fun v1 v2 v => v = f v1 v2) (fAuxMap2 f) := by
  intro absMin absMax rem1 modu1 v1 rem2 modu2 v2 hle h1 h2
  exact ⟨0,1,f v1 v2,rfl,.inr ⟨le_rfl,one_pos⟩,rfl⟩

end Sound

end Values

section Operations
variable [DecidableEq V] [OffsetmapLattice V]

/-- `Cacheable.equal t1 t2`. -/
def stopEqual (t1 t2 : ℤ × Offsetmap V) : Option (ℤ × Offsetmap V) := if t1 = t2 then some t1 else none

def isTop (top : V) : Offsetmap V → Bool
  | .node _ _ .empty _ .empty _ _ v => decide (v = top)
  | _ => false

def stopTop (top : V) (t1 t2 : ℤ × Offsetmap V) : Option (ℤ × Offsetmap V) :=
  if decide (t1 = t2) || isTop top t2.2 then some t1 else if isTop top t1.2 then some t2 else none

inductive Map2Decide (V : Type)
  | returnLeft
  | returnRight
  | returnConstant (v : V)
  | recurse
  deriving DecidableEq, Repr

def stopMap2 (decide : Offsetmap V → Offsetmap V → Map2Decide V) (t1 t2 : ℤ × Offsetmap V) :
    Option (ℤ × Offsetmap V) :=
  match decide t1.2 t2.2 with
  | .recurse => none
  | .returnLeft => some t1
  | .returnRight => some t2
  | .returnConstant v =>
    if t1.2 = .empty then some t1
    else
      let (ib1,ie1) := boundsOffset t1.1 t1.2
      some (ib1,intervalAux (ie1 - ib1) 0 1 v)

/-- The merges of the module, with the functions on values that they are given. -/
inductive Merging (V : Type)
  | join
  | narrow (top : V) (narrowV : V → V → V)
  | narrowReinterpret (top : V) (narrowV : V → V → V)
  | widen (widenV : ℤ → V → V → V)
  | map2 (decide : Offsetmap V → Offsetmap V → Map2Decide V) (f : V → V → V)

def Merging.stop : Merging V → ℤ × Offsetmap V → ℤ × Offsetmap V → Option (ℤ × Offsetmap V)
  | .join => stopEqual
  | .narrow top _ => stopTop top
  | .narrowReinterpret top _ => stopTop top
  | .widen _ => stopEqual
  | .map2 decide _ => stopMap2 decide

def Merging.fAux (littleEndian : Bool) : Merging V → FAux V
  | .join => fAuxMergeJoin littleEndian fun _ v1 v2 => OffsetmapLattice.join v1 v2
  | .narrow _ narrowV => fAuxMergeGeneric littleEndian fun _ v1 v2 => narrowV v1 v2
  | .narrowReinterpret _ narrowV => fAuxMergeNarrow littleEndian fun _ v1 v2 => narrowV v1 v2
  | .widen widenV => fAuxMergeJoin littleEndian fun size v1 v2 =>
    let v2 := if !isIncluded v1 v2 then OffsetmapLattice.join v1 v2 else v2
    widenV size v1 v2
  | .map2 _ f => fAuxMap2 f

def Merging.run (littleEndian : Bool) (op : Merging V) (t1 t2 : ℤ × Offsetmap V) : Option (ℤ × Offsetmap V) :=
  mergeFrom op.stop (op.fAux littleEndian) t1 t2

def join (littleEndian : Bool) (t1 t2 : Offsetmap V) : Option (Offsetmap V) :=
  Prod.snd <$> Merging.join.run littleEndian (0,t1) (0,t2)

def narrow (littleEndian : Bool) (top : V) (narrowV : V → V → V) (t1 t2 : Offsetmap V) : Option (Offsetmap V) :=
  Prod.snd <$> (Merging.narrow top narrowV).run littleEndian (0,t1) (0,t2)

def narrowReinterpret (littleEndian : Bool) (top : V) (narrowV : V → V → V) (t1 t2 : Offsetmap V) :
    Option (Offsetmap V) := Prod.snd <$> (Merging.narrowReinterpret top narrowV).run littleEndian (0,t1) (0,t2)

def widen (littleEndian : Bool) (widenV : ℤ → V → V → V) (t1 t2 : Offsetmap V) : Option (Offsetmap V) :=
  Prod.snd <$> (Merging.widen widenV).run littleEndian (0,t1) (0,t2)

def map2OnValuesOffset (decide : Offsetmap V → Offsetmap V → Map2Decide V) (f : V → V → V)
    (t1 t2 : ℤ × Offsetmap V) : Option (ℤ × Offsetmap V) := mergeFrom (stopMap2 decide) (fAuxMap2 f) t1 t2

def map2OnValues (decide : Offsetmap V → Offsetmap V → Map2Decide V) (f : V → V → V) (t1 t2 : Offsetmap V) :
    Option (Offsetmap V) := Prod.snd <$> map2OnValuesOffset decide f (0,t1) (0,t2)

def mapOnValuesAux (f : V → V) (currOff : ℤ) : Offsetmap V → ℤ × Offsetmap V
  | .empty => (currOff,.empty)
  | .node max offl subl offr subr rem modu v =>
    let v' := f v
    let (offl',l') := mapOnValuesAux f (currOff + offl) subl
    let (offr',r') := mapOnValuesAux f (currOff + offr) subr
    if l' = subl ∧ r' = subr ∧ v = v' then (currOff,.node max offl subl offr subr rem modu v)
    else makeNode currOff max (offl' - currOff) l' (offr' - currOff) r' rem modu v'

def mapOnValues (f : V → V) (t : Offsetmap V) : Offsetmap V := (mapOnValuesAux f 0 t).2

section Results
variable {lo hi : ℤ}

theorem merged_of_canon {t1 t2 r : ℤ × Offsetmap V} (h : Canon lo hi r.1 r.2) (h1 : Canon lo hi t1.1 t1.2) :
    Merged (fun _ _ _ => True) lo hi t1 t2 r := by
  refine ⟨h,?_⟩
  intro b v1 v2 hv _
  obtain ⟨hb1,hb2⟩ := hv.mem h1.1.tiles
  obtain ⟨v,hv⟩ := h.1.tiles.exists_hasVal hb1 hb2
  exact ⟨v,hv,trivial⟩

theorem canon_constant {t : ℤ × Offsetmap V} (h : Canon lo hi t.1 t.2) (hne : t.2 ≠ .empty) (v : V) :
    boundsOffset t.1 t.2 = (lo,hi) ∧ lo ≤ hi ∧ Canon lo hi lo (intervalAux (hi - lo) 0 1 v) := by
  have hle : lo ≤ hi := by
    have := h.1.le
    by_contra hlt
    exact hne (h.1.empty_of_lt (by omega))
  exact ⟨h.1.bounds,hle,(intervalAux_spec hle (.inr ⟨le_rfl,one_pos⟩)).1⟩

theorem Merging.stop_sound (op : Merging V) : StopSound (V := V) (fun _ _ _ => True) op.stop := by
  intro lo hi t1 t2 r h1 h2 hs
  refine merged_of_canon ?_ h1
  have hequal : stopEqual t1 t2 = some r → Canon lo hi r.1 r.2 := by
    intro hs
    unfold stopEqual at hs
    split at hs
    · exact Option.some.inj hs ▸ h1
    · exact absurd hs (by simp)
  have htop : ∀ top, stopTop top t1 t2 = some r → Canon lo hi r.1 r.2 := by
    intro top hs
    unfold stopTop at hs
    split at hs
    · exact Option.some.inj hs ▸ h1
    split at hs
    · exact Option.some.inj hs ▸ h2
    · exact absurd hs (by simp)
  cases op with
  | join => exact hequal hs
  | narrow top narrowV => exact htop top hs
  | narrowReinterpret top narrowV => exact htop top hs
  | widen widenV => exact hequal hs
  | map2 dec f =>
    have hs : stopMap2 dec t1 t2 = some r := hs
    unfold stopMap2 at hs
    split at hs
    · exact absurd hs (by simp)
    · exact Option.some.inj hs ▸ h1
    · exact Option.some.inj hs ▸ h2
    · split at hs
      · exact Option.some.inj hs ▸ h1
      · rename_i v _ hne
        obtain ⟨hb,-,hc⟩ := canon_constant h1 hne v
        rw [hb] at hs
        exact Option.some.inj hs ▸ hc

omit [DecidableEq V] in
theorem Merging.fAux_sound (littleEndian : Bool) (op : Merging V) :
    (op.fAux littleEndian).Sound (fun _ _ _ => True) := by
  cases op with
  | join => exact fAuxMergeJoin_sound littleEndian _
  | narrow top narrowV => exact fAuxMergeGeneric_sound littleEndian _
  | narrowReinterpret top narrowV => exact fAuxMergeNarrow_sound littleEndian fun _ => narrowV
  | widen widenV => exact fAuxMergeJoin_sound littleEndian _
  | map2 dec f =>
    intro absMin absMax rem1 modu1 v1 rem2 modu2 v2 hle h1 h2
    exact ⟨0,1,f v1 v2,rfl,.inr ⟨le_rfl,one_pos⟩,trivial⟩

theorem Merging.run_spec (littleEndian : Bool) (op : Merging V) {t1 t2 : ℤ × Offsetmap V}
    (h1 : Canon lo hi t1.1 t1.2) (h2 : Canon lo hi t2.1 t2.2) :
    ∃ r, op.run littleEndian t1 t2 = some r ∧ Canon lo hi r.1 r.2 := by
  obtain ⟨r,hr,hm⟩ := mergeFrom_spec (op.fAux_sound littleEndian) op.stop_sound h1 h2
  exact ⟨r,hr,hm.1⟩

def mapSeg (f : V → V) (s : Seg V) : Seg V := newSeg s.lo s.hi s.rem s.modu (f s.v)

omit [DecidableEq V] in
theorem mapSeg_ok (f : V → V) {s : Seg V} (h : s.Ok) : (mapSeg f s).Ok := newSeg_ok (.inr ⟨h.1,h.2.1⟩)

theorem mapOnValuesAux_spec (f : V → V) {o : ℤ} {t : Offsetmap V} (h : Canon lo hi o t) :
    ∃ o' t', mapOnValuesAux f o t = (o',t') ∧ Canon lo hi o' t' ∧
      segs o' t' = glueList ((segs o t).map (mapSeg f)) := by
  induction t generalizing lo hi o with
  | empty => exact ⟨o,.empty,rfl,h,rfl⟩
  | node max offl subl offr subr rem modu v ihl ihr =>
    obtain ⟨hmax,hl,hr,hok,p,hp,hp1,hp2⟩ := h.node_parts
    obtain ⟨ol,l',f1,f2,f3⟩ := ihl hl
    obtain ⟨or,r',g1,g2,g3⟩ := ihr hr
    have hmap : ∀ l : List (Seg V), (∀ s ∈ l, s.Ok) → ∀ s ∈ l.map (mapSeg f), s.Ok := by
      intro l hl s hs
      obtain ⟨u,hu,rfl⟩ := List.mem_map.mp hs
      exact mapSeg_ok f (hl u hu)
    -- the mapped subtrees may be glued beforehand
    have hglue : glueList ((segs o (.node max offl subl offr subr rem modu v)).map (mapSeg f)) =
        glueList (segs ol l' ++ newSeg o (o + max) rem modu (f v) :: segs or r') := by
      have hroot : (newSeg o (o + max) rem modu (f v)).Ok := mapSeg_ok f hok
      have hright : ∀ s ∈ newSeg o (o + max) rem modu (f v) :: (segs (o + offr) subr).map (mapSeg f), s.Ok :=
        List.forall_mem_cons.mpr ⟨hroot,hmap _ hr.2.1⟩
      rw [f3,g3,List.append_cons,glueList_append_right (hmap _ hr.2.1),List.append_assoc,List.singleton_append,
        glueList_append_left (hmap _ hl.2.1) hright,segs,List.map_append,List.map_cons]
      rfl
    rw [mapOnValuesAux]
    simp only [f1,g1]
    split
    · rename_i he
      obtain ⟨rfl,rfl,hv⟩ := he
      refine ⟨o,_,rfl,h,?_⟩
      rw [hglue,f2.1.root_unique hl.1,g2.1.root_unique hr.1,← hv,newSeg_eq hok,← segs,h.2.glueList_eq]
    · obtain ⟨o',t',k1,k2,k3⟩ := makeNode_spec (v := f v) (by rwa [add_sub_cancel] : Canon lo (o - 1) (o + (ol - o)) l')
        (by rwa [add_sub_cancel] : Canon (o + max + 1) hi (o + (or - o)) r') hp hp1 hp2 (.inr ⟨hok.1,hok.2.1⟩)
      rw [add_sub_cancel,add_sub_cancel,← hglue] at k3
      exact ⟨o',t',k1,k2,k3⟩

end Results

end Operations

end FramaC.Offsetmap
