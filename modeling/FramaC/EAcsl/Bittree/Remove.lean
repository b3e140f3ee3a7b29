import FramaC.EAcsl.Bittree.Insert

/-! # Removal from the bittree

Removing a block takes the frame above its leaf out of the context: the other child moves to the pointer of the frame's
node. The mask recomputed above that node keeps the value it has.
-/
namespace FramaC.EAcsl.Bittree

open Shape CommonPrefix

namespace Shape

def reloc (q : ℕ) : Shape → Shape
  | leaf _ b => leaf q b
  | node _ a d l r => node q a d l r

@[simp] theorem reloc_loc (q : ℕ) (t : Shape) : (t.reloc q).loc = q := by
  cases t with
  | leaf p b => rfl
  | node p a d l r => rfl

@[simp] theorem reloc_addr (q : ℕ) (t : Shape) : (t.reloc q).addr = t.addr := by
  cases t with
  | leaf p b => rfl
  | node p a d l r => rfl

@[simp] theorem reloc_level (q : ℕ) (t : Shape) : (t.reloc q).level = t.level := by
  cases t with
  | leaf p b => rfl
  | node p a d l r => rfl

@[simp] theorem reloc_blocks (q : ℕ) (t : Shape) : (t.reloc q).blocks = t.blocks := by
  cases t with
  | leaf p b => rfl
  | node p a d l r => rfl

theorem Wf.reloc {t : Shape} (ht : t.Wf) (q : ℕ) : (t.reloc q).Wf := by
  cases t with
  | leaf p b => exact ht
  | node p a d l r => exact ht

theorem reloc_locs (q : ℕ) (t : Shape) : (t.reloc q).locs = q :: t.locs.tail := by
  cases t with
  | leaf p b => rfl
  | node p a d l r => rfl

theorem locs_eq (t : Shape) : t.locs = t.loc :: t.locs.tail := by
  cases t with
  | leaf p b => rfl
  | node p a d l r => rfl

end Shape

/-- The sibling's fields are in the parent and its children have their new parent. -/
def absorbHeap (h : ℕ → Option Node) (pp : ℕ) (par : Option ℕ) (sibling : Node) : ℕ → Option Node :=
  if sibling.isLeaf then setNode h pp { sibling with parent := par }
  else setField (setField (setNode h pp { sibling with parent := par }) sibling.left fun n => { n with parent := some pp })
    sibling.right fun n => { n with parent := some pp }

theorem toNode_with_parent (par par' : Option ℕ) (t : Shape) : { t.toNode par with parent := par' } = t.toNode par' := by
  cases t with
  | leaf p b => rfl
  | node p a d l r => rfl

section absorb

variable {h : ℕ → Option Node} {s : Shape} {pp : ℕ} (hrep : s.Rep h (some pp)) (hnd : s.locs.Nodup) (hpp : pp ∉ s.locs)
  (par : Option ℕ)

include hrep hnd hpp in
theorem absorbHeap_spec : (s.reloc pp).Rep (absorbHeap h pp par (s.toNode (some pp))) par ∧
    ∀ q, q ≠ pp → q ∉ s.locs → absorbHeap h pp par (s.toNode (some pp)) q = h q := by
  cases s with
  | leaf p b =>
    constructor
    · intro c hc
      rw [List.mem_singleton.1 hc]
      exact setNode_self ..
    · intro q hq _
      exact setNode_of_ne _ hq
  | node p a d l r =>
    obtain ⟨hself,hl,hr⟩ := rep_node.1 hrep
    obtain ⟨hp,hlr⟩ := List.nodup_cons.1 hnd
    obtain ⟨hndl,hndr,hdisj⟩ := List.nodup_append.1 hlr
    have hne : ∀ q, q ∈ l.locs ++ r.locs → q ≠ pp := fun q hq heq => hpp (heq ▸ List.mem_cons_of_mem _ hq)
    have hlpp : l.loc ≠ pp := hne _ (List.mem_append_left _ (loc_mem_locs l))
    have hrpp : r.loc ≠ pp := hne _ (List.mem_append_right _ (loc_mem_locs r))
    have hlrne : l.loc ≠ r.loc := hdisj _ (loc_mem_locs l) _ (loc_mem_locs r)
    have hheap : absorbHeap h pp par ((node p a d l r).toNode (some pp)) =
        setNode (setNode (setNode h pp ((node p a d l r).toNode par)) l.loc (l.toNode (some pp))) r.loc
          (r.toNode (some pp)) := by
      unfold absorbHeap
      rw [if_neg (by simp [toNode_node]),toNode_with_parent]
      have hl1 : setNode h pp ((node p a d l r).toNode par) l.loc = some (l.toNode (some p)) := by
        rw [setNode_of_ne _ hlpp]
        exact hl.self
      simp only [toNode_node (some pp)]
      rw [setField_eq_setNode hl1,toNode_with_parent]
      have hr1 : setNode (setNode h pp ((node p a d l r).toNode par)) l.loc (l.toNode (some pp)) r.loc =
          some (r.toNode (some p)) := by
        rw [setNode_of_ne _ hlrne.symm,setNode_of_ne _ hrpp]
        exact hr.self
      rw [setField_eq_setNode hr1,toNode_with_parent]
    rw [hheap]
    have hkeep : ∀ q, q ≠ pp → q ≠ l.loc → q ≠ r.loc →
        setNode (setNode (setNode h pp ((node p a d l r).toNode par)) l.loc (l.toNode (some pp))) r.loc
          (r.toNode (some pp)) q = h q := by
      intro q hqp hql hqr
      rw [setNode_of_ne _ hqr,setNode_of_ne _ hql,setNode_of_ne _ hqp]
    constructor
    · apply rep_node.2
      refine ⟨?_,?_,?_⟩
      · rw [setNode_of_ne _ hrpp.symm,setNode_of_ne _ hlpp.symm,setNode_self]
        rfl
      · intro c hc
        obtain rfl | hc := List.mem_cons.1 hc
        · exact (setNode_of_ne _ hlrne).trans (setNode_self ..)
        · have hmem : c.1 ∈ l.locs := cell_loc_mem (List.mem_cons_of_mem (l.loc,l.toNode none) hc)
          rw [hkeep c.1 (hne _ (List.mem_append_left _ hmem)) (rest_loc_ne hndl hc)
            (hdisj _ hmem _ (loc_mem_locs r))]
          exact hl c (List.mem_cons_of_mem _ hc)
      · intro c hc
        obtain rfl | hc := List.mem_cons.1 hc
        · exact setNode_self ..
        · have hmem : c.1 ∈ r.locs := cell_loc_mem (List.mem_cons_of_mem (r.loc,r.toNode none) hc)
          rw [hkeep c.1 (hne _ (List.mem_append_right _ hmem)) (hdisj _ (loc_mem_locs l) _ hmem).symm
            (rest_loc_ne hndr hc)]
          exact hr c (List.mem_cons_of_mem _ hc)
    · intro q hq hmem
      have hmem' : q ∉ l.locs ++ r.locs := fun h => hmem (List.mem_cons_of_mem _ h)
      rw [List.mem_append,not_or] at hmem'
      exact hkeep q hq (fun h => hmem'.1 (h ▸ loc_mem_locs l)) (fun h => hmem'.2 (h ▸ loc_mem_locs r))

end absorb

theorem Frame.childMask_toNode {h : ℕ → Option Node} {g : Frame} {s : Shape} {po ps : Option ℕ} (hwf : (g.fill s).Wf)
    (ho : h g.other.loc = some (g.other.toNode po)) (hs : h s.loc = some (s.toNode ps)) (par : Option ℕ) :
    childMask h (g.toNode par s.loc) = some (keepFrom (g.d + 1)) := by
  unfold Frame.fill at hwf
  unfold Frame.toNode
  by_cases hr : g.right = true
  · rw [if_pos hr] at hwf ⊢
    exact childMask_eq hwf rfl rfl ho hs
  · rw [if_neg hr] at hwf ⊢
    exact childMask_eq hwf rfl rfl hs ho

theorem Frame.sibling_toNode {f : Frame} {p : ℕ} (hne : f.other.loc ≠ p) (par : Option ℕ) :
    (if (f.toNode par p).left = some p then (f.toNode par p).right else (f.toNode par p).left) = some f.other.loc := by
  unfold Frame.toNode
  cases f.right with
  | true => simp [hne]
  | false => simp

theorem Frame.parent_toNode (f : Frame) (par : Option ℕ) (p : ℕ) : (f.toNode par p).parent = par := by
  unfold Frame.toNode
  split <;> rfl

theorem Frame.mask_toNode (f : Frame) (par : Option ℕ) (p : ℕ) :
    { f.toNode par p with mask := keepFrom (f.d + 1) } = f.toNode par p := by
  unfold Frame.toNode
  split <;> rfl

theorem freeNode_of_ne {h : ℕ → Option Node} {p q : ℕ} (hq : q ≠ p) : freeNode h (some p) q = h q :=
  if_neg fun heq => hq (Option.some.inj heq).symm

theorem setNode_eq_self {h : ℕ → Option Node} {p : ℕ} {n : Node} (hp : h p = some n) : setNode h p n = h := by
  unfold setNode
  rw [← hp]
  exact Function.update_eq_self p h

theorem loc_plug_congr (ctx : List Frame) {s s' : Shape} (heq : s.loc = s'.loc) :
    (plug ctx s).loc = (plug ctx s').loc := by
  cases ctx with
  | nil => exact heq
  | cons f ctx => exact loc_plug_of_ne_nil (List.cons_ne_nil f ctx) s s'

section remove

variable {tr : Tree} {f : Frame} {ctx : List Frame} {p : ℕ} {b : Blk}

def mergeHeap (h : ℕ → Option Node) (f : Frame) (ctx : List Frame) : ℕ → Option Node :=
  freeNode (absorbHeap h f.loc (ctxParent ctx) (f.other.toNode (some f.loc))) (some f.other.loc)

theorem mergeHeap_rep (hrep : (plug (f :: ctx) (leaf p b)).Rep tr.heap none)
    (hnd : (plug (f :: ctx) (leaf p b)).locs.Nodup) :
    (plug ctx (f.other.reloc f.loc)).Rep (mergeHeap tr.heap f ctx) none := by
  obtain ⟨hctxrep,hleaf⟩ := rep_plug_iff.1 hrep
  obtain ⟨hndc,_,_⟩ := List.nodup_append.1 (ctx_nodup hnd)
  obtain ⟨hfl,hoc⟩ := List.nodup_cons.1 hndc
  obtain ⟨hndo,hndx,hdisj⟩ := List.nodup_append.1 hoc
  have hother : f.other.Rep tr.heap (some f.loc) := fun c hc =>
    hctxrep c (List.mem_cons_of_mem _ (List.mem_append_left _ hc))
  have hfo : f.loc ∉ f.other.locs := fun hmem => hfl (List.mem_append_left _ hmem)
  obtain ⟨habs,hkeep⟩ := absorbHeap_spec hother hndo hfo (ctxParent ctx)
  apply rep_plug_iff.2
  constructor
  · intro c hc
    rw [reloc_loc] at hc
    have hmem := ctxCells_loc_mem hc
    have hne : c.1 ≠ f.loc := fun heq => hfl (List.mem_append_right _ (heq ▸ hmem))
    have hno : c.1 ∉ f.other.locs := fun hmem' => hdisj c.1 hmem' c.1 hmem rfl
    have hno' : c.1 ≠ f.other.loc := fun heq => hno (heq ▸ loc_mem_locs f.other)
    rw [mergeHeap,freeNode_of_ne hno',hkeep c.1 hne hno]
    exact hctxrep c (List.mem_cons_of_mem _ (List.mem_append_right _ hc))
  · apply rep_congr habs
    intro q hq
    apply freeNode_of_ne
    rw [reloc_locs,List.mem_cons] at hq
    rw [locs_eq] at hndo hfo
    obtain rfl | hq := hq
    · exact fun heq => hfo (heq ▸ List.mem_cons_self)
    · exact fun heq => (List.nodup_cons.1 hndo).1 (heq ▸ hq)

theorem reloc_fits (hwf : (plug (f :: ctx) (leaf p b)).Wf) :
    Fits ctx (f.fill (leaf p b)) (f.other.reloc f.loc) := by
  intro g hg
  have hfw := wf_of_plug (show (plug ctx (f.fill (leaf p b))).Wf from hwf)
  have hdiv := Frame.other_div hfw
  obtain ⟨ha,hd,hl,hr,hql,hqr,hwl,hwr⟩ := (f.fill_wf_iff _).1 hfw
  cases ctx with
  | nil => cases hg
  | cons g' ctx =>
    cases hg
    have hgw := wf_of_plug (show (plug ctx (g.fill (f.fill (leaf p b)))).Wf from hwf)
    obtain ⟨hga,hgd,hgl,hgr,hgql,hgqr,hgwl,hgwr⟩ := (g.fill_wf_iff _).1 hgw
    rw [Frame.fill_level] at hgr
    rw [reloc_level,reloc_addr,Frame.fill_addr]
    exact ⟨by omega,div_pow_mono hgr hdiv⟩

theorem merge_wf (hwf : (plug (f :: ctx) (leaf p b)).Wf) : (plug ctx (f.other.reloc f.loc)).Wf := by
  have hfw := wf_of_plug (show (plug ctx (f.fill (leaf p b))).Wf from hwf)
  obtain ⟨ha,hd,hl,hr,hql,hqr,hwl,hwr⟩ := (f.fill_wf_iff _).1 hfw
  exact wf_plug_of_fits (show (plug ctx (f.fill (leaf p b))).Wf from hwf) (hwl.reloc f.loc) (reloc_fits hwf)

theorem btRemoveNode_eq (htr : Holds tr (plug (f :: ctx) (leaf p b))) (hget : btGetLeafFromBlock tr b = some p) :
    btRemoveNode b tr = some ⟨tr.root,freeNode (mergeHeap tr.heap f ctx) (some p)⟩ := by
  obtain ⟨hroot,hrep,hnd,hwf⟩ := htr
  obtain ⟨hctxrep,hleaf⟩ := rep_plug_iff.1 hrep
  obtain ⟨hndc,_,hdisj⟩ := List.nodup_append.1 (ctx_nodup hnd)
  have hparent : tr.heap f.loc = some (f.toNode (ctxParent ctx) p) := hctxrep _ List.mem_cons_self
  have hother : tr.heap f.other.loc = some (f.other.toNode (some f.loc)) :=
    hctxrep _ (List.mem_cons_of_mem _ (List.mem_append_left _ List.mem_cons_self))
  have hne : f.other.loc ≠ p := by
    apply hdisj _ _ p List.mem_cons_self
    exact List.mem_cons_of_mem _ (List.mem_append_left _ (loc_mem_locs _))
  have hself : tr.heap p = some (newLeaf b (some f.loc)) := hleaf.self
  have hmerge := mergeHeap_rep hrep hnd
  have hmwf := merge_wf hwf
  unfold btRemoveNode
  rw [hget,Option.bind_some,hself,Option.bind_some]
  simp only [newLeaf,hparent,Option.bind_some,Frame.sibling_toNode hne,deref,hother,absorb,Frame.parent_toNode,
    setField_eq_setNode hparent]
  cases ctx with
  | nil => rfl
  | cons g ctx =>
    obtain ⟨hgrep,horep⟩ := rep_plug_iff.1 hmerge
    have hg : mergeHeap tr.heap f (g :: ctx) g.loc = some (g.toNode (ctxParent ctx) f.loc) := by
      have hcell := hgrep _ List.mem_cons_self
      rw [reloc_loc] at hcell
      exact hcell
    have hgo : mergeHeap tr.heap f (g :: ctx) g.other.loc = some (g.other.toNode (some g.loc)) :=
      hgrep _ (List.mem_cons_of_mem _ (List.mem_append_left _ List.mem_cons_self))
    have hgw := wf_of_plug (show (plug ctx (g.fill (f.other.reloc f.loc))).Wf from hmwf)
    have hcm := Frame.childMask_toNode hgw hgo horep.self (ctxParent ctx)
    rw [reloc_loc] at hcm
    have hset : setField (mergeHeap tr.heap f (g :: ctx)) (some g.loc) (fun n => { n with mask := keepFrom (g.d + 1) }) =
        mergeHeap tr.heap f (g :: ctx) := by
      rw [setField_eq_setNode hg,Frame.mask_toNode,setNode_eq_self hg]
    have hheap : (mergeHeap tr.heap f (g :: ctx) g.loc).bind (fun n =>
        (childMask (mergeHeap tr.heap f (g :: ctx)) n).map fun m =>
          (⟨tr.root,freeNode (setField (mergeHeap tr.heap f (g :: ctx)) (some g.loc) fun n => { n with mask := m })
            (some p)⟩ : Tree)) = some ⟨tr.root,freeNode (mergeHeap tr.heap f (g :: ctx)) (some p)⟩ := by
      rw [hg,Option.bind_some,hcm,Option.map_some,hset]
    exact hheap

end remove

theorem btRemoveNode_holds {tr : Tree} {t : Shape} {b : Blk} (htr : Holds tr t) (hb : b ∈ t.blocks)
    (hdist : ∀ c ∈ t.blocks, c.ptr = b.ptr → c = b) :
    ∃ tr', btRemoveNode b tr = some tr' ∧ ((tr'.root = none ∧ t.blocks = [b]) ∨
      ∃ t', Holds tr' t' ∧ t.blocks.Perm (b :: t'.blocks)) := by
  obtain ⟨ctx,p,rfl,hget⟩ := getLeafLoop_spec [] htr.rep htr.wf hb hdist (Nat.lt_succ_of_le htr.wf.level_le)
  have hget' : btGetLeafFromBlock tr b = some p := by
    rw [btGetLeafFromBlock,htr.root]
    exact hget
  cases ctx with
  | nil =>
    have hself : tr.heap p = some (newLeaf b none) := htr.rep.self
    refine ⟨⟨none,freeNode tr.heap (some p)⟩,?_,Or.inl ⟨rfl,rfl⟩⟩
    unfold btRemoveNode
    rw [hget',Option.bind_some,hself,Option.bind_some]
    rfl
  | cons f ctx =>
    refine ⟨_,btRemoveNode_eq htr hget',Or.inr ⟨plug ctx (f.other.reloc f.loc),?_,?_⟩⟩
    · have hperm : (plug (f :: ctx) (leaf p b)).locs.Perm
          (p :: f.other.loc :: (plug ctx (f.other.reloc f.loc)).locs) := by
        apply (plug_locs _ _).trans
        apply List.Perm.trans _ (((plug_locs ctx (f.other.reloc f.loc)).symm.cons f.other.loc).cons p)
        apply List.perm_iff_count.2
        intro q
        rw [reloc_locs,ctxLocs,locs_eq f.other]
        simp only [locs,List.count_append,List.count_cons,List.count_nil,List.cons_append,List.tail_cons]
        omega
      have hnd := hperm.nodup_iff.1 htr.nodup
      rw [List.nodup_cons,List.nodup_cons,List.mem_cons,not_or] at hnd
      refine ⟨?_,?_,hnd.2.2,merge_wf htr.wf⟩
      · rw [htr.root]
        have hloc : (f.fill (leaf p b)).loc = (f.other.reloc f.loc).loc := by
          rw [Frame.fill_loc,reloc_loc]
        exact congrArg some (loc_plug_congr ctx hloc)
      · apply rep_congr (mergeHeap_rep htr.rep htr.nodup)
        intro q hq
        exact freeNode_of_ne (fun heq => hnd.1.2 (heq ▸ hq))
    · apply (plug_blocks _ _).trans
      apply List.Perm.trans _ ((plug_blocks ctx (f.other.reloc f.loc)).symm.cons b)
      rw [reloc_blocks]
      apply List.perm_append_comm.trans
      apply List.Perm.cons b
      have hcomm : (f.other.blocks ++ ctxBlocks ctx).Perm (ctxBlocks ctx ++ f.other.blocks) := List.perm_append_comm
      exact hcomm

end FramaC.EAcsl.Bittree
