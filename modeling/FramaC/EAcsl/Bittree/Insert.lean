import FramaC.EAcsl.Bittree.Search

/-! # Insertion into the bittree

Inserting a block adds one frame to the context of its sibling: the new inner node, whose other child is the new leaf.
Both recomputed masks keep the value they have.
-/
namespace FramaC.EAcsl.Bittree

open Shape CommonPrefix

/-- The tree holds a well-formed shape. -/
structure Holds (tr : Tree) (t : Shape) : Prop where
  root : tr.root = some t.loc
  rep : t.Rep tr.heap none
  nodup : t.locs.Nodup
  wf : t.Wf

theorem rep_congr {h h' : ℕ → Option Node} {par : Option ℕ} {t : Shape} (ht : t.Rep h par)
    (heq : ∀ q ∈ t.locs, h' q = h q) : t.Rep h' par := by
  intro c hc
  rw [heq c.1 (cell_loc_mem hc)]
  exact ht c hc

theorem Shape.Rep.heap_ne_none {h : ℕ → Option Node} {par : Option ℕ} {t : Shape} (ht : t.Rep h par) {q : ℕ}
    (hq : q ∈ t.locs) : h q ≠ none := by
  induction t generalizing par with
  | leaf p b =>
    rw [List.mem_singleton.1 hq,show h p = _ from ht.self]
    exact Option.some_ne_none _
  | node p a d l r ihl ihr =>
    obtain ⟨hself,hl,hr⟩ := rep_node.1 ht
    obtain rfl | hq := List.mem_cons.1 hq
    · rw [hself]
      exact Option.some_ne_none _
    · exact (List.mem_append.1 hq).elim (ihl hl) (ihr hr)

theorem and_div_of_eq {a b k : ℕ} (h : a / 2 ^ k = b / 2 ^ k) : (a &&& b) / 2 ^ k = a / 2 ^ k := by
  rw [← Nat.shiftRight_eq_div_pow,← Nat.shiftRight_eq_div_pow] at *
  rw [Nat.shiftRight_and_distrib,← h,Nat.and_self]

/-- The frame that insertion puts above the sibling `s`. -/
def insertFrame (b : Blk) (leafPtr parentPtr : ℕ) (s : Shape) : Frame where
  loc := parentPtr
  addr := s.addr &&& b.ptr
  d := agreeLevel (s.toNode none).pre b.ptr - 1
  right := decide (b.ptr ≤ s.addr)
  other := leaf leafPtr b

section insert

variable {s : Shape} {b : Blk} (hs : s.Wf) (hb : b.ptr < 2 ^ wordbits) (hne : s.addr / 2 ^ s.level ≠ b.ptr / 2 ^ s.level)

include hs hne in
theorem level_lt_agreeLevel : s.level < agreeLevel (s.toNode none).pre b.ptr := by
  apply Nat.lt_of_not_le
  rw [hs.agreeLevel_le_iff none (le_refl _)]
  exact hne

include hs hne in
theorem insertFrame_d (leafPtr parentPtr : ℕ) :
    (insertFrame b leafPtr parentPtr s).d + 1 = agreeLevel (s.toNode none).pre b.ptr := by
  have hlt := level_lt_agreeLevel hs hne
  exact Nat.sub_add_cancel (Nat.lt_of_le_of_lt (Nat.zero_le _) hlt)

include hs hb hne in
theorem insertFrame_wf (leafPtr parentPtr : ℕ) : ((insertFrame b leafPtr parentPtr s).fill s).Wf := by
  have hd := insertFrame_d hs hne leafPtr parentPtr
  have hlt := level_lt_agreeLevel hs hne
  have h64 := agreeLevel_le_wordbits (hs.pre_lt none) hb
  have hle : s.level ≤ (insertFrame b leafPtr parentPtr s).d := by omega
  have hagree : s.addr / 2 ^ ((insertFrame b leafPtr parentPtr s).d + 1) =
      b.ptr / 2 ^ ((insertFrame b leafPtr parentPtr s).d + 1) := by
    rw [← hs.agreeLevel_le_iff none (by omega)]
    exact hd.ge
  have hdiff : s.addr / 2 ^ (insertFrame b leafPtr parentPtr s).d ≠
      b.ptr / 2 ^ (insertFrame b leafPtr parentPtr s).d := by
    rw [Ne,← hs.agreeLevel_le_iff none hle]
    omega
  have hand := and_div_of_eq hagree
  have hsd := div_succ s.addr (insertFrame b leafPtr parentPtr s).d
  have hbd := div_succ b.ptr (insertFrame b leafPtr parentPtr s).d
  have horder : b.ptr ≤ s.addr → b.ptr / 2 ^ (insertFrame b leafPtr parentPtr s).d ≤
      s.addr / 2 ^ (insertFrame b leafPtr parentPtr s).d := fun h => Nat.div_le_div_right h
  have horder' : s.addr ≤ b.ptr → s.addr / 2 ^ (insertFrame b leafPtr parentPtr s).d ≤
      b.ptr / 2 ^ (insertFrame b leafPtr parentPtr s).d := fun h => Nat.div_le_div_right h
  have haddr : (insertFrame b leafPtr parentPtr s).addr = s.addr &&& b.ptr := rfl
  have hbit : (insertFrame b leafPtr parentPtr s).bit = if b.ptr ≤ s.addr then 1 else 0 := by
    simp [Frame.bit,insertFrame]
  apply (Frame.fill_wf_iff _ s).2
  refine ⟨?_,by omega,Nat.zero_le _,hle,?_,?_,hb,hs⟩
  · exact Nat.lt_of_le_of_lt Nat.and_le_left hs.addr_lt
  · have hother : (insertFrame b leafPtr parentPtr s).other.addr = b.ptr := rfl
    rw [haddr,hand,hbit,hother]
    split <;> omega
  · rw [haddr,hand,hbit]
    split <;> omega

include hs hne in
theorem insertFrame_fits {ctx : List Frame} (hwf : (plug ctx s).Wf)
    (hctx : ∀ f ∈ ctx.head?, s.addr / 2 ^ f.d = b.ptr / 2 ^ f.d) (leafPtr parentPtr : ℕ) :
    Fits ctx s ((insertFrame b leafPtr parentPtr s).fill s) := by
  intro g hg
  have hd := insertFrame_d hs hne leafPtr parentPtr
  have hgeq := hctx g hg
  cases ctx with
  | nil => cases hg
  | cons g' ctx =>
    cases hg
    have hgw := wf_of_plug (show (plug ctx (g.fill s)).Wf from hwf)
    obtain ⟨ha,hgd,hl,hr,hql,hqr,hwl,hwr⟩ := (g.fill_wf_iff s).1 hgw
    rw [Frame.fill_level,Frame.fill_addr,hd]
    exact ⟨(hs.agreeLevel_le_iff none hr).2 hgeq,and_div_of_eq hgeq⟩

end insert

def insertHeap (h : ℕ → Option Node) (b : Blk) (leafPtr parentPtr : ℕ) (ctx : List Frame) (s : Shape) :
    ℕ → Option Node :=
  let h := setNode h leafPtr (newLeaf b (some parentPtr))
  let h := ctx.head?.elim h fun g => setNode h g.loc (g.toNode (ctxParent ctx.tail) parentPtr)
  let h := setNode h parentPtr ((insertFrame b leafPtr parentPtr s).toNode (ctxParent ctx) s.loc)
  setNode h s.loc (s.toNode (some parentPtr))

theorem setNode_self (h : ℕ → Option Node) (p : ℕ) (n : Node) : setNode h p n p = some n := Function.update_self ..

theorem setNode_of_ne {h : ℕ → Option Node} {p q : ℕ} (n : Node) (hq : q ≠ p) : setNode h p n q = h q :=
  Function.update_of_ne hq ..

theorem setField_eq_setNode {h : ℕ → Option Node} {p : ℕ} {n : Node} (hp : h p = some n) (f : Node → Node) :
    setField h (some p) f = setNode h p (f n) := by
  funext q
  unfold setField
  by_cases hq : p = q
  · rw [if_pos (congrArg some hq),← hq,hp,setNode_self]
    rfl
  · rw [if_neg (fun h => hq (Option.some.inj h)),setNode_of_ne _ (Ne.symm hq)]

theorem setNode_setNode (h : ℕ → Option Node) (p : ℕ) (n m : Node) : setNode (setNode h p n) p m = setNode h p m :=
  Function.update_idem ..

theorem childMask_eq {h : ℕ → Option Node} {n : Node} {p a d : ℕ} {l r : Shape} {pl pr : Option ℕ}
    (hwf : (node p a d l r).Wf) (hnl : n.left = some l.loc) (hnr : n.right = some r.loc)
    (hl : h l.loc = some (l.toNode pl)) (hr : h r.loc = some (r.toNode pr)) :
    childMask h n = some (keepFrom (d + 1)) := by
  have hl' : deref h n.left = some (l.toNode pl) := by
    rw [hnl]
    exact hl
  have hr' : deref h n.right = some (r.toNode pr) := by
    rw [hnr]
    exact hr
  rw [childMask,hl',hr',Option.bind_some,Option.map_some,hwf.mask_children]

theorem set_sibling_parent {h : ℕ → Option Node} {par : Option ℕ} {s : Shape} (hs : s.Wf) (hnd : s.locs.Nodup)
    (hrep : s.Rep h par) (root : Option ℕ) (parentPtr : ℕ) :
    (if (s.toNode par).isLeaf then
      some (⟨root,setField h (some s.loc) fun n => { n with parent := some parentPtr }⟩ : Tree)
    else (childMask (setField h (some s.loc) fun n => { n with parent := some parentPtr }) (s.toNode par)).map fun m =>
      ⟨root,setField (setField h (some s.loc) fun n => { n with parent := some parentPtr }) (some s.loc)
        fun n => { n with mask := m }⟩) = some ⟨root,setNode h s.loc (s.toNode (some parentPtr))⟩ := by
  rw [setField_eq_setNode hrep.self]
  cases s with
  | leaf p b => rfl
  | node p a d l r =>
    have hl : (l.loc,l.toNode (some p)) ∈ (node p a d l r).rest := List.mem_append_left _ List.mem_cons_self
    have hr : (r.loc,r.toNode (some p)) ∈ (node p a d l r).rest := List.mem_append_right _ List.mem_cons_self
    have hcm : childMask (setNode h p { (node p a d l r).toNode par with parent := some parentPtr })
        ((node p a d l r).toNode par) = some (keepFrom (d + 1)) := by
      apply childMask_eq hs rfl rfl
      · exact (setNode_of_ne _ (rest_loc_ne hnd hl)).trans (hrep _ (List.mem_cons_of_mem _ hl))
      · exact (setNode_of_ne _ (rest_loc_ne hnd hr)).trans (hrep _ (List.mem_cons_of_mem _ hr))
    rw [if_neg (by simp [toNode_node]),loc_node,hcm,Option.map_some,setField_eq_setNode (setNode_self ..),setNode_setNode]
    rfl

theorem loc_plug_mem (f : Frame) (ctx : List Frame) (s : Shape) : (plug (f :: ctx) s).loc ∈ ctxLocs (f :: ctx) := by
  induction ctx generalizing f s with
  | nil => simp [plug,ctxLocs]
  | cons g ctx ih =>
    have hmem := ih g (f.fill s)
    rw [ctxLocs,List.mem_cons,List.mem_append]
    exact Or.inr (Or.inr hmem)

theorem ctx_nodup {ctx : List Frame} {s : Shape} (hnd : (plug ctx s).locs.Nodup) : (ctxLocs ctx ++ s.locs).Nodup :=
  (plug_locs ctx s).nodup_iff.1 hnd

section run

variable {tr : Tree} {ctx : List Frame} {s : Shape} {b : Blk} {leafPtr parentPtr : ℕ}

theorem insertHeap_rep (hrep : (plug ctx s).Rep tr.heap none) (hnd : (plug ctx s).locs.Nodup)
    (hlp : leafPtr ∉ (plug ctx s).locs) (hpp : parentPtr ∉ (plug ctx s).locs) (hlpp : leafPtr ≠ parentPtr) :
    (plug (insertFrame b leafPtr parentPtr s :: ctx) s).Rep (insertHeap tr.heap b leafPtr parentPtr ctx s) none := by
  rw [(plug_locs ctx s).mem_iff,List.mem_append,not_or] at hlp hpp
  obtain ⟨hctxrep,hsrep⟩ := rep_plug_iff.1 hrep
  obtain ⟨hndc,hnds,hdisj⟩ := List.nodup_append.1 (ctx_nodup hnd)
  have hsloc := loc_mem_locs s
  have hsl : s.loc ≠ leafPtr := fun h => hlp.2 (h ▸ hsloc)
  have hsp : s.loc ≠ parentPtr := fun h => hpp.2 (h ▸ hsloc)
  -- what the updates leave alone
  have hkeep : ∀ q, q ≠ leafPtr → q ≠ parentPtr → q ≠ s.loc → (∀ g ∈ ctx.head?, q ≠ g.loc) →
      insertHeap tr.heap b leafPtr parentPtr ctx s q = tr.heap q := by
    intro q hql hqp hqs hqg
    unfold insertHeap
    rw [setNode_of_ne _ hqs,setNode_of_ne _ hqp]
    cases ctx with
    | nil => exact setNode_of_ne _ hql
    | cons g ctx => exact (setNode_of_ne _ (hqg g rfl)).trans (setNode_of_ne _ hql)
  have hleaf : insertHeap tr.heap b leafPtr parentPtr ctx s leafPtr = some (newLeaf b (some parentPtr)) := by
    unfold insertHeap
    rw [setNode_of_ne _ hsl.symm,setNode_of_ne _ hlpp]
    cases ctx with
    | nil => exact setNode_self ..
    | cons g ctx =>
      have hg : leafPtr ≠ g.loc := fun h => hlp.1 (h ▸ List.mem_cons_self)
      exact (setNode_of_ne _ hg).trans (setNode_self ..)
  have hparent : insertHeap tr.heap b leafPtr parentPtr ctx s parentPtr =
      some ((insertFrame b leafPtr parentPtr s).toNode (ctxParent ctx) s.loc) := by
    unfold insertHeap
    rw [setNode_of_ne _ hsp.symm,setNode_self]
  have hself : insertHeap tr.heap b leafPtr parentPtr ctx s s.loc = some (s.toNode (some parentPtr)) := by
    unfold insertHeap
    rw [setNode_self]
  have hheadmem : ∀ g ∈ ctx.head?, g.loc ∈ ctxLocs ctx := by
    intro g hg
    cases ctx with
    | nil => cases hg
    | cons g' ctx =>
      cases hg
      exact List.mem_cons_self
  apply rep_plug_iff.2
  constructor
  · intro c hc
    rw [ctxCells,List.mem_cons,List.mem_append] at hc
    obtain rfl | hc | hc := hc
    · exact hparent
    · rw [List.mem_singleton.1 hc]
      exact hleaf
    · cases ctx with
      | nil => cases hc
      | cons g ctx =>
        rw [ctxCells,List.mem_cons] at hc
        obtain rfl | hc := hc
        · have hgl : g.loc ≠ leafPtr := fun h => hlp.1 (h ▸ List.mem_cons_self)
          have hgp : g.loc ≠ parentPtr := fun h => hpp.1 (h ▸ List.mem_cons_self)
          have hgs : g.loc ≠ s.loc := hdisj g.loc List.mem_cons_self s.loc hsloc
          unfold insertHeap
          exact ((setNode_of_ne _ hgs).trans (setNode_of_ne _ hgp)).trans (setNode_self ..)
        · have hold : c ∈ ctxCells (g :: ctx) s.loc := List.mem_cons_of_mem _ hc
          have hloc : c.1 ∈ g.other.locs ++ ctxLocs ctx := by
            obtain hc | hc := List.mem_append.1 hc
            · exact List.mem_append_left _ (cell_loc_mem hc)
            · exact List.mem_append_right _ (ctxCells_loc_mem hc)
          have hmem : c.1 ∈ ctxLocs (g :: ctx) := List.mem_cons_of_mem _ hloc
          rw [hkeep c.1 (fun h => hlp.1 (h ▸ hmem)) (fun h => hpp.1 (h ▸ hmem)) (hdisj c.1 hmem s.loc hsloc)]
          · exact hctxrep c hold
          · intro g' hg' heq
            cases hg'
            exact (List.nodup_cons.1 hndc).1 (heq ▸ hloc)
  · intro c hc
    obtain rfl | hc := List.mem_cons.1 hc
    · exact hself
    · have hmem : c.1 ∈ s.locs := cell_loc_mem (List.mem_cons_of_mem (s.loc,s.toNode none) hc)
      rw [hkeep c.1 (fun h => hlp.2 (h ▸ hmem)) (fun h => hpp.2 (h ▸ hmem)) (rest_loc_ne hnds hc)]
      · exact hsrep c (List.mem_cons_of_mem _ hc)
      · intro g hg heq
        exact hdisj g.loc (hheadmem g hg) c.1 hmem heq.symm

theorem insertFrame_toNode (hs : s.Wf) (hne : s.addr / 2 ^ s.level ≠ b.ptr / 2 ^ s.level) (leafPtr parentPtr : ℕ)
    (par : Option ℕ) :
    (insertFrame b leafPtr parentPtr s).toNode par s.loc =
      ⟨false,s.addr &&& b.ptr,keepFrom (agreeLevel (s.toNode none).pre b.ptr),
        some (if decide (b.ptr ≤ s.addr) then leafPtr else s.loc),
        some (if decide (b.ptr ≤ s.addr) then s.loc else leafPtr),par,none⟩ := by
  have hd := insertFrame_d hs hne leafPtr parentPtr
  unfold Frame.toNode
  rw [hd]
  by_cases hle : b.ptr ≤ s.addr
  · simp [insertFrame,hle,loc]
  · simp [insertFrame,hle,loc]

theorem relink_eq {h : ℕ → Option Node} {g : Frame} {par : Option ℕ} {old new : ℕ}
    (hg : h g.loc = some (g.toNode par old)) (hne : g.other.loc ≠ old) :
    relink h g.loc (some old) (some new) = setNode h g.loc (g.toNode par new) := by
  unfold relink
  rw [setField_eq_setNode hg]
  congr 1
  unfold Frame.toNode
  cases g.right with
  | true => simp [hne]
  | false => simp

theorem pre_toNode_congr (par par' : Option ℕ) (t : Shape) : (t.toNode par).pre = (t.toNode par').pre := by
  cases t with
  | leaf p b => rfl
  | node p a d l r => rfl

theorem parent_toNode (par : Option ℕ) (t : Shape) : (t.toNode par).parent = par := by
  cases t with
  | leaf p b => rfl
  | node p a d l r => rfl

theorem insert_childMask {h : ℕ → Option Node} {par par' : Option ℕ} (hs : s.Wf) (hb : b.ptr < 2 ^ wordbits)
    (hne : s.addr / 2 ^ s.level ≠ b.ptr / 2 ^ s.level) (hleaf : h leafPtr = some (newLeaf b par'))
    (hself : h s.loc = some (s.toNode par)) :
    childMask h ⟨false,s.addr &&& b.ptr,0,some (if decide (b.ptr ≤ s.addr) then leafPtr else s.loc),
      some (if decide (b.ptr ≤ s.addr) then s.loc else leafPtr),none,none⟩ =
        some (keepFrom (agreeLevel (s.toNode none).pre b.ptr)) := by
  have hwf := insertFrame_wf hs hb hne leafPtr 0
  rw [← insertFrame_d hs hne leafPtr 0]
  have hleaf' : h (leaf leafPtr b).loc = some ((leaf leafPtr b).toNode par') := hleaf
  by_cases hle : b.ptr ≤ s.addr
  · have hright : (insertFrame b leafPtr 0 s).right = true := decide_eq_true hle
    rw [Frame.fill,if_pos hright] at hwf
    exact childMask_eq hwf (by simp [hle,loc,insertFrame]) (by simp [hle]) hleaf' hself
  · have hright : ¬ (insertFrame b leafPtr 0 s).right = true := by
      simpa [insertFrame] using hle
    rw [Frame.fill,if_neg hright] at hwf
    exact childMask_eq hwf (by simp [hle]) (by simp [hle,loc,insertFrame]) hself hleaf'

theorem btInsertNode_eq (htr : Holds tr (plug ctx s)) (hb : b.ptr < 2 ^ wordbits)
    (hsim : btMostSimilarNode tr b = some s.loc) (hne : s.addr / 2 ^ s.level ≠ b.ptr / 2 ^ s.level)
    (hlp : leafPtr ∉ (plug ctx s).locs) (hpp : parentPtr ∉ (plug ctx s).locs) :
    btInsertNode b leafPtr parentPtr tr = some ⟨some (plug (insertFrame b leafPtr parentPtr s :: ctx) s).loc,
      insertHeap tr.heap b leafPtr parentPtr ctx s⟩ := by
  obtain ⟨hroot,hrep,hnd,hwf⟩ := htr
  have hs := wf_of_plug hwf
  rw [(plug_locs ctx s).mem_iff,List.mem_append,not_or] at hlp hpp
  obtain ⟨hctxrep,hsrep⟩ := rep_plug_iff.1 hrep
  obtain ⟨hndc,hnds,hdisj⟩ := List.nodup_append.1 (ctx_nodup hnd)
  have hsloc := loc_mem_locs s
  have hkeep : ∀ (h : ℕ → Option Node) (p : ℕ) (n : Node), p ∉ s.locs → s.Rep h (ctxParent ctx) →
      s.Rep (setNode h p n) (ctxParent ctx) := by
    intro h p n hp hh
    apply rep_congr hh
    intro q hq
    exact setNode_of_ne n (fun heq => hp (heq ▸ hq))
  have hmask : mask (s.toNode (ctxParent ctx)).pre b.ptr = keepFrom (agreeLevel (s.toNode none).pre b.ptr) := by
    rw [pre_toNode_congr _ none,hs.mask_pre none hb]
  have hleafrep := hkeep _ _ (newLeaf b (some parentPtr)) hlp.2 hsrep
  unfold btInsertNode
  rw [hroot]
  simp only [hsim,Option.bind_some,hsrep.self,addr_toNode,parent_toNode]
  cases ctx with
  | nil =>
    rw [if_pos (show some s.loc = some (plug [] s).loc from rfl),Option.bind_some,hmask,
      ← insertFrame_toNode hs hne leafPtr parentPtr none]
    have hroot' : (plug [insertFrame b leafPtr parentPtr s] s).loc = parentPtr := Frame.fill_loc _ s
    rw [hroot']
    exact set_sibling_parent hs hnds (hkeep _ _ _ hpp.2 hleafrep) (some parentPtr) parentPtr
  | cons g ctx =>
    have hgs : ∀ q ∈ ctxLocs (g :: ctx), q ≠ s.loc := fun q hq => hdisj q hq s.loc hsloc
    have hgl : g.loc ≠ leafPtr := fun h => hlp.1 (h ▸ List.mem_cons_self)
    have hother : g.other.loc ≠ s.loc := by
      apply hgs
      exact List.mem_cons_of_mem _ (List.mem_append_left _ (loc_mem_locs _))
    have hgrep : setNode tr.heap leafPtr (newLeaf b (some parentPtr)) g.loc =
        some (g.toNode (ctxParent ctx) s.loc) := by
      rw [setNode_of_ne _ hgl]
      exact hctxrep _ List.mem_cons_self
    have hlinked := hkeep _ g.loc (g.toNode (ctxParent ctx) parentPtr)
      (fun hmem => hdisj g.loc List.mem_cons_self g.loc hmem rfl) hleafrep
    have hnotroot : ¬ some s.loc = some (plug (g :: ctx) s).loc :=
      fun heq => hgs _ (loc_plug_mem g ctx s) (Option.some.inj heq).symm
    have hleaf : setNode (setNode tr.heap leafPtr (newLeaf b (some parentPtr))) g.loc (g.toNode (ctxParent ctx) parentPtr)
        leafPtr = some (newLeaf b (some parentPtr)) := by
      rw [setNode_of_ne _ hgl.symm,setNode_self]
    rw [if_neg hnotroot,ctxParent,Option.bind_some,relink_eq hgrep hother,
      insert_childMask hs hb hne hleaf hlinked.self,Option.map_some,Option.bind_some,
      ← insertFrame_toNode hs hne leafPtr parentPtr (some g.loc)]
    have hroot' : (plug (g :: ctx) s).loc = (plug (insertFrame b leafPtr parentPtr s :: g :: ctx) s).loc :=
      loc_plug_of_ne_nil (List.cons_ne_nil g ctx) s _
    rw [hroot']
    exact set_sibling_parent hs hnds (hkeep _ _ _ hpp.2 hlinked) _ parentPtr

theorem btInsertNode_holds {t : Shape} (htr : Holds tr t) (hb : b.ptr < 2 ^ wordbits)
    (hnew : ∀ c ∈ t.blocks, c.ptr ≠ b.ptr) (hlp : tr.heap leafPtr = none) (hpp : tr.heap parentPtr = none)
    (hlpp : leafPtr ≠ parentPtr) :
    ∃ tr' t', btInsertNode b leafPtr parentPtr tr = some tr' ∧ Holds tr' t' ∧ t'.blocks.Perm (b :: t.blocks) := by
  have hlevel := htr.wf.level_le
  obtain ⟨ctx,s,rfl,hsim,hctx,hne⟩ := mostSimilarLoop_spec [] htr.rep htr.wf hb hnew (fun f hf => by cases hf)
    (Nat.lt_succ_of_le hlevel)
  have hlp' : leafPtr ∉ (plug ctx s).locs := fun hmem => htr.rep.heap_ne_none hmem hlp
  have hpp' : parentPtr ∉ (plug ctx s).locs := fun hmem => htr.rep.heap_ne_none hmem hpp
  have hs := wf_of_plug htr.wf
  have hsim' : btMostSimilarNode tr b = some s.loc := by
    rw [btMostSimilarNode,htr.root]
    exact hsim
  refine ⟨_,plug (insertFrame b leafPtr parentPtr s :: ctx) s,btInsertNode_eq htr hb hsim' hne hlp' hpp',?_,?_⟩
  · refine ⟨rfl,insertHeap_rep htr.rep htr.nodup hlp' hpp' hlpp,?_,?_⟩
    · have hperm : (plug (insertFrame b leafPtr parentPtr s :: ctx) s).locs.Perm
          (parentPtr :: leafPtr :: (plug ctx s).locs) := by
        apply (plug_locs _ s).trans
        exact ((plug_locs ctx s).symm.cons leafPtr).cons parentPtr
      rw [hperm.nodup_iff,List.nodup_cons,List.nodup_cons,List.mem_cons,not_or]
      exact ⟨⟨hlpp.symm,hpp'⟩,hlp',htr.nodup⟩
    · have hwf : (plug ctx ((insertFrame b leafPtr parentPtr s).fill s)).Wf :=
        wf_plug_of_fits htr.wf (insertFrame_wf hs hb hne leafPtr parentPtr)
          (insertFrame_fits hs hne htr.wf hctx leafPtr parentPtr)
      exact hwf
  · apply (plug_blocks _ s).trans
    exact (plug_blocks ctx s).symm.cons b

end run

end FramaC.EAcsl.Bittree
