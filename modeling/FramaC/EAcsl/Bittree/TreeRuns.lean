import FramaC.EAcsl.Bittree.Remove
import Mathlib.Data.List.Pairwise

/-! # Runs of the bittree

The tree reached by any sequence of insertions and removals of disjoint blocks is well formed, and the searches answer
exactly about the blocks in it.
-/
namespace FramaC.EAcsl.Bittree

open Shape CommonPrefix

def Blk.Contains (b : Blk) (x : ℕ) : Prop := (b.ptr ≤ x ∧ x < b.ptr + b.size) ∨ (b.size = 0 ∧ b.ptr = x)

def Blk.Valid (b : Blk) : Prop := b.ptr ≠ 0 ∧ b.ptr + b.size < 2 ^ wordbits

def Blk.Apart (b c : Blk) : Prop := b.ptr ≠ c.ptr ∧ ∀ x, b.Contains x → ¬ c.Contains x

/-- Trees reached by insertions and removals, with the blocks they track. The allocator returns free pointers. -/
inductive Reaches : Tree → List Blk → Prop
  | empty : Reaches Tree.empty []
  | insert {tr tr' : Tree} {bs : List Blk} {b : Blk} {leafPtr parentPtr : ℕ} : Reaches tr bs → b.Valid →
      (∀ c ∈ bs, b.Apart c) → tr.heap leafPtr = none → tr.heap parentPtr = none → leafPtr ≠ parentPtr →
      btInsertNode b leafPtr parentPtr tr = some tr' → Reaches tr' (b :: bs)
  | remove {tr tr' : Tree} {bs : List Blk} {b : Blk} : Reaches tr bs → b ∈ bs → btRemoveNode b tr = some tr' →
      Reaches tr' (bs.erase b)

/-- The mask of the longest prefix that the start addresses have in common. -/
def LcpMask (m : ℕ) (bs : List Blk) : Prop :=
  ∃ k, m = keepFrom k ∧ ∀ j, (∀ a ∈ bs, ∀ b ∈ bs, a.ptr / 2 ^ j = b.ptr / 2 ^ j) ↔ k ≤ j

/-- A well-formed tree in the heap, with the blocks of its leaves from left to right. -/
inductive Subtree (h : ℕ → Option Node) : Option ℕ → ℕ → List Blk → Prop
  | leaf {par : Option ℕ} {p : ℕ} {n : Node} {b : Blk} : h p = some n → n.isLeaf = true → n.parent = par →
      n.leaf = some b → n.addr = b.ptr → Subtree h par p [b]
  | node {par : Option ℕ} {p l r : ℕ} {n : Node} {bl br : List Blk} : h p = some n → n.isLeaf = false →
      n.parent = par → n.left = some l → n.right = some r → Subtree h (some p) l bl → Subtree h (some p) r br →
      LcpMask n.mask (bl ++ br) → (∀ a ∈ bl, ∀ b ∈ br, a.ptr < b.ptr) → Subtree h par p (bl ++ br)

def WellFormed (tr : Tree) (bs : List Blk) : Prop :=
  (tr.root = none ∧ bs = []) ∨ ∃ p cs, tr.root = some p ∧ Subtree tr.heap none p cs ∧ cs.Perm bs

theorem Blk.Apart.symm {b c : Blk} (h : b.Apart c) : c.Apart b :=
  ⟨h.1.symm,fun x hc hb => h.2 x hb hc⟩

theorem Blk.contains_ptr (b : Blk) : b.Contains b.ptr := by
  by_cases hb : b.size = 0
  · exact Or.inr ⟨hb,rfl⟩
  · exact Or.inl ⟨le_refl _,Nat.lt_add_of_pos_right (Nat.pos_of_ne_zero hb)⟩

structure TreeInv (tr : Tree) (bs : List Blk) : Prop where
  shape : (tr.root = none ∧ bs = []) ∨ ∃ t, Holds tr t ∧ t.blocks.Perm bs
  apart : bs.Pairwise Blk.Apart
  valid : ∀ b ∈ bs, b.Valid

theorem Blk.Valid.ptr_lt {b : Blk} (h : b.Valid) : b.ptr < 2 ^ wordbits := Nat.lt_of_le_of_lt (Nat.le_add_right _ _) h.2

theorem TreeInv.apart_of_ne {tr : Tree} {bs : List Blk} (h : TreeInv tr bs) {b c : Blk} (hb : b ∈ bs) (hc : c ∈ bs)
    (hne : b ≠ c) : b.Apart c := by
  have : Std.Symm Blk.Apart := ⟨fun _ _ h => h.symm⟩
  exact h.apart.forall hb hc hne

theorem TreeInv.ptr_inj {tr : Tree} {bs : List Blk} (h : TreeInv tr bs) {b c : Blk} (hb : b ∈ bs) (hc : c ∈ bs)
    (heq : b.ptr = c.ptr) : b = c := by
  by_contra hne
  exact (h.apart_of_ne hb hc hne).1 heq

theorem TreeInv.insert {tr : Tree} {bs : List Blk} (h : TreeInv tr bs) {b : Blk} {leafPtr parentPtr : ℕ} (hb : b.Valid)
    (hapart : ∀ c ∈ bs, b.Apart c) (hlp : tr.heap leafPtr = none) (hpp : tr.heap parentPtr = none)
    (hlpp : leafPtr ≠ parentPtr) :
    ∃ tr', btInsertNode b leafPtr parentPtr tr = some tr' ∧ TreeInv tr' (b :: bs) := by
  have hvalid : ∀ c ∈ b :: bs, c.Valid := List.forall_mem_cons.2 ⟨hb,h.valid⟩
  have hpair : (b :: bs).Pairwise Blk.Apart := List.pairwise_cons.2 ⟨hapart,h.apart⟩
  obtain ⟨hroot,hnil⟩ | ⟨t,htr,hperm⟩ := h.shape
  · refine ⟨⟨some leafPtr,setNode tr.heap leafPtr (newLeaf b none)⟩,?_,Or.inr ⟨leaf leafPtr b,?_,?_⟩,hpair,hvalid⟩
    · rw [btInsertNode,hroot]
    · refine ⟨rfl,?_,List.pairwise_singleton _ _,hb.ptr_lt⟩
      intro c hc
      rw [List.mem_singleton.1 hc]
      exact setNode_self ..
    · rw [hnil]
      exact List.Perm.refl _
  · have hnew : ∀ c ∈ t.blocks, c.ptr ≠ b.ptr := fun c hc => (hapart c (hperm.mem_iff.1 hc)).1.symm
    obtain ⟨tr',t',hins,htr',hperm'⟩ := btInsertNode_holds htr hb.ptr_lt hnew hlp hpp hlpp
    exact ⟨tr',hins,Or.inr ⟨t',htr',hperm'.trans (hperm.cons b)⟩,hpair,hvalid⟩

theorem TreeInv.remove {tr : Tree} {bs : List Blk} (h : TreeInv tr bs) {b : Blk} (hb : b ∈ bs) :
    ∃ tr', btRemoveNode b tr = some tr' ∧ TreeInv tr' (bs.erase b) := by
  have hvalid : ∀ c ∈ bs.erase b, c.Valid := fun c hc => h.valid c (List.mem_of_mem_erase hc)
  have hpair : (bs.erase b).Pairwise Blk.Apart := h.apart.sublist List.erase_sublist
  obtain ⟨hroot,rfl⟩ | ⟨t,htr,hperm⟩ := h.shape
  · cases hb
  · have hmem := hperm.mem_iff.2 hb
    obtain ⟨tr',hrem,hcase⟩ := btRemoveNode_holds htr hmem
      (fun c hc heq => h.ptr_inj (hperm.mem_iff.1 hc) hb heq)
    refine ⟨tr',hrem,?_,hpair,hvalid⟩
    obtain ⟨hroot,hone⟩ | ⟨t',htr',hperm'⟩ := hcase
    · rw [hone] at hperm
      rw [List.perm_singleton.1 hperm.symm]
      exact Or.inl ⟨hroot,List.erase_cons_head b []⟩
    · exact Or.inr ⟨t',htr',(List.cons_perm_iff_perm_erase.1 (hperm'.symm.trans hperm)).2⟩

theorem Reaches.inv {tr : Tree} {bs : List Blk} (h : Reaches tr bs) : TreeInv tr bs := by
  induction h with
  | empty => exact ⟨Or.inl ⟨rfl,rfl⟩,List.Pairwise.nil,fun b hb => by cases hb⟩
  | insert hr hb hapart hlp hpp hlpp hins ih =>
    obtain ⟨tr',hins',hinv⟩ := ih.insert hb hapart hlp hpp hlpp
    rw [hins] at hins'
    cases hins'
    exact hinv
  | remove hr hb hrem ih =>
    obtain ⟨tr',hrem',hinv⟩ := ih.remove hb
    rw [hrem] at hrem'
    cases hrem'
    exact hinv

theorem Shape.Wf.lcpMask {p a d : ℕ} {l r : Shape} (ht : (node p a d l r).Wf) :
    LcpMask (keepFrom (d + 1)) (l.blocks ++ r.blocks) := by
  refine ⟨d + 1,rfl,?_⟩
  intro j
  constructor
  · intro hall
    by_contra hle
    obtain ⟨b,hb⟩ := blocks_ne_nil l
    obtain ⟨c,hc⟩ := blocks_ne_nil r
    have hbc := div_pow_mono (Nat.le_of_lt_succ (Nat.lt_of_not_le hle))
      (hall b (List.mem_append_left _ hb) c (List.mem_append_right _ hc))
    have hbd := ht.left_block_div hb
    have hcd := ht.right_block_div hc
    omega
  · intro hj b hb c hc
    exact div_pow_mono hj ((ht.block_div hb).trans (ht.block_div hc).symm)

theorem Shape.Rep.subtree {h : ℕ → Option Node} {par : Option ℕ} {t : Shape} (hrep : t.Rep h par) (hwf : t.Wf) :
    Subtree h par t.loc t.blocks := by
  induction t generalizing par with
  | leaf p b => exact Subtree.leaf hrep.self rfl rfl rfl rfl
  | node p a d l r ihl ihr =>
    obtain ⟨hself,hl,hr⟩ := rep_node.1 hrep
    have hlt : ∀ b ∈ l.blocks, ∀ c ∈ r.blocks, b.ptr < c.ptr := fun b hb c hc => hwf.left_lt_right hb hc
    have hmask := hwf.lcpMask
    obtain ⟨ha,hd,hdl,hdr,hql,hqr,htl,htr⟩ := hwf
    exact Subtree.node hself rfl rfl rfl rfl (ihl hl htl) (ihr hr htr) hmask hlt

theorem TreeInv.wellFormed {tr : Tree} {bs : List Blk} (h : TreeInv tr bs) : WellFormed tr bs := by
  obtain hnil | ⟨t,htr,hperm⟩ := h.shape
  · exact Or.inl hnil
  · exact Or.inr ⟨t.loc,t.blocks,htr.root,htr.rep.subtree htr.wf,hperm⟩

theorem TreeInv.getLeaf {tr : Tree} {bs : List Blk} (h : TreeInv tr bs) {b : Blk} (hb : b ∈ bs) :
    ∃ p n, btGetLeafFromBlock tr b = some p ∧ tr.heap p = some n ∧ n.isLeaf = true ∧ n.leaf = some b := by
  obtain ⟨hroot,rfl⟩ | ⟨t,htr,hperm⟩ := h.shape
  · cases hb
  · obtain ⟨ctx,p,rfl,hget⟩ := getLeafLoop_spec [] htr.rep htr.wf (hperm.mem_iff.2 hb)
      (fun c hc heq => h.ptr_inj (hperm.mem_iff.1 hc) hb heq) (Nat.lt_succ_of_le htr.wf.level_le)
    refine ⟨p,newLeaf b (ctxParent ctx),?_,(rep_plug_iff.1 htr.rep).2.self,rfl,rfl⟩
    rw [btGetLeafFromBlock,htr.root]
    exact hget

theorem TreeInv.lookup {tr : Tree} {bs : List Blk} (h : TreeInv tr bs) (hne : tr.root ≠ none) {x : ℕ}
    (hx : x < 2 ^ wordbits) : ∃ o, btLookupNode tr x = some o ∧ ∀ b, o = some b ↔ b ∈ bs ∧ b.ptr = x := by
  obtain ⟨hroot,_⟩ | ⟨t,htr,hperm⟩ := h.shape
  · exact absurd hroot hne
  · obtain ⟨o,ho,hstart⟩ := lookupLoop_spec htr.rep htr.wf
      (fun b hb c hc => h.ptr_inj (hperm.mem_iff.1 hb) (hperm.mem_iff.1 hc)) hx (Nat.lt_succ_of_le htr.wf.level_le)
    refine ⟨o,?_,?_⟩
    · rw [btLookupNode,htr.root]
      exact ho
    · intro b
      rw [hstart b,hperm.mem_iff]

theorem ifContains_iff {b c : Blk} (hb : b.Valid) {x : ℕ} (hx : b.ptr ≤ x) :
    ifContains x b = some c ↔ b = c ∧ b.Contains x := by
  have hmod : (b.size + b.ptr) % 2 ^ wordbits = b.ptr + b.size := by
    rw [Nat.add_comm,Nat.mod_eq_of_lt hb.2]
  have hiff : (x < b.ptr + b.size ∨ (b.size = 0 ∧ x = b.ptr)) ↔ b.Contains x := by
    unfold Blk.Contains
    constructor
    · rintro (h | h)
      · exact Or.inl ⟨hx,h⟩
      · exact Or.inr ⟨h.1,h.2.symm⟩
    · rintro (h | h)
      · exact Or.inl h.2
      · exact Or.inr ⟨h.1,h.2.symm⟩
  rw [ifContains,hmod]
  by_cases hc : b.Contains x
  · rw [if_pos (hiff.2 hc),Option.some.injEq]
    exact ⟨fun heq => ⟨heq,hc⟩,fun heq => heq.1⟩
  · rw [if_neg (fun h => hc (hiff.1 h))]
    exact ⟨fun heq => absurd heq (Option.some_ne_none c).symm,fun heq => absurd heq.2 hc⟩

theorem Blk.Apart.ptr_le {b c : Blk} (h : b.Apart c) {x : ℕ} (hb : b.Contains x) (hc : c.ptr ≤ x) : c.ptr < b.ptr := by
  by_contra hle
  obtain ⟨hbx,hxb⟩ | ⟨hsize,hbx⟩ := hb
  · exact h.2 c.ptr (Or.inl ⟨Nat.le_of_not_lt hle,by omega⟩) c.contains_ptr
  · exact h.1 (by omega)

theorem TreeInv.find {tr : Tree} {bs : List Blk} (h : TreeInv tr bs) {x : ℕ} (hx : x < 2 ^ wordbits) :
    ∃ o, btFindNode tr x = some o ∧ ∀ b, o = some b ↔ b ∈ bs ∧ b.Contains x := by
  have hnull : x = 0 → ∀ b ∈ bs, ¬ b.Contains x := by
    intro hzero b hb hc
    have hptr := (h.valid b hb).1
    obtain hc | hc := hc
    · omega
    · omega
  unfold btFindNode
  obtain ⟨hroot,rfl⟩ | ⟨t,htr,hperm⟩ := h.shape
  · rw [if_pos (Or.inl hroot)]
    exact ⟨none,rfl,fun b => by simp⟩
  · by_cases hzero : x = 0
    · rw [if_pos (Or.inr hzero)]
      refine ⟨none,rfl,?_⟩
      intro b
      exact ⟨fun heq => absurd heq (Option.some_ne_none b).symm,fun hb => absurd hb.2 (hnull hzero b hb.1)⟩
    · have hlevel := htr.wf.level_le
      have hnroot : ¬ (tr.root = none ∨ x = 0) := by
        rw [htr.root]
        simp [hzero]
      obtain ⟨o,hclosest,hfind⟩ := findLoop_spec htr.rep htr.wf hx none (fun s hs => by cases hs) (Or.inr rfl)
        (by omega : t.level + wordbits < 2 * (wordbits + 1))
      rw [if_neg hnroot,htr.root]
      refine ⟨_,hfind,?_⟩
      intro b
      cases o with
      | none =>
        constructor
        · intro heq
          cases heq
        · rintro ⟨hb,hc⟩
          have hlt := hclosest b (List.mem_append_left _ (hperm.mem_iff.2 hb))
          obtain hc | hc := hc
          · omega
          · omega
      | some c =>
        obtain ⟨hcmem,hcx,hmax⟩ := hclosest
        have hcbs : c ∈ bs := by
          rw [← hperm.mem_iff]
          simpa using hcmem
        rw [Option.bind_some,ifContains_iff (h.valid c hcbs) hcx]
        constructor
        · rintro ⟨rfl,hcont⟩
          exact ⟨hcbs,hcont⟩
        · rintro ⟨hb,hcont⟩
          have hbx : b.ptr ≤ x := by
            obtain hc | hc := hcont
            · exact hc.1
            · exact hc.2.le
          have hbc := hmax b (List.mem_append_left _ (hperm.mem_iff.2 hb)) hbx
          by_cases heq : c = b
          · exact ⟨heq,heq ▸ hcont⟩
          · have hlt := (h.apart_of_ne hb hcbs (Ne.symm heq)).ptr_le hcont hcx
            omega

/-- Over every sequence of insertions and removals: the tree is well formed with the tracked blocks as leaves, no
operation gets stuck, and the searches are exact. -/
theorem bittree_correct {tr : Tree} {bs : List Blk} (h : Reaches tr bs) :
    WellFormed tr bs ∧
    (∀ b leafPtr parentPtr, b.Valid → (∀ c ∈ bs, b.Apart c) → tr.heap leafPtr = none → tr.heap parentPtr = none →
      leafPtr ≠ parentPtr → ∃ tr', btInsertNode b leafPtr parentPtr tr = some tr') ∧
    (∀ b ∈ bs, ∃ tr', btRemoveNode b tr = some tr') ∧
    (∀ b ∈ bs, ∃ p n, btGetLeafFromBlock tr b = some p ∧ tr.heap p = some n ∧ n.isLeaf = true ∧ n.leaf = some b) ∧
    (tr.root ≠ none → ∀ x < 2 ^ wordbits, ∃ o, btLookupNode tr x = some o ∧ ∀ b, o = some b ↔ b ∈ bs ∧ b.ptr = x) ∧
    (∀ x < 2 ^ wordbits, ∃ o, btFindNode tr x = some o ∧ ∀ b, o = some b ↔ b ∈ bs ∧ b.Contains x) := by
  have hinv := h.inv
  refine ⟨hinv.wellFormed,?_,?_,fun b hb => hinv.getLeaf hb,fun hne x hx => hinv.lookup hne hx,
    fun x hx => hinv.find hx⟩
  · intro b leafPtr parentPtr hb hapart hlp hpp hlpp
    obtain ⟨tr',hins,_⟩ := hinv.insert hb hapart hlp hpp hlpp
    exact ⟨tr',hins⟩
  · intro b hb
    obtain ⟨tr',hrem,_⟩ := hinv.remove hb
    exact ⟨tr',hrem⟩

/-- The tree with one leaf, at pointer `1`. -/
def oneLeaf (b : Blk) : Tree := ⟨some 1,setNode (fun _ => none) 1 (newLeaf b none)⟩

theorem oneLeaf_reaches : Reaches (oneLeaf ⟨16,4⟩) [⟨16,4⟩] := by
  apply @Reaches.insert Tree.empty _ _ _ 1 2 Reaches.empty
  · exact ⟨by decide,by decide⟩
  · intro c hc
    cases hc
  · rfl
  · rfl
  · decide
  · rfl

theorem bittree_correct_insert : ∃ tr, Reaches tr [⟨24,0⟩,⟨16,4⟩] ∧ WellFormed tr [⟨24,0⟩,⟨16,4⟩] ∧
    ∃ o, btFindNode tr 19 = some o ∧ o = some ⟨16,4⟩ := by
  have hvalid : Blk.Valid ⟨24,0⟩ := ⟨by decide,by decide⟩
  have hapart : ∀ c ∈ [(⟨16,4⟩ : Blk)], Blk.Apart ⟨24,0⟩ c := by
    intro c hc
    rw [List.mem_singleton.1 hc]
    refine ⟨by decide,?_⟩
    intro x hx hx'
    unfold Blk.Contains at hx hx'
    simp only at hx hx'
    omega
  obtain ⟨tr,hins⟩ := (bittree_correct oneLeaf_reaches).2.1 ⟨24,0⟩ 3 4 hvalid hapart rfl rfl (by decide)
  have hreach := Reaches.insert oneLeaf_reaches hvalid hapart rfl rfl (by decide) hins
  obtain ⟨hwf,_,_,_,_,hfind⟩ := bittree_correct hreach
  obtain ⟨o,ho,hiff⟩ := hfind 19 (by decide)
  refine ⟨tr,hreach,hwf,o,ho,(hiff _).2 ⟨?_,Or.inl ⟨by decide,by decide⟩⟩⟩
  exact List.mem_cons_of_mem _ List.mem_cons_self

end FramaC.EAcsl.Bittree
