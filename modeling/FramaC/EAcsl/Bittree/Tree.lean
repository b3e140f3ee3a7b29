import FramaC.EAcsl.Bittree.Prefix

/-! # Nodes of the bittree

The tree of `e_acsl_bittree.h` as a heap of nodes linked by pointers, and the functions on it. A function has no result
when it would dereference `NULL`, reach its unreachable branch or run for longer than its bound on the number of turns.
-/
namespace FramaC.EAcsl.Bittree

/-- A tracked block, known by its start address. -/
structure Blk where
  ptr : ℕ
  size : ℕ
deriving DecidableEq

structure Node where
  isLeaf : Bool
  addr : ℕ
  mask : ℕ
  left : Option ℕ
  right : Option ℕ
  parent : Option ℕ
  leaf : Option Blk

structure Tree where
  root : Option ℕ
  heap : ℕ → Option Node

def Tree.empty : Tree := ⟨none,fun _ => none⟩

def deref (h : ℕ → Option Node) (p : Option ℕ) : Option Node := p.bind h

/-- The prefix of a node, `addr & mask`. -/
def Node.pre (n : Node) : ℕ := n.addr &&& n.mask

def Node.matches (n : Node) (a : ℕ) : Bool := decide (n.pre = a &&& n.mask)

def getLeafLoop (h : ℕ → Option Node) (ptr : ℕ) : ℕ → Option ℕ → Option ℕ
  | 0,_ => none
  | fuel + 1,curr =>
    (deref h curr).bind fun n =>
      if n.isLeaf then curr
      else (deref h n.right).bind fun r =>
        if r.matches ptr then getLeafLoop h ptr fuel n.right
        else (deref h n.left).bind fun l =>
          if l.matches ptr then getLeafLoop h ptr fuel n.left else none

def btGetLeafFromBlock (t : Tree) (b : Blk) : Option ℕ := getLeafLoop t.heap b.ptr (wordbits + 1) t.root

def setField (h : ℕ → Option Node) (p : Option ℕ) (f : Node → Node) : ℕ → Option Node :=
  fun q => if p = some q then (h q).map f else h q

def freeNode (h : ℕ → Option Node) (p : Option ℕ) : ℕ → Option Node := fun q => if p = some q then none else h q

def childMask (h : ℕ → Option Node) (n : Node) : Option ℕ :=
  (deref h n.left).bind fun l => (deref h n.right).map fun r => mask l.pre r.pre

def absorb (parent sibling : Node) : Node :=
  { sibling with parent := parent.parent }

def btRemoveNode (b : Blk) (t : Tree) : Option Tree :=
  (btGetLeafFromBlock t b).bind fun leafToDelete =>
    (t.heap leafToDelete).bind fun leaf =>
      match leaf.parent with
      | none => some ⟨none,freeNode t.heap (some leafToDelete)⟩
      | some pp =>
        (t.heap pp).bind fun parent =>
          let sib := if parent.left = some leafToDelete then parent.right else parent.left
          (deref t.heap sib).bind fun sibling =>
            let h := setField t.heap (some pp) fun _ => absorb parent sibling
            let h := if sibling.isLeaf then h
              else setField (setField h sibling.left fun n => { n with parent := some pp }) sibling.right
                fun n => { n with parent := some pp }
            let h := freeNode h sib
            match parent.parent with
            | none => some ⟨t.root,freeNode h (some leafToDelete)⟩
            | some gp =>
              (h gp).bind fun g => (childMask h g).map fun m =>
                ⟨t.root,freeNode (setField h (some gp) fun n => { n with mask := m }) (some leafToDelete)⟩

def mostSimilarLoop (h : ℕ → Option Node) (ptr : ℕ) : ℕ → Option ℕ → Option ℕ
  | 0,_ => none
  | fuel + 1,curr =>
    (deref h curr).bind fun n =>
      if n.isLeaf then curr
      else (deref h n.left).bind fun l => (deref h n.right).bind fun r =>
        let leftPrefix := mask l.pre ptr
        let rightPrefix := mask r.pre ptr
        if leftPrefix > rightPrefix then mostSimilarLoop h ptr fuel n.left
        else if rightPrefix > leftPrefix then mostSimilarLoop h ptr fuel n.right
        else curr

def btMostSimilarNode (t : Tree) (b : Blk) : Option ℕ := mostSimilarLoop t.heap b.ptr (wordbits + 1) t.root

def newLeaf (b : Blk) (parent : Option ℕ) : Node := ⟨true,b.ptr,tmasks wordbits,none,none,parent,some b⟩

def setNode (h : ℕ → Option Node) (p : ℕ) (n : Node) : ℕ → Option Node := Function.update h p (some n)

/-- The child pointer of `parent` that was `old` becomes `new`. -/
def relink (h : ℕ → Option Node) (parent : ℕ) (old new : Option ℕ) : ℕ → Option Node :=
  setField h (some parent) fun n => if n.left = old then { n with left := new } else { n with right := new }

/-- The pointers `leafPtr` and `parentPtr` are what the allocator returns for the leaf and for the inner node. -/
def btInsertNode (b : Blk) (leafPtr parentPtr : ℕ) (t : Tree) : Option Tree :=
  match t.root with
  | none => some ⟨some leafPtr,setNode t.heap leafPtr (newLeaf b none)⟩
  | some _ =>
    (btMostSimilarNode t b).bind fun sib =>
      (t.heap sib).bind fun sibling =>
        let leafFirst := decide (b.ptr ≤ sibling.addr)
        let left := if leafFirst then leafPtr else sib
        let right := if leafFirst then sib else leafPtr
        let h := setNode t.heap leafPtr (newLeaf b (some parentPtr))
        let parent : Node := ⟨false,sibling.addr &&& b.ptr,0,some left,some right,none,none⟩
        (if some sib = t.root then
          some (some parentPtr,setNode h parentPtr { parent with mask := mask sibling.pre b.ptr })
        else sibling.parent.bind fun gp =>
          let h := relink h gp (some sib) (some parentPtr)
          (childMask h parent).map fun m =>
            (t.root,setNode h parentPtr { parent with parent := some gp, mask := m })).bind fun (root,h) =>
          let h := setField h (some sib) fun n => { n with parent := some parentPtr }
          if sibling.isLeaf then some ⟨root,h⟩
          else (childMask h sibling).map fun m => ⟨root,setField h (some sib) fun n => { n with mask := m }⟩

def lookupLoop (h : ℕ → Option Node) (ptr : ℕ) : ℕ → Option ℕ → Option (Option Blk)
  | 0,_ => none
  | fuel + 1,tmp =>
    (deref h tmp).bind fun n =>
      if n.isLeaf then n.leaf.map fun b => if b.ptr ≠ ptr then none else some b
      else if !n.matches ptr then some none
      else (deref h n.right).bind fun r =>
        if r.matches ptr then lookupLoop h ptr fuel n.right
        else (deref h n.left).bind fun l =>
          if l.matches ptr then lookupLoop h ptr fuel n.left else some none

/-- The block that starts at an address, or `NULL`. -/
def btLookupNode (t : Tree) (ptr : ℕ) : Option (Option Blk) := lookupLoop t.heap ptr (wordbits + 1) t.root

@[grind =] def findLoop (h : ℕ → Option Node) (ptr : ℕ) : ℕ → Option ℕ → Option ℕ → Option (Option Blk)
  | 0,_,_ => none
  | fuel + 1,tmp,otherChoice =>
    (deref h tmp).bind fun n =>
      if n.isLeaf then n.leaf.map fun b =>
        if n.addr > ptr then none
        else if ptr < (b.size + n.addr) % 2 ^ wordbits ∨ (b.size = 0 ∧ ptr = b.ptr) then some b
        else none
      else (deref h n.right).bind fun r =>
        if r.pre ≤ ptr &&& r.mask then findLoop h ptr fuel n.right n.left
        else (deref h n.left).bind fun l =>
          if l.pre ≤ ptr &&& l.mask then findLoop h ptr fuel n.left otherChoice
          else
            match otherChoice with
            | none => some none
            | some p => findLoop h ptr fuel (some p) none

/-- The block that contains an address, or `NULL`. -/
def btFindNode (t : Tree) (ptr : ℕ) : Option (Option Blk) :=
  if t.root = none ∨ ptr = 0 then some none else findLoop t.heap ptr (2 * (wordbits + 1)) t.root none

end FramaC.EAcsl.Bittree

/-! ## Shapes of the bittree

A shape says which node lies at which pointer. It is well formed when the addresses below the two children of a node
differ first at the node's bit `d`; the prefix of the node is the part of its address above that bit.
-/
namespace FramaC.EAcsl.Bittree

open CommonPrefix

inductive Shape where
  | leaf (p : ℕ) (b : Blk)
  | node (p a d : ℕ) (l r : Shape)

namespace Shape

def loc : Shape → ℕ
  | leaf p _ => p
  | node p _ _ _ _ => p

def level : Shape → ℕ
  | leaf _ _ => 0
  | node _ _ d _ _ => d + 1

def addr : Shape → ℕ
  | leaf _ b => b.ptr
  | node _ a _ _ _ => a

def blocks : Shape → List Blk
  | leaf _ b => [b]
  | node _ _ _ l r => l.blocks ++ r.blocks

def locs : Shape → List ℕ
  | leaf p _ => [p]
  | node p _ _ l r => p :: (l.locs ++ r.locs)

def toNode (par : Option ℕ) : Shape → Node
  | leaf _ b => newLeaf b par
  | node _ a d l r => ⟨false,a,keepFrom (d + 1),some l.loc,some r.loc,par,none⟩

def rest : Shape → List (ℕ × Node)
  | leaf _ _ => []
  | node p _ _ l r => (l.loc,l.toNode (some p)) :: l.rest ++ (r.loc,r.toNode (some p)) :: r.rest

def cells (par : Option ℕ) (t : Shape) : List (ℕ × Node) := (t.loc,t.toNode par) :: t.rest

/-- The heap holds the shape, its root hanging below `par`. -/
def Rep (h : ℕ → Option Node) (par : Option ℕ) (t : Shape) : Prop := ∀ c ∈ t.cells par, h c.1 = some c.2

def Wf : Shape → Prop
  | leaf _ b => b.ptr < 2 ^ wordbits
  | node _ a d l r => a < 2 ^ wordbits ∧ d < wordbits ∧ l.level ≤ d ∧ r.level ≤ d ∧
      l.addr / 2 ^ d = 2 * (a / 2 ^ (d + 1)) ∧ r.addr / 2 ^ d = 2 * (a / 2 ^ (d + 1)) + 1 ∧ l.Wf ∧ r.Wf

theorem toNode_node (par : Option ℕ) (p a d : ℕ) (l r : Shape) :
    (node p a d l r).toNode par = ⟨false,a,keepFrom (d + 1),some l.loc,some r.loc,par,none⟩ := rfl

theorem loc_node (p a d : ℕ) (l r : Shape) : (node p a d l r).loc = p := rfl

theorem cells_node (par : Option ℕ) (p a d : ℕ) (l r : Shape) :
    (node p a d l r).cells par =
      (p,(node p a d l r).toNode par) :: (l.cells (some p) ++ r.cells (some p)) := rfl

theorem rep_node {h : ℕ → Option Node} {par : Option ℕ} {p a d : ℕ} {l r : Shape} :
    (node p a d l r).Rep h par ↔
      h p = some ((node p a d l r).toNode par) ∧ l.Rep h (some p) ∧ r.Rep h (some p) := by
  simp only [Rep,cells_node,List.forall_mem_cons,List.forall_mem_append]

theorem Rep.self {h : ℕ → Option Node} {par : Option ℕ} {t : Shape} (ht : t.Rep h par) :
    h t.loc = some (t.toNode par) := ht _ List.mem_cons_self

theorem loc_mem_locs (t : Shape) : t.loc ∈ t.locs := by
  cases t with
  | leaf p b => exact List.mem_cons_self
  | node p a d l r => exact List.mem_cons_self

theorem cell_loc_mem {t : Shape} {par : Option ℕ} {c : ℕ × Node} (hc : c ∈ t.cells par) : c.1 ∈ t.locs := by
  induction t generalizing par with
  | leaf p b =>
    simp only [cells,rest,List.mem_singleton] at hc
    simp [hc,loc,locs]
  | node p a d l r ihl ihr =>
    rw [cells_node,List.mem_cons,List.mem_append] at hc
    rw [locs,List.mem_cons,List.mem_append]
    obtain rfl | hl | hr := hc
    · exact Or.inl rfl
    · exact Or.inr (Or.inl (ihl hl))
    · exact Or.inr (Or.inr (ihr hr))

theorem rest_loc_ne {t : Shape} (hnd : t.locs.Nodup) {c : ℕ × Node} (hc : c ∈ t.rest) : c.1 ≠ t.loc := by
  cases t with
  | leaf p b => cases hc
  | node p a d l r =>
    have hmem : c ∈ l.cells (some p) ++ r.cells (some p) := hc
    intro heq
    apply (List.nodup_cons.1 hnd).1
    rw [show p = c.1 from heq.symm,List.mem_append]
    exact (List.mem_append.1 hmem).imp cell_loc_mem cell_loc_mem

theorem Wf.addr_lt {t : Shape} (ht : t.Wf) : t.addr < 2 ^ wordbits := by
  cases t with
  | leaf p b => exact ht
  | node p a d l r => exact ht.1

theorem Wf.level_le {t : Shape} (ht : t.Wf) : t.level ≤ wordbits := by
  cases t with
  | leaf p b => exact Nat.zero_le _
  | node p a d l r => exact ht.2.1

theorem Wf.left_div {p a d : ℕ} {l r : Shape} (ht : (node p a d l r).Wf) :
    l.addr / 2 ^ (d + 1) = a / 2 ^ (d + 1) := by
  have h := ht.2.2.2.2.1
  rw [div_succ l.addr,h]
  omega

theorem Wf.right_div {p a d : ℕ} {l r : Shape} (ht : (node p a d l r).Wf) :
    r.addr / 2 ^ (d + 1) = a / 2 ^ (d + 1) := by
  have h := ht.2.2.2.2.2.1
  rw [div_succ r.addr,h]
  omega

theorem Wf.block_div {t : Shape} (ht : t.Wf) {b : Blk} (hb : b ∈ t.blocks) :
    b.ptr / 2 ^ t.level = t.addr / 2 ^ t.level := by
  induction t with
  | leaf p c =>
    rw [List.mem_singleton.1 hb]
    rfl
  | node p a d l r ihl ihr =>
    have hl := ht.left_div
    have hr := ht.right_div
    obtain ⟨ha,hd,hdl,hdr,hql,hqr,htl,htr⟩ := ht
    obtain hb | hb := List.mem_append.1 hb
    · exact (div_pow_mono (Nat.le_succ_of_le hdl) (ihl htl hb)).trans hl
    · exact (div_pow_mono (Nat.le_succ_of_le hdr) (ihr htr hb)).trans hr

theorem Wf.block_lt {t : Shape} (ht : t.Wf) {b : Blk} (hb : b ∈ t.blocks) : b.ptr < 2 ^ wordbits := by
  induction t with
  | leaf p c =>
    rw [List.mem_singleton.1 hb]
    exact ht
  | node p a d l r ihl ihr =>
    obtain ⟨ha,hd,hdl,hdr,hql,hqr,htl,htr⟩ := ht
    obtain hb | hb := List.mem_append.1 hb
    · exact ihl htl hb
    · exact ihr htr hb

theorem Wf.left_block_div {p a d : ℕ} {l r : Shape} (ht : (node p a d l r).Wf) {b : Blk} (hb : b ∈ l.blocks) :
    b.ptr / 2 ^ d = 2 * (a / 2 ^ (d + 1)) := by
  obtain ⟨ha,hd,hdl,hdr,hql,hqr,htl,htr⟩ := ht
  rw [← hql]
  exact div_pow_mono hdl (htl.block_div hb)

theorem Wf.right_block_div {p a d : ℕ} {l r : Shape} (ht : (node p a d l r).Wf) {b : Blk} (hb : b ∈ r.blocks) :
    b.ptr / 2 ^ d = 2 * (a / 2 ^ (d + 1)) + 1 := by
  obtain ⟨ha,hd,hdl,hdr,hql,hqr,htl,htr⟩ := ht
  rw [← hqr]
  exact div_pow_mono hdr (htr.block_div hb)

theorem Wf.left_lt_right {p a d : ℕ} {l r : Shape} (ht : (node p a d l r).Wf) {b c : Blk} (hb : b ∈ l.blocks)
    (hc : c ∈ r.blocks) : b.ptr < c.ptr := by
  have hbd := ht.left_block_div hb
  have hcd := ht.right_block_div hc
  apply lt_of_div_lt (k := d)
  omega

theorem blocks_ne_nil (t : Shape) : ∃ b, b ∈ t.blocks := by
  induction t with
  | leaf p b => exact ⟨b,List.mem_cons_self⟩
  | node p a d l r ihl ihr =>
    obtain ⟨b,hb⟩ := ihl
    exact ⟨b,List.mem_append_left _ hb⟩

-- the prefix of the node at the root of a shape

theorem Wf.mask_toNode (par : Option ℕ) (t : Shape) : (t.toNode par).mask = keepFrom t.level := by
  cases t with
  | leaf p b => rfl
  | node p a d l r => rfl

theorem addr_toNode (par : Option ℕ) (t : Shape) : (t.toNode par).addr = t.addr := by
  cases t with
  | leaf p b => rfl
  | node p a d l r => rfl

theorem Wf.pre_toNode {t : Shape} (ht : t.Wf) (par : Option ℕ) :
    (t.toNode par).pre = 2 ^ t.level * (t.addr / 2 ^ t.level) := by
  rw [Node.pre,Wf.mask_toNode,addr_toNode]
  exact and_keepFrom ht.addr_lt ht.level_le

theorem Wf.matches_iff {t : Shape} (ht : t.Wf) (par : Option ℕ) {p : ℕ} (hp : p < 2 ^ wordbits) :
    (t.toNode par).matches p = true ↔ t.addr / 2 ^ t.level = p / 2 ^ t.level := by
  rw [Node.matches,decide_eq_true_iff,ht.pre_toNode,Wf.mask_toNode,and_keepFrom hp ht.level_le]
  exact Nat.mul_right_inj (Nat.two_pow_pos _).ne'

theorem Wf.pre_le_iff {t : Shape} (ht : t.Wf) (par : Option ℕ) {p : ℕ} (hp : p < 2 ^ wordbits) :
    (t.toNode par).pre ≤ p &&& (t.toNode par).mask ↔ t.addr / 2 ^ t.level ≤ p / 2 ^ t.level := by
  rw [ht.pre_toNode,Wf.mask_toNode,and_keepFrom hp ht.level_le]
  exact Nat.mul_le_mul_left_iff (Nat.two_pow_pos _)

theorem Wf.pre_lt {t : Shape} (ht : t.Wf) (par : Option ℕ) : (t.toNode par).pre < 2 ^ wordbits := by
  rw [Node.pre,addr_toNode]
  exact Nat.lt_of_le_of_lt Nat.and_le_left ht.addr_lt

theorem Wf.pre_div {t : Shape} (ht : t.Wf) (par : Option ℕ) {k : ℕ} (hk : t.level ≤ k) :
    (t.toNode par).pre / 2 ^ k = t.addr / 2 ^ k := by
  obtain ⟨j,rfl⟩ := Nat.exists_eq_add_of_le hk
  rw [ht.pre_toNode,Nat.pow_add,← Nat.div_div_eq_div_mul,← Nat.div_div_eq_div_mul,
    Nat.mul_div_cancel_left _ (Nat.two_pow_pos _)]

theorem Wf.agreeLevel_le_iff {t : Shape} (ht : t.Wf) (par : Option ℕ) {k p : ℕ} (hk : t.level ≤ k) :
    agreeLevel (t.toNode par).pre p ≤ k ↔ t.addr / 2 ^ k = p / 2 ^ k := by
  rw [Bittree.agreeLevel_le_iff,ht.pre_div par hk]

theorem Wf.mask_pre {t : Shape} (ht : t.Wf) (par : Option ℕ) {p : ℕ} (hp : p < 2 ^ wordbits) :
    Bittree.mask (t.toNode par).pre p = keepFrom (agreeLevel (t.toNode par).pre p) :=
  mask_eq (ht.pre_lt par) hp

theorem Wf.agreeLevel_children {p a d : ℕ} {l r : Shape} (ht : (node p a d l r).Wf) (pl pr : Option ℕ) :
    agreeLevel (l.toNode pl).pre (r.toNode pr).pre = d + 1 := by
  have hl := ht.left_div
  have hr := ht.right_div
  obtain ⟨ha,hd,hdl,hdr,hql,hqr,htl,htr⟩ := ht
  apply le_antisymm
  · apply (htl.agreeLevel_le_iff pl (Nat.le_succ_of_le hdl)).2
    rw [htr.pre_div pr (Nat.le_succ_of_le hdr),hl,hr]
  · apply Nat.lt_of_not_le
    intro hle
    have heq := (htl.agreeLevel_le_iff pl hdl).1 hle
    rw [htr.pre_div pr hdr,hql,hqr] at heq
    omega

theorem Wf.mask_children {p a d : ℕ} {l r : Shape} (ht : (node p a d l r).Wf) (pl pr : Option ℕ) :
    Bittree.mask (l.toNode pl).pre (r.toNode pr).pre = keepFrom (d + 1) := by
  have heq := ht.agreeLevel_children pl pr
  obtain ⟨ha,hd,hdl,hdr,hql,hqr,htl,htr⟩ := ht
  rw [htl.mask_pre pl (htr.pre_lt pr),heq]

theorem keepFrom_lt_iff {j k : ℕ} (hj : j ≤ wordbits) (hk : k ≤ wordbits) : keepFrom k < keepFrom j ↔ j < k := by
  have hpow : 2 ^ j ≤ 2 ^ wordbits := Nat.pow_le_pow_right (by decide) hj
  have hpow' : 2 ^ k ≤ 2 ^ wordbits := Nat.pow_le_pow_right (by decide) hk
  have hiff : 2 ^ j < 2 ^ k ↔ j < k := Nat.pow_lt_pow_iff_right (by decide)
  have hpos := Nat.two_pow_pos j
  unfold keepFrom
  rw [← hiff]
  generalize 2 ^ wordbits = w at hpow hpow' ⊢
  omega

end Shape

end FramaC.EAcsl.Bittree
