import FramaC.EAcsl.Bittree.Tree

/-! # Contexts of a subtree

A context is the list of the nodes above a subtree, innermost first, each with its other child. What an update does to
a subtree carries over to the whole shape when the innermost node sees the same prefix.
-/
namespace FramaC.EAcsl.Bittree

open CommonPrefix

/-- A node one child of which is missing, the right one when `right` holds. -/
structure Frame where
  loc : ℕ
  addr : ℕ
  d : ℕ
  right : Bool
  other : Shape

namespace Frame

def fill (f : Frame) (s : Shape) : Shape :=
  if f.right then .node f.loc f.addr f.d f.other s else .node f.loc f.addr f.d s f.other

/-- The node, for a missing child at pointer `hole`. -/
def toNode (f : Frame) (par : Option ℕ) (hole : ℕ) : Node :=
  if f.right then ⟨false,f.addr,keepFrom (f.d + 1),some f.other.loc,some hole,par,none⟩
  else ⟨false,f.addr,keepFrom (f.d + 1),some hole,some f.other.loc,par,none⟩

@[simp] theorem fill_loc (f : Frame) (s : Shape) : (f.fill s).loc = f.loc := by
  unfold fill
  split <;> rfl

@[simp] theorem fill_addr (f : Frame) (s : Shape) : (f.fill s).addr = f.addr := by
  unfold fill
  split <;> rfl

@[simp] theorem fill_level (f : Frame) (s : Shape) : (f.fill s).level = f.d + 1 := by
  unfold fill
  split <;> rfl

theorem fill_toNode (f : Frame) (par : Option ℕ) (s : Shape) : (f.fill s).toNode par = f.toNode par s.loc := by
  unfold fill toNode
  split <;> rfl

theorem fill_rest (f : Frame) (s : Shape) (c : ℕ × Node) :
    c ∈ (f.fill s).rest ↔ c ∈ f.other.cells (some f.loc) ∨ c ∈ s.cells (some f.loc) := by
  unfold fill
  split
  · exact List.mem_append
  · exact List.mem_append.trans or_comm

theorem fill_locs (f : Frame) (s : Shape) : (f.fill s).locs.Perm (f.loc :: (f.other.locs ++ s.locs)) := by
  unfold fill
  split
  · exact List.Perm.refl _
  · exact List.Perm.cons _ List.perm_append_comm

theorem fill_blocks (f : Frame) (s : Shape) : (f.fill s).blocks.Perm (f.other.blocks ++ s.blocks) := by
  unfold fill
  split
  · exact List.Perm.refl _
  · exact List.perm_append_comm

/-- The bit that the missing child has at position `d`. -/
def bit (f : Frame) : ℕ := if f.right then 1 else 0

theorem fill_wf_iff (f : Frame) (s : Shape) : (f.fill s).Wf ↔
    f.addr < 2 ^ wordbits ∧ f.d < wordbits ∧ f.other.level ≤ f.d ∧ s.level ≤ f.d ∧
      f.other.addr / 2 ^ f.d = 2 * (f.addr / 2 ^ (f.d + 1)) + (1 - f.bit) ∧
      s.addr / 2 ^ f.d = 2 * (f.addr / 2 ^ (f.d + 1)) + f.bit ∧ f.other.Wf ∧ s.Wf := by
  unfold fill bit
  cases f.right with
  | true =>
    simp only [if_true,Shape.Wf]
    constructor
    · rintro ⟨ha,hd,hl,hr,hql,hqr,hwl,hwr⟩
      exact ⟨ha,hd,hl,hr,by omega,by omega,hwl,hwr⟩
    · rintro ⟨ha,hd,hl,hr,hql,hqr,hwl,hwr⟩
      exact ⟨ha,hd,hl,hr,by omega,by omega,hwl,hwr⟩
  | false =>
    simp only [Bool.false_eq_true,if_false,Shape.Wf]
    constructor
    · rintro ⟨ha,hd,hl,hr,hql,hqr,hwl,hwr⟩
      exact ⟨ha,hd,hr,hl,by omega,by omega,hwr,hwl⟩
    · rintro ⟨ha,hd,hl,hr,hql,hqr,hwl,hwr⟩
      exact ⟨ha,hd,hr,hl,by omega,by omega,hwr,hwl⟩

theorem other_div {f : Frame} {s : Shape} (hf : (f.fill s).Wf) :
    f.other.addr / 2 ^ (f.d + 1) = f.addr / 2 ^ (f.d + 1) := by
  obtain ⟨ha,hd,hl,hr,hql,hqr,hwl,hwr⟩ := (f.fill_wf_iff s).1 hf
  have hbit : f.bit ≤ 1 := by
    unfold bit
    split <;> omega
  rw [div_succ f.other.addr,hql]
  omega

end Frame

def plug : List Frame → Shape → Shape
  | [],s => s
  | f :: c,s => plug c (f.fill s)

def ctxParent : List Frame → Option ℕ
  | [] => none
  | f :: _ => some f.loc

/-- The nodes of a context, for a subtree at pointer `hole`. -/
def ctxCells : List Frame → ℕ → List (ℕ × Node)
  | [],_ => []
  | f :: c,hole => (f.loc,f.toNode (ctxParent c) hole) :: (f.other.cells (some f.loc) ++ ctxCells c f.loc)

def ctxLocs : List Frame → List ℕ
  | [] => []
  | f :: c => f.loc :: (f.other.locs ++ ctxLocs c)

def ctxBlocks : List Frame → List Blk
  | [] => []
  | f :: c => f.other.blocks ++ ctxBlocks c

theorem mem_cells_plug (ctx : List Frame) (s : Shape) (c : ℕ × Node) :
    c ∈ (plug ctx s).cells none ↔ c ∈ ctxCells ctx s.loc ∨ c ∈ s.cells (ctxParent ctx) := by
  induction ctx generalizing s with
  | nil => simp [plug,ctxCells,ctxParent]
  | cons f ctx ih =>
    rw [plug,ih,Shape.cells,List.mem_cons,Frame.fill_rest,Frame.fill_toNode,Frame.fill_loc,ctxCells,List.mem_cons,
      List.mem_append,ctxParent]
    tauto

theorem plug_locs (ctx : List Frame) (s : Shape) : (plug ctx s).locs.Perm (ctxLocs ctx ++ s.locs) := by
  induction ctx generalizing s with
  | nil => exact List.Perm.refl _
  | cons f ctx ih =>
    apply (ih (f.fill s)).trans
    apply ((f.fill_locs s).append_left (ctxLocs ctx)).trans
    simp only [ctxLocs,List.cons_append,List.append_assoc]
    apply List.perm_middle.trans
    apply List.Perm.cons
    rw [← List.append_assoc,← List.append_assoc]
    exact List.Perm.append_right s.locs List.perm_append_comm

theorem plug_blocks (ctx : List Frame) (s : Shape) : (plug ctx s).blocks.Perm (ctxBlocks ctx ++ s.blocks) := by
  induction ctx generalizing s with
  | nil => exact List.Perm.refl _
  | cons f ctx ih =>
    apply (ih (f.fill s)).trans
    apply ((f.fill_blocks s).append_left (ctxBlocks ctx)).trans
    simp only [ctxBlocks]
    rw [← List.append_assoc]
    exact List.Perm.append_right s.blocks List.perm_append_comm

theorem wf_of_plug {ctx : List Frame} {s : Shape} (h : (plug ctx s).Wf) : s.Wf := by
  induction ctx generalizing s with
  | nil => exact h
  | cons f ctx ih => exact ((f.fill_wf_iff s).1 (ih h)).2.2.2.2.2.2.2

/-- The innermost node of the context sees the same prefix in both subtrees. -/
def Fits (ctx : List Frame) (s s' : Shape) : Prop :=
  ∀ f ∈ ctx.head?, s'.level ≤ f.d ∧ s'.addr / 2 ^ f.d = s.addr / 2 ^ f.d

theorem wf_plug_of_fits {ctx : List Frame} {s s' : Shape} (h : (plug ctx s).Wf) (hs' : s'.Wf) (hfit : Fits ctx s s') :
    (plug ctx s').Wf := by
  induction ctx generalizing s s' with
  | nil => exact hs'
  | cons f ctx ih =>
    have hfill := wf_of_plug (show (plug ctx (f.fill s)).Wf from h)
    obtain ⟨hlev,haddr⟩ := hfit f rfl
    have hfill' : (f.fill s').Wf := by
      obtain ⟨ha,hd,hl,hr,hql,hqr,hwl,hwr⟩ := (f.fill_wf_iff s).1 hfill
      exact (f.fill_wf_iff s').2 ⟨ha,hd,hl,hlev,hql,haddr.trans hqr,hwl,hs'⟩
    apply ih h hfill'
    intro g hg
    cases ctx with
    | nil => cases hg
    | cons g' ctx =>
      cases hg
      have hg := wf_of_plug (show (plug ctx (g.fill (f.fill s))).Wf from h)
      obtain ⟨ha,hd,hl,hr,hql,hqr,hwl,hwr⟩ := (g.fill_wf_iff (f.fill s)).1 hg
      simp only [Frame.fill_level,Frame.fill_addr] at hr ⊢
      exact ⟨hr,trivial⟩

theorem ctxCells_loc_mem {ctx : List Frame} {hole : ℕ} {c : ℕ × Node} (hc : c ∈ ctxCells ctx hole) :
    c.1 ∈ ctxLocs ctx := by
  induction ctx generalizing hole with
  | nil => cases hc
  | cons f ctx ih =>
    simp only [ctxCells,List.mem_cons,List.mem_append] at hc
    simp only [ctxLocs,List.mem_cons,List.mem_append]
    obtain rfl | hother | hrest := hc
    · exact Or.inl rfl
    · exact Or.inr (Or.inl (Shape.cell_loc_mem hother))
    · exact Or.inr (Or.inr (ih hrest))

theorem rep_plug_iff {h : ℕ → Option Node} {ctx : List Frame} {s : Shape} :
    (plug ctx s).Rep h none ↔ (∀ c ∈ ctxCells ctx s.loc, h c.1 = some c.2) ∧ s.Rep h (ctxParent ctx) := by
  unfold Shape.Rep
  simp only [mem_cells_plug]
  exact ⟨fun h => ⟨fun c hc => h c (Or.inl hc),fun c hc => h c (Or.inr hc)⟩,fun h c hc => hc.elim (h.1 c) (h.2 c)⟩

theorem loc_plug_of_ne_nil {ctx : List Frame} (hctx : ctx ≠ []) (s s' : Shape) : (plug ctx s).loc = (plug ctx s').loc := by
  induction ctx generalizing s s' with
  | nil => exact absurd rfl hctx
  | cons f ctx ih =>
    cases ctx with
    | nil => simp [plug]
    | cons g ctx => exact ih (List.cons_ne_nil g ctx) _ _

end FramaC.EAcsl.Bittree
