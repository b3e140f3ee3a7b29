import Mathlib.Data.Finset.Card

/-! # Weak topological orders

Bourdoncle's algorithm on a graph given by its successors. The depth-first numbering is a table from
nodes to their status, the stack has its top first, and `visit` takes the depth of the recursion.
-/
namespace FramaC.Wto
variable {N : Type} [DecidableEq N]

/-- A node without self loop, or a head with the remaining components of its loop. -/
inductive Component (N : Type)
  | component (head : N) (body : List (Component N))
  | node (v : N)

abbrev Partition (N : Type) := List (Component N)

/-- The accumulator of `flatten` holds the nodes met so far, the last one first. -/
def flattenFrom (acc : List N) : Partition N → List N
  | [] => acc
  | .node v :: l => flattenFrom (v :: acc) l
  | .component v w :: l => flattenFrom (flattenFrom (v :: acc) w) l

@[grind =] def flatten (wto : Partition N) : List N := (flattenFrom [] wto).reverse

inductive Status
  | invisible
  | parent (level : ℕ)
  deriving DecidableEq

/-- The result of a visit: the vertex with the lowest level that the visited loops reach. -/
inductive Loop (N : Type)
  | noLoop
  | loop (head : N) (level : ℕ)
  deriving DecidableEq

def minLoop : Loop N → Loop N → Loop N
  | .noLoop, z => z
  | z, .noLoop => z
  | .loop x xi, .loop y yi => if xi ≤ yi then .loop x xi else .loop y yi

structure State (N : Type) where
  dfn : N → Option Status
  num : ℕ
  stack : List N

def State.replace (s : State N) (v : N) (st : Status) : State N := { s with dfn := Function.update s.dfn v (some st) }

def State.push (s : State N) (v : N) : State N :=
  { dfn := Function.update s.dfn v (some (.parent (s.num + 1))), num := s.num + 1, stack := v :: s.stack }

/-- `Stack.Empty` and failed assertions. -/
inductive Failure
  | empty
  | assertion
  deriving DecidableEq

/-- `none` when the recursion is deeper than allowed. -/
abbrev Run := ExceptT Failure Option

def State.pop (s : State N) : Run (State N) :=
  match s.stack with
  | [] => throw .empty
  | _ :: stack => pure { s with stack := stack }

/-- Pops until `vertex`, forgets the popped vertices and returns the preferred one. -/
def resetScc (pref : Option (N → N → ℤ)) (vertex : N) (dfn : N → Option Status) (num : ℕ) (bestHead : N) :
    List N → Run (State N × N)
  | [] => throw .empty
  | element :: stack =>
    let dfn := Function.update dfn element none
    if element ≠ vertex then
      let bestHead :=
        match pref with
        | some cmp => if cmp bestHead element < 0 then element else bestHead
        | none => bestHead
      resetScc pref vertex dfn num bestHead stack
    else pure (⟨dfn,num,stack⟩,bestHead)

/-- A visit of one vertex, from a state and the partition built so far. -/
abbrev Visit (N : Type) := State N → N → Partition N → Run (State N × Loop N × Partition N)

def visitSuccs (visit : Visit N) : State N → Loop N → Partition N → List N → Run (State N × Loop N × Partition N)
  | state, loop, partition, [] => pure (state,loop,partition)
  | state, loop, partition, succ :: succs => do
    let (state,loop',partition) ← visit state succ partition
    visitSuccs visit state (minLoop loop loop') partition succs

/-- Restarts the analysis of a component from the successors of its head. -/
def visitComponent (visit : Visit N) : State N → Partition N → List N → Run (State N × Partition N)
  | state, component, [] => pure (state,component)
  | state, component, succ :: succs => do
    let (state,loop,component) ← visit state succ component
    if loop = .noLoop then visitComponent visit state component succs else throw .assertion

@[grind =] def visit (pref : Option (N → N → ℤ)) (succs : N → List N) : ℕ → Visit N
  | 0 => fun _ _ _ => none
  | fuel + 1 => fun state vertex partition =>
    match state.dfn vertex with
    | some .invisible => pure (state,.noLoop,partition)
    | some (.parent i) => pure (state,.loop vertex i,partition)
    | none => do
      let (state,loop,partition) ←
        visitSuccs (visit pref succs fuel) (state.push vertex) .noLoop partition (succs vertex)
      match loop with
      | .noLoop =>
        let state ← state.pop
        pure (state.replace vertex .invisible,.noLoop,.node vertex :: partition)
      | .loop head _ =>
        if head = vertex then
          let (state,bestHead) ← resetScc pref vertex state.dfn state.num vertex state.stack
          let (state,component) ←
            visitComponent (visit pref succs fuel) (state.replace bestHead .invisible) [] (succs bestHead)
          pure (state,.noLoop,.component bestHead component :: partition)
        else pure (state,loop,partition)

/-- `partition ?pref ~init ~succs`, with recursive visits at most `fuel` deep. -/
def partition (fuel : ℕ) (pref : Option (N → N → ℤ)) (init : N) (succs : N → List N) : Run (Partition N) := do
  let (_,loop,component) ← visit pref succs fuel ⟨fun _ => none,0,[]⟩ init []
  if loop = .noLoop then pure component else throw .assertion

end FramaC.Wto

/-! ## What a weak topological order guarantees

An edge between two listed nodes goes forward, or back to the head of a component that contains its source.
-/
namespace FramaC.Wto
set_option linter.unusedSectionVars false
variable {N : Type} [DecidableEq N]

theorem flattenFrom_append_acc (acc acc' : List N) (wto : Partition N) :
    flattenFrom (acc ++ acc') wto = flattenFrom acc wto ++ acc' := by
  fun_induction flattenFrom acc wto with
  | case1 acc => rw [flattenFrom]
  | case2 acc v l ih =>
    rw [flattenFrom,← ih]
    rfl
  | case3 acc v w l ihw ihl =>
    rw [flattenFrom,← ihl,← ihw]
    rfl

theorem flattenFrom_eq (acc : List N) (wto : Partition N) : flattenFrom acc wto = (flatten wto).reverse ++ acc := by
  rw [flatten,List.reverse_reverse]
  exact flattenFrom_append_acc [] acc wto

@[simp] theorem flatten_nil : flatten ([] : Partition N) = [] := by
  rw [flatten,flattenFrom,List.reverse_nil]

@[simp] theorem flatten_node (v : N) (l : Partition N) : flatten (.node v :: l) = v :: flatten l := by
  rw [flatten,flattenFrom,flattenFrom_eq]
  simp

@[simp] theorem flatten_component (v : N) (w l : Partition N) :
    flatten (.component v w :: l) = v :: (flatten w ++ flatten l) := by
  rw [flatten,flattenFrom,flattenFrom_eq,flattenFrom_eq]
  simp

@[simp] theorem flatten_append (l l' : Partition N) : flatten (l ++ l') = flatten l ++ flatten l' := by
  induction l with
  | nil => simp
  | cons c l ih => cases c <;> simp [ih]

/-- `u` is listed strictly before `v`; in a list without duplicates this is their order. -/
def Before (u v : N) (l : List N) : Prop := ∃ l₁ l₂, l = l₁ ++ l₂ ∧ u ∈ l₁ ∧ v ∈ l₂

/-- `v` is the head of a component that contains `u`. -/
inductive HeadOf (v u : N) : Partition N → Prop
  | here (body rest : Partition N) (h : u = v ∨ u ∈ flatten body) : HeadOf v u (.component v body :: rest)
  | inside (head : N) (body rest : Partition N) (h : HeadOf v u body) : HeadOf v u (.component head body :: rest)
  | later (c : Component N) (rest : Partition N) (h : HeadOf v u rest) : HeadOf v u (c :: rest)

theorem Before.append {u v : N} {l₁ l₂ : List N} (hu : u ∈ l₁) (hv : v ∈ l₂) : Before u v (l₁ ++ l₂) :=
  ⟨l₁,l₂,rfl,hu,hv⟩

theorem Before.append_left {u v : N} {l : List N} (h : Before u v l) (l' : List N) : Before u v (l' ++ l) := by
  obtain ⟨l₁,l₂,rfl,hu,hv⟩ := h
  exact ⟨l' ++ l₁,l₂,(List.append_assoc _ _ _).symm,List.mem_append_right _ hu,hv⟩

theorem Before.append_right {u v : N} {l : List N} (h : Before u v l) (l' : List N) : Before u v (l ++ l') := by
  obtain ⟨l₁,l₂,rfl,hu,hv⟩ := h
  exact ⟨l₁,l₂ ++ l',List.append_assoc _ _ _,hu,List.mem_append_left _ hv⟩

theorem Before.cons {u v : N} {l : List N} (h : Before u v l) (x : N) : Before u v (x :: l) := h.append_left [x]

theorem Before.head {u v : N} {l : List N} (h : v ∈ l) : Before u v (u :: l) :=
  ⟨[u],l,rfl,List.mem_singleton_self u,h⟩

theorem Before.mem_right {u v : N} {l : List N} (h : Before u v l) : v ∈ l := by
  obtain ⟨l₁,l₂,rfl,-,hv⟩ := h
  exact List.mem_append_right _ hv

theorem Before.ne {u v : N} {l : List N} (h : Before u v l) (hl : l.Nodup) : u ≠ v := by
  obtain ⟨l₁,l₂,rfl,hu,hv⟩ := h
  rintro rfl
  exact (List.nodup_append.mp hl).2.2 _ hu _ hv rfl

theorem Before.trans {u v w : N} {l : List N} (hl : l.Nodup) (huv : Before u v l) (hvw : Before v w l) : Before u w l := by
  obtain ⟨l₁,l₂,rfl,hu,hv⟩ := huv
  obtain ⟨m₁,m₂,he,hv',hw⟩ := hvw
  rcases List.append_eq_append_iff.mp he with ⟨a,rfl,-⟩ | ⟨a,rfl,-⟩
  · exact ⟨l₁ ++ a,m₂,he,List.mem_append_left _ hu,hw⟩
  · exact absurd rfl ((List.nodup_append.mp hl).2.2 _ (List.mem_append_left _ hv') _ hv)

theorem HeadOf.mem {v u : N} {l : Partition N} (h : HeadOf v u l) : v ∈ flatten l := by
  induction h with
  | here body rest h => simp
  | inside head body rest h ih => simp [ih]
  | later c rest h ih => cases c <;> simp [ih]

theorem HeadOf.mem_source {v u : N} {l : Partition N} (h : HeadOf v u l) : u ∈ flatten l := by
  induction h with
  | here body rest h =>
    simp only [flatten_component,List.mem_cons,List.mem_append]
    exact h.imp_right .inl
  | inside head body rest h ih => simp [ih]
  | later c rest h ih => cases c <;> simp [ih]

theorem HeadOf.append_left {v u : N} {l : Partition N} (h : HeadOf v u l) (l' : Partition N) : HeadOf v u (l' ++ l) := by
  induction l' with
  | nil => exact h
  | cons c l' ih => exact .later c _ ih

theorem HeadOf.append_right {v u : N} {l : Partition N} (h : HeadOf v u l) (l' : Partition N) :
    HeadOf v u (l ++ l') := by
  induction h with
  | here body rest h => exact .here body _ h
  | inside head body rest h => exact .inside head body _ h
  | later c rest h ih => exact .later c _ ih

variable {succs : N → List N}

/-- Every edge from a listed node leads to the base, forward, or to a head. -/
def Ordered (succs : N → List N) (base : N → Prop) (wto : Partition N) : Prop :=
  ∀ u ∈ flatten wto, ∀ v ∈ succs u, base v ∨ Before u v (flatten wto) ∨ HeadOf v u wto

theorem Ordered.mem {base : N → Prop} {wto : Partition N} (h : Ordered succs base wto) {u v : N} (hu : u ∈ flatten wto)
    (hv : v ∈ succs u) : base v ∨ v ∈ flatten wto := by
  rcases h u hu v hv with hb | hb | hb
  · exact Or.inl hb
  · exact Or.inr hb.mem_right
  · exact Or.inr hb.mem

theorem Ordered.append {base base' : N → Prop} {new wto : Partition N} (h : Ordered succs base wto)
    (hn : Ordered succs base' new) (hb : ∀ v, base' v → base v ∨ v ∈ flatten wto) :
    Ordered succs base (new ++ wto) := by
  intro u hu v hv
  rw [flatten_append] at hu ⊢
  rcases List.mem_append.mp hu with hu | hu
  · rcases hn u hu v hv with h' | h' | h'
    · rcases hb v h' with h'' | h''
      · exact Or.inl h''
      · exact Or.inr (Or.inl (Before.append hu h''))
    · exact Or.inr (Or.inl (h'.append_right _))
    · exact Or.inr (Or.inr (h'.append_right _))
  · rcases h u hu v hv with h' | h' | h'
    · exact Or.inl h'
    · exact Or.inr (Or.inl (h'.append_left _))
    · exact Or.inr (Or.inr (h'.append_left _))

theorem Ordered.node {base : N → Prop} {v : N} (h : ∀ y ∈ succs v, base y) : Ordered succs base [.node v] := by
  intro u hu y hy
  rw [flatten_node,flatten_nil,List.mem_singleton] at hu
  subst hu
  exact Or.inl (h y hy)

theorem Ordered.component {base : N → Prop} {head : N} {body : Partition N}
    (hb : Ordered succs (fun v => base v ∨ v = head) body)
    (h : ∀ y ∈ succs head, base y ∨ y = head ∨ y ∈ flatten body) : Ordered succs base [.component head body] := by
  intro u hu y hy
  rw [flatten_component,flatten_nil,List.append_nil] at hu ⊢
  rcases List.mem_cons.mp hu with rfl | hu'
  · rcases h y hy with h' | rfl | h'
    · exact Or.inl h'
    · exact Or.inr (Or.inr (.here _ _ (Or.inl rfl)))
    · exact Or.inr (Or.inl (Before.head h'))
  · rcases hb u hu' y hy with (h' | h') | h' | h'
    · exact Or.inl h'
    · subst h'
      exact Or.inr (Or.inr (.here _ _ (Or.inr hu')))
    · exact Or.inr (Or.inl (h'.cons _))
    · exact Or.inr (Or.inr (.inside _ _ _ h'))

end FramaC.Wto
