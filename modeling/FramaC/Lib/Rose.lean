import FramaC.Lib.Comparison

/-! # Trees with labelled nodes

Trees whose nodes have a label and any number of children: equality, folds, and comparisons that follow the children.
-/
namespace FramaC

inductive Rose (L : Type) : Type
  | node (label : L) (children : List (Rose L))

namespace Rose
variable {L β : Type}

def label : Rose L → L
  | node l _ => l

def children : Rose L → List (Rose L)
  | node _ cs => cs

@[simp] theorem label_node (l : L) (cs : List (Rose L)) : (node l cs).label = l := rfl
@[simp] theorem children_node (l : L) (cs : List (Rose L)) : (node l cs).children = cs := rfl

mutual

def decEq [DecidableEq L] : (s t : Rose L) → Decidable (s = t)
  | node l cs, node m ds =>
    if h : l = m then
      match decEqList cs ds with
      | isTrue h' => isTrue (by rw [h,h'])
      | isFalse h' => isFalse fun heq => h' (node.inj heq).2
    else isFalse fun heq => h (node.inj heq).1

def decEqList [DecidableEq L] : (cs ds : List (Rose L)) → Decidable (cs = ds)
  | [], [] => isTrue rfl
  | [], _ :: _ => isFalse (by simp)
  | _ :: _, [] => isFalse (by simp)
  | c :: cs, d :: ds =>
    match decEq c d with
    | isTrue h =>
      match decEqList cs ds with
      | isTrue h' => isTrue (by rw [h,h'])
      | isFalse h' => isFalse fun heq => h' (List.cons.inj heq).2
    | isFalse h => isFalse fun heq => h (List.cons.inj heq).1

end

instance [DecidableEq L] : DecidableEq (Rose L) := decEq

@[elab_as_elim]
theorem induct {P : Rose L → Prop} (h : ∀ l cs, (∀ c ∈ cs, P c) → P (node l cs)) (t : Rose L) : P t :=
  @Rose.rec L P (fun cs => ∀ c ∈ cs, P c) h (by simp)
    (fun c cs hc hcs d hd => by
      rcases List.mem_cons.mp hd with rfl | hd
      · exact hc
      · exact hcs d hd) t

mutual

/-- The value of a node from its label and the values of the children. -/
def fold (f : L → List β → β) : Rose L → β
  | node l cs => f l (folds f cs)

def folds (f : L → List β → β) : List (Rose L) → List β
  | [] => []
  | c :: cs => fold f c :: folds f cs

end

theorem folds_eq_map (f : L → List β → β) (cs : List (Rose L)) : folds f cs = cs.map (fold f) := by
  induction cs with
  | nil => rfl
  | cons c cs ih => rw [folds,ih,List.map_cons]

@[simp] theorem fold_node (f : L → List β → β) (l : L) (cs : List (Rose L)) :
    fold f (node l cs) = f l (cs.map (fold f)) := by
  rw [fold,folds_eq_map]

def height : Rose L → ℕ := fold fun _ hs => hs.foldr max 0 + 1

theorem height_node (l : L) (cs : List (Rose L)) : (node l cs).height = (cs.map height).foldr max 0 + 1 :=
  fold_node _ l cs

theorem le_foldr_max {l : List ℕ} {n : ℕ} (h : n ∈ l) : n ≤ l.foldr max 0 := by
  induction l with
  | nil => cases h
  | cons m l ih =>
    rcases List.mem_cons.mp h with rfl | h
    · exact le_max_left _ _
    · exact (ih h).trans (le_max_right _ _)

theorem height_lt {l : L} {cs : List (Rose L)} {c : Rose L} (h : c ∈ cs) : c.height < (node l cs).height := by
  rw [height_node]
  exact Nat.lt_succ_of_le (le_foldr_max (List.mem_map_of_mem h))

/-- The comparison that calls itself through the argument of `step`, at most `n` calls deep. -/
def compareFuel (step : (Rose L → Rose L → Ordering) → Rose L → Rose L → Ordering) : ℕ → Rose L → Rose L → Ordering
  | 0 => fun _ _ => .eq
  | n + 1 => step (compareFuel step n)

def compareRec (step : (Rose L → Rose L → Ordering) → Rose L → Rose L → Ordering) (a b : Rose L) : Ordering :=
  compareFuel step a.height a b

/-- The step looks at the results for the children of the first tree only. -/
def StepOnChildren (step : (Rose L → Rose L → Ordering) → Rose L → Rose L → Ordering) : Prop :=
  ∀ phi psi a b, (∀ c ∈ a.children, ∀ d, phi c d = psi c d) → step phi a b = step psi a b

theorem compareFuel_eq {step : (Rose L → Rose L → Ordering) → Rose L → Rose L → Ordering} (hs : StepOnChildren step)
    {n m : ℕ} {a : Rose L} (hn : a.height ≤ n) (hm : a.height ≤ m) (b : Rose L) :
    compareFuel step n a b = compareFuel step m a b := by
  induction n generalizing m a b with
  | zero =>
    obtain ⟨l,cs⟩ := a
    rw [height_node] at hn
    omega
  | succ n ih =>
    cases m with
    | zero =>
      obtain ⟨l,cs⟩ := a
      rw [height_node] at hm
      omega
    | succ m =>
      refine hs _ _ a b fun c hc d => ?_
      obtain ⟨l,cs⟩ := a
      have hlt : c.height < (node l cs).height := height_lt hc
      exact ih (by omega) (by omega) d

theorem compareRec_eq {step : (Rose L → Rose L → Ordering) → Rose L → Rose L → Ordering} (hs : StepOnChildren step)
    (a b : Rose L) : compareRec step a b = step (compareRec step) a b := by
  have hsucc : compareRec step a b = compareFuel step (a.height + 1) a b := compareFuel_eq hs le_rfl (by omega) b
  rw [hsucc]
  refine hs _ _ a b fun c hc d => ?_
  obtain ⟨l,cs⟩ := a
  exact compareFuel_eq hs (height_lt hc).le le_rfl d

/-- Every node satisfies a property of its label and its number of children. -/
inductive Nodes (P : L → ℕ → Prop) : Rose L → Prop
  | node {l : L} {cs : List (Rose L)} : P l cs.length → (∀ c ∈ cs, Nodes P c) → Nodes P (node l cs)

namespace Nodes
variable {P : L → ℕ → Prop}

theorem label {t : Rose L} : Nodes P t → P t.label t.children.length
  | node h _ => h

theorem imp {Q : L → ℕ → Prop} (hPQ : ∀ l n, P l n → Q l n) {t : Rose L} (h : Nodes P t) : Nodes Q t := by
  induction h with
  | node hl _ ih => exact .node (hPQ _ _ hl) ih

theorem child {t c : Rose L} (h : Nodes P t) (hc : c ∈ t.children) : Nodes P c := by
  cases h with
  | node _ h => exact h c hc

end Nodes

def Closed (D : Set (Rose L)) : Prop := ∀ t ∈ D, ∀ c ∈ t.children, c ∈ D

theorem orderOn_of_children {cmp : Rose L → Rose L → Ordering} {D : Set (Rose L)} (hD : Closed D)
    (hstep : ∀ S ⊆ D, Comparison.OrderOn cmp S → Comparison.OrderOn cmp {t | t ∈ D ∧ ∀ c ∈ t.children, c ∈ S}) :
    Comparison.OrderOn cmp D := by
  have hlow : ∀ n, Comparison.OrderOn cmp {t | t ∈ D ∧ t.height ≤ n} := by
    intro n
    induction n with
    | zero =>
      have hnone : ∀ t : Rose L, ¬ t.height ≤ 0 := by
        rintro ⟨l,cs⟩ h
        rw [height_node] at h
        omega
      exact ⟨fun a ha => absurd ha.2 (hnone a),fun a ha => absurd ha.2 (hnone a)⟩
    | succ n ih =>
      refine (hstep _ (fun t ht => ht.1) ih).mono ?_
      rintro ⟨l,cs⟩ ⟨ht,hn⟩
      refine ⟨ht,fun c hc => ⟨hD _ ht c hc,?_⟩⟩
      exact Nat.le_of_lt_succ ((height_lt hc).trans_le hn)
  constructor
  · intro a ha b hb
    exact (hlow (max a.height b.height)).swap a ⟨ha,le_max_left _ _⟩ b ⟨hb,le_max_right _ _⟩
  · intro a ha b hb c hc
    exact (hlow (max a.height (max b.height c.height))).trans a ⟨ha,by simp⟩ b ⟨hb,by simp⟩ c ⟨hc,by simp⟩

end Rose
end FramaC
