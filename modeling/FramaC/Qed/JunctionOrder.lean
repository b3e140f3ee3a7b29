import FramaC.Qed.Junction

/-! # The order of the operands does not matter

Where the comparison of terms is a total order and negation is an involution on the operands, conjunctions and
disjunctions of the same operands are the same term.
-/
set_option linter.unusedSectionVars false
namespace FramaC.Qed
open Comparison COMPARE
variable {ADT Field Fun : Type}
variable [DecidableEq ADT] [DecidableEq Field] [DecidableEq Fun] [Ord ADT] [FieldSymbol Field] [FunSymbol Fun]
variable (tau : Term ADT Field Fun → Option (Tau ADT Field)) (externNot : Term ADT Field Fun → Term ADT Field Fun)

def atom (t : Term ADT Field Fun) : Term ADT Field Fun := if isProp t then atomMin tau t (externNot t) else t

def Clash (a b : Term ADT Field Fun) : Prop :=
  a ≠ b ∧ ((isProp a ∧ b = externNot a) ∨ (isProp b ∧ a = externNot b))

theorem compareRaisingAbsorbant_clash {a b : Term ADT Field Fun} (h : Clash externNot a b) :
    compareRaisingAbsorbant tau externNot a b = none := by
  unfold compareRaisingAbsorbant
  rw [if_neg h.1]
  dsimp only
  by_cases ha : isProp a ∧ b = if isProp a then externNot a else a
  · rw [if_pos ha]
  rw [if_neg ha]
  rcases h.2 with hab | hab
  · exact absurd ⟨hab.1,by rw [if_pos hab.1]; exact hab.2⟩ ha
  · rw [if_pos ⟨hab.1,by rw [if_pos hab.1]; exact hab.2⟩]

theorem compareRaisingAbsorbant_atom {a b : Term ADT Field Fun} (h : ¬ Clash externNot a b) :
    compareRaisingAbsorbant tau externNot a b =
      if a = b then some .eq else some (COMPARE.compare tau (atom tau externNot a) (atom tau externNot b)) := by
  unfold compareRaisingAbsorbant
  split
  · rfl
  next hab =>
    have ha : ¬ (isProp a ∧ b = if isProp a then externNot a else a) := by
      rintro ⟨hp,hb⟩
      rw [if_pos hp] at hb
      exact h ⟨hab,Or.inl ⟨hp,hb⟩⟩
    have hb : ¬ (isProp b ∧ a = if isProp b then externNot b else b) := by
      rintro ⟨hp,ha⟩
      rw [if_pos hp] at ha
      exact h ⟨hab,Or.inr ⟨hp,ha⟩⟩
    have hmin : ∀ t : Term ADT Field Fun, atomMin tau t (if isProp t then externNot t else t) = atom tau externNot t := by
      intro t
      unfold atom
      split
      · rfl
      · unfold atomMin
        split <;> rfl
    have hnot : ∀ t u : Term ADT Field Fun, t ≠ u → ¬ (isProp u ∧ t = if isProp u then externNot u else u) →
        t ≠ if isProp u then externNot u else u := by
      intro t u htu hu heq
      by_cases hp : isProp u
      · exact hu ⟨hp,heq⟩
      · rw [if_neg hp] at heq
        exact htu heq
    have hor : ¬ (a = (if isProp b then externNot b else b) ∨ (if isProp a then externNot a else a) = b) := by
      rintro (heq | heq)
      · exact hnot a b hab hb heq
      · exact hnot b a (Ne.symm hab) ha heq.symm
    dsimp only
    rw [if_neg ha,if_neg hb,if_neg hor,hmin,hmin]

/-- A closed operand whose negation is another one, and negates back. -/
structure Negates (D : Set (Term ADT Field Fun)) (t : Term ADT Field Fun) : Prop where
  mem : t ∈ D
  closed : LcClosed t
  not_mem : isProp t → externNot t ∈ D
  not_closed : isProp t → LcClosed (externNot t)
  not_prop : isProp t → isProp (externNot t)
  not_not : isProp t → externNot (externNot t) = t

section Order
variable {tau externNot}
variable {D : Set (Term ADT Field Fun)}

theorem Negates.atom_mem {t : Term ADT Field Fun} (h : Negates externNot D t) : atom tau externNot t ∈ D := by
  unfold atom atomMin
  split
  · next hp =>
    split
    · exact h.not_mem hp
    · exact h.mem
  · exact h.mem

theorem Negates.atom_closed {t : Term ADT Field Fun} (h : Negates externNot D t) : LcClosed (atom tau externNot t) := by
  unfold atom atomMin
  split
  · next hp =>
    split
    · exact h.not_closed hp
    · exact h.closed
  · exact h.closed

variable (tau externNot) in
theorem atom_cases (t : Term ADT Field Fun) :
    atom tau externNot t = t ∨ isProp t ∧ atom tau externNot t = externNot t := by
  unfold atom atomMin
  split
  · next hp =>
    split
    · exact Or.inr ⟨hp,rfl⟩
    · exact Or.inl rfl
  · exact Or.inl rfl

variable [Std.TransOrd Field] [Std.TransOrd ADT] [Std.TransOrd Fun]
variable [Std.LawfulEqOrd Field] [Std.LawfulEqOrd ADT] [Std.LawfulEqOrd Fun]

theorem atom_not (hD : IsState D) (horder : OrderOn (COMPARE.compare tau) D) {t : Term ADT Field Fun}
    (h : Negates externNot D t) (hp : isProp t) (hne : t ≠ externNot t) :
    atom tau externNot (externNot t) = atom tau externNot t := by
  rw [atom,atom,if_pos hp,if_pos (h.not_prop hp),h.not_not hp,atomMin,atomMin,
    horder.swap t h.mem _ (h.not_mem hp)]
  cases hc : COMPARE.compare tau t (externNot t) with
  | lt => rfl
  | gt => rfl
  | eq => exact absurd (eq_of_compare tau hD h.mem (h.not_mem hp) h.closed (h.not_closed hp) hc) hne

theorem raising (hD : IsState D) (horder : OrderOn (COMPARE.compare tau) D) :
    Raising (compareRaisingAbsorbant tau externNot)
      (fun a b => COMPARE.compare tau (atom tau externNot a) (atom tau externNot b)) (Clash externNot)
      {t | Negates externNot D t} where
  order := horder.comap (atom tau externNot) fun t ht => ht.atom_mem
  raises a _ b _ hab := compareRaisingAbsorbant_clash tau externNot hab
  compares a ha b hb hab := by
    rw [compareRaisingAbsorbant_atom tau externNot hab]
    split
    · next heq =>
      subst heq
      rw [horder.self ha.atom_mem]
    · rfl
  identity a ha b hb hab hc := by
    have heq := eq_of_compare tau hD ha.atom_mem hb.atom_mem ha.atom_closed hb.atom_closed hc
    by_contra hne
    rcases atom_cases tau externNot a with h1 | ⟨hp1,h1⟩ <;>
      rcases atom_cases tau externNot b with h2 | ⟨hp2,h2⟩ <;> rw [h1,h2] at heq
    · exact hne heq
    · exact hab ⟨hne,Or.inr ⟨hp2,heq⟩⟩
    · exact hab ⟨hne,Or.inl ⟨hp1,heq.symm⟩⟩
    · exact hne (by rw [← ha.not_not hp1,heq,hb.not_not hp2])
  clash_eq a ha b hb hab := by
    have hatom : atom tau externNot a = atom tau externNot b := by
      obtain ⟨hne,⟨hp,rfl⟩ | ⟨hp,rfl⟩⟩ := hab
      · exact (atom_not hD horder ha hp hne).symm
      · exact atom_not hD horder hb hp (Ne.symm hne)
    simp only [hatom]
    exact horder.self hb.atom_mem
  clash_ne a b hab := hab.1

end Order

def NegatedOperands (D : Set (Term ADT Field Fun))
    (fold : List (Term ADT Field Fun) → List (Term ADT Field Fun) → Option (List (Term ADT Field Fun)))
    (ts : List (Term ADT Field Fun)) : Prop :=
  ∀ ms, fold [] ts = some ms → ∀ t ∈ ms, Negates externNot D t

/-- Conjunctions and disjunctions of the same operands are the same, where negation is an involution. -/
def Commutes (D : Set (Term ADT Field Fun)) (ts ts' : List (Term ADT Field Fun)) : Prop :=
  (NegatedOperands externNot D foldAnd ts → eAnd tau externNot ts = eAnd tau externNot ts') ∧
    (NegatedOperands externNot D foldOr ts → eOr tau externNot ts = eOr tau externNot ts')

section Permutations
variable {tau externNot}
variable {D : Set (Term ADT Field Fun)}
variable [Std.TransOrd Field] [Std.TransOrd ADT] [Std.TransOrd Fun]
variable [Std.LawfulEqOrd Field] [Std.LawfulEqOrd ADT] [Std.LawfulEqOrd Fun]

theorem sortUniq_operands (hD : IsState D) (horder : OrderOn (COMPARE.compare tau) D)
    {absorbant neutral connective : Repr ADT Field Fun} {ts ts' : List (Term ADT Field Fun)} (h : ts.Perm ts')
    (hneg : NegatedOperands externNot D (foldTerms absorbant neutral connective) ts) :
    (foldTerms absorbant neutral connective [] ts).bind (sortUniq (compareRaisingAbsorbant tau externNot)) =
      (foldTerms absorbant neutral connective [] ts').bind (sortUniq (compareRaisingAbsorbant tau externNot)) := by
  have hsame : SameOperands (foldTerms absorbant neutral connective [] ts) (foldTerms absorbant neutral connective [] ts') :=
    foldTerms_perm h fun _ => Iff.rfl
  cases h1 : foldTerms absorbant neutral connective [] ts <;>
    cases h2 : foldTerms absorbant neutral connective [] ts' <;> rw [h1,h2] at hsame
  · cases hsame
  · cases hsame
  · exact (raising hD horder).sortUniq_congr (hneg _ h1) hsame

theorem conjunction_eq (ts : List (Term ADT Field Fun)) : conjunction tau externNot ts =
    match (foldAnd [] ts).bind (sortUniq (compareRaisingAbsorbant tau externNot)) with
    | none => eFalse
    | some ms => cAnd ms := by
  unfold conjunction
  cases foldAnd [] ts <;> rfl

theorem disjunction_eq (ts : List (Term ADT Field Fun)) : disjunction tau externNot ts =
    match (foldOr [] ts).bind (sortUniq (compareRaisingAbsorbant tau externNot)) with
    | none => eTrue
    | some ms => cOr ms := by
  unfold disjunction
  cases foldOr [] ts <;> rfl

theorem commutes (hD : IsState D) (horder : OrderOn (COMPARE.compare tau) D) {ts ts' : List (Term ADT Field Fun)}
    (h : ts.Perm ts') : Commutes tau externNot D ts ts' := by
  have hlength := h.length_eq
  match ts, ts', hlength, h with
  | [], [], _, _ => exact ⟨fun _ => rfl,fun _ => rfl⟩
  | [t], [t'], _, h =>
    have heq : t = t' := by simpa using h
    subst heq
    exact ⟨fun _ => rfl,fun _ => rfl⟩
  | t :: u :: ts, t' :: u' :: ts', _, h =>
    constructor
    · intro hneg
      have hops := sortUniq_operands hD horder h hneg
      show conjunction tau externNot _ = conjunction tau externNot _
      rw [conjunction_eq,conjunction_eq]
      exact congrArg (fun o : Option (List (Term ADT Field Fun)) => match o with
        | none => eFalse
        | some ms => cAnd ms) hops
    · intro hneg
      have hops := sortUniq_operands hD horder h hneg
      show disjunction tau externNot _ = disjunction tau externNot _
      rw [disjunction_eq,disjunction_eq]
      exact congrArg (fun o : Option (List (Term ADT Field Fun)) => match o with
        | none => eTrue
        | some ms => cOr ms) hops

end Permutations

/-- The terms of a state are in a total order, closed ones that compare equal are identical, and the order of the
operands of conjunctions and disjunctions does not matter. -/
structure Ordered (D : Set (Term ADT Field Fun)) : Prop where
  order : OrderOn (COMPARE.compare tau) D
  identity : ∀ a ∈ D, ∀ b ∈ D, LcClosed a → LcClosed b → (COMPARE.compare tau a b = .eq ↔ a = b)
  commutes : ∀ externNot ts ts', ts.Perm ts' → Commutes tau externNot D ts ts'

def closedTerms (D : Set (Term ADT Field Fun)) : Set (Term ADT Field Fun) := {t | t ∈ D ∧ LcClosed t}

section Cycle

local instance three_neZero : NeZero 3 := ⟨by decide⟩

local instance orderFieldSymbol : FieldSymbol ℕ := { instOrdNat with sort := fun _ => .int }

/-- A predicate without arguments, a number, and an operator whose values are propositions. -/
local instance orderFunSymbol : FunSymbol (Fin 3) :=
  { (inferInstance : Ord (Fin 3)) with
    category := fun f => if f = 2 then .operator ⟨false,false,false,false,.none,.none⟩ else .function
    sort := fun f => if f = 1 then .int else .bool }

abbrev SampleTerm := Term ℕ ℕ (Fin 3)

def samplePredicate : SampleTerm := .node (.func 0) []
def sampleNumber : SampleTerm := .node (.func 1) []
def sampleZero : SampleTerm := .node (.kint 0) []
def sampleEquality : SampleTerm := .node .eq [sampleNumber,sampleZero]
def sampleOperator : SampleTerm := .node (.func 2) [sampleNumber,sampleZero]

def sampleNot : SampleTerm → SampleTerm
  | .node .eq xs => .node .neq xs
  | .node .neq xs => .node .eq xs
  | .node .not [t] => t
  | t => .node .not [t]

def sampleTerms : List SampleTerm := [samplePredicate,sampleNumber,sampleZero,sampleEquality,sampleOperator]

theorem sampleTerms_forall {P : SampleTerm → Prop} (hpredicate : P samplePredicate) (hnumber : P sampleNumber)
    (hzero : P sampleZero) (hequality : P sampleEquality) (hoperator : P sampleOperator) : ∀ t ∈ sampleTerms, P t := by
  simp only [sampleTerms,List.forall_mem_cons,List.not_mem_nil,false_implies,implies_true,and_true]
  exact ⟨hpredicate,hnumber,hzero,hequality,hoperator⟩

theorem sampleTerms_wellFormed : ∀ t ∈ sampleTerms, WellFormed t := by
  have hconst : ∀ f : Fin 3, WellFormed (.node (.func f) [] : SampleTerm) := fun f => .node trivial (by simp)
  have hzero : WellFormed sampleZero := .node rfl (by simp)
  have hargs : ∀ c ∈ [sampleNumber,sampleZero], WellFormed c := by
    simp only [List.forall_mem_cons,List.not_mem_nil,false_implies,implies_true,and_true]
    exact ⟨hconst 1,hzero⟩
  exact sampleTerms_forall (hconst 0) (hconst 1) hzero (.node rfl hargs) (.node trivial hargs)

theorem sampleTerms_closed : ∀ t ∈ sampleTerms, LcClosed t := by
  have hconst : ∀ f : Fin 3, LcClosed (.node (.func f) [] : SampleTerm) := fun f => .node (by simp) (by simp) (by simp)
  have hzero : LcClosed sampleZero := .node (by simp) (by simp) (by simp)
  have hargs : ∀ c ∈ [sampleNumber,sampleZero], LcClosed c := by
    simp only [List.forall_mem_cons,List.not_mem_nil,false_implies,implies_true,and_true]
    exact ⟨hconst 1,hzero⟩
  exact sampleTerms_forall (hconst 0) (hconst 1) hzero (.node (by simp) (by simp) hargs) (.node (by simp) (by simp) hargs)

theorem sampleTerms_isState : IsState {t | t ∈ sampleTerms} where
  closed := by
    show ∀ t ∈ sampleTerms, ∀ c ∈ t.children, c ∈ sampleTerms
    decide
  wellFormed := sampleTerms_wellFormed
  variables_inj y z hy := absurd hy (by simp [sampleTerms,samplePredicate,sampleNumber,sampleZero,sampleEquality,
    sampleOperator])

end Cycle
end FramaC.Qed
