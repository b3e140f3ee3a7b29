import FramaC.Qed.Junction

/-! # Consequences of hypotheses

The simplification of a term under hypotheses of `term.ml`, and the implications that it builds. The exception
`Absorbant` is `none`. A list that the filter returns is physically the one it was given unless it is marked.
-/
set_option linter.unusedSectionVars false
namespace FramaC.Qed
open Comparison
variable {ADT Field Fun : Type}
variable [DecidableEq ADT] [DecidableEq Field] [DecidableEq Fun] [Ord ADT] [FieldSymbol Field] [FunSymbol Fun]

def cImply (hs : List (Term ADT Field Fun)) (p : Term ADT Field Fun) : Term ADT Field Fun :=
  match hs with
  | [] => p
  | hs => .node .imply (p :: hs)

namespace Consequence

inductive Polarity
  | conj
  | disj
  deriving DecidableEq

variable (ADT Field Fun) in
structure Filtered where
  modif : Bool
  terms : List (Term ADT Field Fun)
  deriving DecidableEq

def Filtered.mark (w : Filtered ADT Field Fun) : Filtered ADT Field Fun := { w with modif := true }

def Filtered.cons (t : Term ADT Field Fun) (w : Filtered ADT Field Fun) : Filtered ADT Field Fun :=
  { w with terms := t :: w.terms }

/-- Filter a list with one hypothesis. `gen` goes on with the others. -/
def aux (cmp : Term ADT Field Fun → Term ADT Field Fun → Ordering) (absorb filter : Term ADT Field Fun)
    (gen : List (Term ADT Field Fun) → Option (Filtered ADT Field Fun)) :
    List (Term ADT Field Fun) → Option (Filtered ADT Field Fun)
  | [] => some ⟨false,[]⟩
  | t :: tws =>
    if absorb = t then none
    else
      match cmp filter t with
      | .lt => gen (t :: tws)
      | .gt => (aux cmp absorb filter gen tws).map fun w => (w.cons t).mark
      | .eq => (gen tws).map Filtered.mark

def gen (cmp : Term ADT Field Fun → Term ADT Field Fun → Ordering) (not : Term ADT Field Fun → Term ADT Field Fun)
    (polarity : Polarity) : List (Term ADT Field Fun) → List (Term ADT Field Fun) → Option (Filtered ADT Field Fun)
  | [], ts => some ⟨false,ts⟩
  | h :: hws, ts =>
    match polarity with
    | .conj => aux cmp (not h) h (gen cmp not polarity hws) ts
    | .disj => aux cmp h (not h) (gen cmp not polarity hws) ts

end Consequence

open Consequence

section Consequence
variable (E : Externs ADT Field Fun) (depth : ℕ)

/-- `depth` is the one of the calls through `extern_not`. -/
def Consequence.filter (polarity : Polarity) (hs ts : List (Term ADT Field Fun)) : Option (Filtered ADT Field Fun) :=
  (gen (compare E.tau (eNot E depth)) (eNot E (depth + 1)) polarity hs ts).map fun w =>
    if w.modif then w else ⟨false,ts⟩

def consequenceAnd : List (Term ADT Field Fun) → List (Term ADT Field Fun) → Option (Filtered ADT Field Fun) :=
  Consequence.filter E depth .conj

def consequenceOr : List (Term ADT Field Fun) → List (Term ADT Field Fun) → Option (Filtered ADT Field Fun) :=
  Consequence.filter E depth .disj

def merge (hs hs0 : List (Term ADT Field Fun)) : Option (List (Term ADT Field Fun)) :=
  sortUniq (compareRaisingAbsorbant E.tau (eNot E depth)) (hs ++ hs0)

def implicationFalse (hs : List (Term ADT Field Fun)) : Term ADT Field Fun := eNot E (depth + 1) (cAnd hs)

section Implication
variable (implication : List (Term ADT Field Fun) → Term ADT Field Fun → Term ADT Field Fun)

def implicationAnd (hs0 hs : List (Term ADT Field Fun)) (b0 : Term ADT Field Fun) (bs : List (Term ADT Field Fun)) :
    Term ADT Field Fun :=
  match merge E depth hs0 hs with
  | none => eTrue
  | some hs' =>
    match consequenceAnd E depth hs bs with
    | none => implicationFalse E depth hs'
    | some w =>
      match w.terms with
      | [] => eTrue
      | [b] => implication hs' b
      | bs' => cImply hs' (if w.modif then cAnd bs' else b0)

def implicationOr (hs0 hs : List (Term ADT Field Fun)) (b0 : Term ADT Field Fun) (bs : List (Term ADT Field Fun)) :
    Term ADT Field Fun :=
  match merge E depth hs0 hs with
  | none => eTrue
  | some hs' =>
    match consequenceOr E depth hs bs with
    | none => eTrue
    | some w =>
      match w.terms with
      | [] => implicationFalse E depth hs'
      | [b] => implication hs' b
      | bs' => cImply hs' (if w.modif then cOr bs' else b0)

/-- The implication of the conclusion of an implication, with the hypotheses of both. -/
def implicationConclusion (hs0 hs : List (Term ADT Field Fun)) (b0 : Term ADT Field Fun) : Term ADT Field Fun :=
  match b0 with
  | .node .and bs => implicationAnd E depth implication hs0 hs b0 bs
  | .node .or bs => implicationOr E depth implication hs0 hs b0 bs
  | _ =>
    match merge E depth hs0 hs with
    | none => eTrue
    | some hs' => cImply hs' b0

def implicationImply (hs : List (Term ADT Field Fun)) (b : Term ADT Field Fun) (hs0 : List (Term ADT Field Fun))
    (b0 : Term ADT Field Fun) : Term ADT Field Fun :=
  match consequenceAnd E depth hs [b0] with
  | none =>
    match merge E depth hs hs0 with
    | none => eTrue
    | some hs' => implicationFalse E depth hs'
  | some w =>
    match w.terms with
    | [] => eTrue
    | _ =>
      match consequenceAnd E depth hs0 hs with
      | none => eTrue
      | some w' =>
        match w'.terms with
        | [] => b
        | hs' => implicationConclusion E depth implication hs0 hs' b0

/-- The implication, where `implication` is for smaller conclusions. -/
def implicationStep (hs : List (Term ADT Field Fun)) (b : Term ADT Field Fun) : Term ADT Field Fun :=
  match b with
  | .node .imply (b0 :: hs0) => implicationImply E depth implication hs b hs0 b0
  | .node .and bs => implicationAnd E depth implication [] hs b bs
  | .node .or bs => implicationOr E depth implication [] hs b bs
  | _ => cImply hs b

end Implication

def implicationFuel : ℕ → List (Term ADT Field Fun) → Term ADT Field Fun → Term ADT Field Fun
  | 0 => cImply
  | n + 1 => implicationStep E depth (implicationFuel n)

def implication (hs : List (Term ADT Field Fun)) (b : Term ADT Field Fun) : Term ADT Field Fun :=
  implicationFuel E depth b.height hs b

/-- The consequence, where `consequenceAux` is for smaller terms. -/
def consequenceStep (consequenceAux : Term ADT Field Fun → Term ADT Field Fun) (hs : List (Term ADT Field Fun))
    (x : Term ADT Field Fun) : Term ADT Field Fun :=
  match x with
  | .node .and xs =>
    match consequenceAnd E depth hs xs with
    | none => eFalse
    | some w =>
      match w.terms with
      | [] => eTrue
      | [y] => consequenceAux y
      | ys => if w.modif then cAnd ys else x
  | .node .or xs =>
    match consequenceAnd E depth hs xs with
    | none => eTrue
    | some w =>
      match w.terms with
      | [] => eFalse
      | [y] => consequenceAux y
      | ys => if w.modif then cOr ys else x
  | .node .not [y] => eNot E (depth + 1) (consequenceAux y)
  | .node .imply (b :: xs) =>
    let b' := consequenceAux b
    if b'.label = .true then b'
    else
      match consequenceAnd E depth hs xs with
      | none => eFalse
      | some w =>
        if b = b' ∧ ¬ w.modif then x
        else if w.modif ∧ w.terms = [] then b'
        else if b = b' then cImply w.terms b'
        else implication E depth w.terms b'
  | _ => x

def consequenceFuel (hs : List (Term ADT Field Fun)) : ℕ → Term ADT Field Fun → Term ADT Field Fun
  | 0 => id
  | n + 1 => consequenceStep E depth (consequenceFuel hs n) hs

def consequenceAux (hs : List (Term ADT Field Fun)) (x : Term ADT Field Fun) : Term ADT Field Fun :=
  consequenceFuel E depth hs x.height x

def consequence (h x : Term ADT Field Fun) : Term ADT Field Fun :=
  let notX := eNot E (depth + 1) x
  if h.label = .true then x
  else if h.label = .false then x
  else if h = x then eTrue
  else if h = notX then eFalse
  else
    match h with
    | .node .and hs => consequenceAux E depth hs x
    | _ => consequenceAux E depth [h] x

end Consequence

namespace Consequence

def filterOf (not : Term ADT Field Fun → Term ADT Field Fun) : Polarity → Term ADT Field Fun → Term ADT Field Fun
  | .conj, h => h
  | .disj, h => not h

def absorbOf (not : Term ADT Field Fun → Term ADT Field Fun) : Polarity → Term ADT Field Fun → Term ADT Field Fun
  | .conj, h => not h
  | .disj, h => h

/-- What is left: members, and every other one is equal to a hypothesis. Absorption: a member that a hypothesis
absorbs. -/
def FilterSpec (cmp : Term ADT Field Fun → Term ADT Field Fun → Ordering)
    (not : Term ADT Field Fun → Term ADT Field Fun) (polarity : Polarity) (hs ts : List (Term ADT Field Fun)) :
    Option (Filtered ADT Field Fun) → Prop
  | none => ∃ h ∈ hs, ∃ t ∈ ts, absorbOf not polarity h = t
  | some w => (∀ t ∈ w.terms, t ∈ ts) ∧ (∀ t ∈ ts, t ∈ w.terms ∨ ∃ h ∈ hs, cmp (filterOf not polarity h) t = .eq) ∧
      (w.modif = false → w.terms = ts)

theorem gen_cons (cmp : Term ADT Field Fun → Term ADT Field Fun → Ordering)
    (not : Term ADT Field Fun → Term ADT Field Fun) (polarity : Polarity) (h : Term ADT Field Fun)
    (hws ts : List (Term ADT Field Fun)) : gen cmp not polarity (h :: hws) ts =
      aux cmp (absorbOf not polarity h) (filterOf not polarity h) (gen cmp not polarity hws) ts := by
  cases polarity <;> rfl

theorem gen_spec (cmp : Term ADT Field Fun → Term ADT Field Fun → Ordering)
    (not : Term ADT Field Fun → Term ADT Field Fun) (polarity : Polarity) (hs ts : List (Term ADT Field Fun)) :
    FilterSpec cmp not polarity hs ts (gen cmp not polarity hs ts) := by
  induction hs generalizing ts with
  | nil => exact ⟨fun t ht => ht,fun t ht => Or.inl ht,fun _ => rfl⟩
  | cons h hws ih =>
    rw [gen_cons]
    induction ts with
    | nil => exact ⟨fun t ht => ht,fun t ht => Or.inl ht,fun _ => rfl⟩
    | cons t tws iht =>
      rw [aux]
      split
      · next habsorb => exact ⟨h,by simp,t,by simp,habsorb⟩
      cases hc : cmp (filterOf not polarity h) t with
      | lt =>
        have hrest := ih (t :: tws)
        simp only
        cases hg : gen cmp not polarity hws (t :: tws) with
        | none =>
          rw [hg] at hrest
          obtain ⟨h',hh',t',ht',heq⟩ := hrest
          exact ⟨h',by simp [hh'],t',ht',heq⟩
        | some w =>
          rw [hg] at hrest
          obtain ⟨hsub,hkept,hmodif⟩ := hrest
          exact ⟨hsub,fun t' ht' => (hkept t' ht').imp_right fun ⟨h',hh',heq⟩ => ⟨h',by simp [hh'],heq⟩,hmodif⟩
      | gt =>
        simp only
        cases hg : aux cmp (absorbOf not polarity h) (filterOf not polarity h) (gen cmp not polarity hws) tws with
        | none =>
          rw [hg] at iht
          obtain ⟨h',hh',t',ht',heq⟩ := iht
          exact ⟨h',hh',t',by simp [ht'],heq⟩
        | some w =>
          rw [hg] at iht
          obtain ⟨hsub,hkept,_⟩ := iht
          refine ⟨fun t' ht' => ?_,fun t' ht' => ?_,fun hm => by cases hm⟩
          · rcases List.mem_cons.mp ht' with rfl | ht'
            · simp
            · simp [hsub t' ht']
          · rcases List.mem_cons.mp ht' with rfl | ht'
            · exact Or.inl List.mem_cons_self
            · exact (hkept t' ht').imp_left fun hmem => List.mem_cons_of_mem t hmem
      | eq =>
        have hrest := ih tws
        simp only
        cases hg : gen cmp not polarity hws tws with
        | none =>
          rw [hg] at hrest
          obtain ⟨h',hh',t',ht',heq⟩ := hrest
          exact ⟨h',by simp [hh'],t',by simp [ht'],heq⟩
        | some w =>
          rw [hg] at hrest
          obtain ⟨hsub,hkept,_⟩ := hrest
          refine ⟨fun t' ht' => List.mem_cons_of_mem t (hsub t' ht'),fun t' ht' => ?_,fun hm => by cases hm⟩
          rcases List.mem_cons.mp ht' with rfl | ht'
          · exact Or.inr ⟨h,by simp,hc⟩
          · exact (hkept t' ht').imp_right fun ⟨h',hh',heq⟩ => ⟨h',by simp [hh'],heq⟩

theorem filter_spec (E : Externs ADT Field Fun) (depth : ℕ) (polarity : Polarity) (hs ts : List (Term ADT Field Fun)) :
    FilterSpec (compare E.tau (eNot E depth)) (eNot E (depth + 1)) polarity hs ts
      (Consequence.filter E depth polarity hs ts) := by
  have hgen := gen_spec (compare E.tau (eNot E depth)) (eNot E (depth + 1)) polarity hs ts
  unfold Consequence.filter
  cases hg : gen (compare E.tau (eNot E depth)) (eNot E (depth + 1)) polarity hs ts with
  | none =>
    rw [hg] at hgen
    exact hgen
  | some w =>
    rw [hg] at hgen
    cases hm : w.modif with
    | true => simpa [hm,FilterSpec] using hgen
    | false => simpa [hm,FilterSpec] using fun t ht => Or.inl ht

end Consequence

section Depth
variable (E : Externs ADT Field Fun) (depth : ℕ)

end Depth
end FramaC.Qed
