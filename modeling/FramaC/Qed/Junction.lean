import FramaC.Qed.Compare.Identity

/-! # Conjunctions and disjunctions

The comparison up to negation of `term.ml`, and the operands of conjunctions and disjunctions sorted with it. The
negation is the one that `extern_not` refers to; the exception `Absorbant` is `none`.
-/
set_option linter.unusedSectionVars false
namespace FramaC.Qed
open Comparison
variable {ADT Field Fun : Type}
variable [DecidableEq ADT] [DecidableEq Field] [DecidableEq Fun] [Ord ADT] [FieldSymbol Field] [FunSymbol Fun]

def eFalse : Term ADT Field Fun := .node .false []
def eTrue : Term ADT Field Fun := .node .true []

section Comparison
variable (tau : Term ADT Field Fun → Option (Tau ADT Field)) (externNot : Term ADT Field Fun → Term ADT Field Fun)

def atomMin (a b : Term ADT Field Fun) : Term ADT Field Fun := if COMPARE.compare tau a b = .gt then b else a

def compare (a b : Term ADT Field Fun) : Ordering :=
  if a = b then .eq
  else
    let a' := if isProp a then externNot a else a
    let b' := if isProp b then externNot b else b
    if a = b' ∨ a' = b then COMPARE.compare tau a b
    else COMPARE.compare tau (atomMin tau a a') (atomMin tau b b')

def compareRaisingAbsorbant (a b : Term ADT Field Fun) : Option Ordering :=
  if a = b then some .eq
  else
    let a' := if isProp a then externNot a else a
    if isProp a ∧ b = a' then none
    else
      let b' := if isProp b then externNot b else b
      if isProp b ∧ a = b' then none
      else if a = b' ∨ a' = b then some (COMPARE.compare tau a b)
      else some (COMPARE.compare tau (atomMin tau a a') (atomMin tau b b'))

end Comparison

mutual

/-- Add the operands of a term. `absorbant` raises and `neutral` is skipped. -/
def foldTerm (absorbant neutral connective : Repr ADT Field Fun) (acc : List (Term ADT Field Fun)) :
    Term ADT Field Fun → Option (List (Term ADT Field Fun))
  | .node r xs =>
    if r = absorbant then none
    else if r = neutral then some acc
    else if r = connective then foldTerms absorbant neutral connective acc xs
    else some (.node r xs :: acc)

def foldTerms (absorbant neutral connective : Repr ADT Field Fun) (acc : List (Term ADT Field Fun)) :
    List (Term ADT Field Fun) → Option (List (Term ADT Field Fun))
  | [] => some acc
  | x :: others =>
    match foldTerm absorbant neutral connective acc x with
    | none => none
    | some acc => foldTerms absorbant neutral connective acc others

end

def foldAnd : List (Term ADT Field Fun) → List (Term ADT Field Fun) → Option (List (Term ADT Field Fun)) :=
  foldTerms .false .true .and

def foldOr : List (Term ADT Field Fun) → List (Term ADT Field Fun) → Option (List (Term ADT Field Fun)) :=
  foldTerms .true .false .or

def cJunction (neutral connective : Repr ADT Field Fun) : List (Term ADT Field Fun) → Term ADT Field Fun
  | [] => .node neutral []
  | [x] => x
  | xs => .node connective xs

def cAnd : List (Term ADT Field Fun) → Term ADT Field Fun := cJunction .true .and
def cOr : List (Term ADT Field Fun) → Term ADT Field Fun := cJunction .false .or

section Junction
variable (tau : Term ADT Field Fun → Option (Tau ADT Field)) (externNot : Term ADT Field Fun → Term ADT Field Fun)

def conjunction (ts : List (Term ADT Field Fun)) : Term ADT Field Fun :=
  match foldAnd [] ts with
  | none => eFalse
  | some ms =>
    match sortUniq (compareRaisingAbsorbant tau externNot) ms with
    | none => eFalse
    | some ms => cAnd ms

def disjunction (ts : List (Term ADT Field Fun)) : Term ADT Field Fun :=
  match foldOr [] ts with
  | none => eTrue
  | some ms =>
    match sortUniq (compareRaisingAbsorbant tau externNot) ms with
    | none => eTrue
    | some ms => cOr ms

def eOr : List (Term ADT Field Fun) → Term ADT Field Fun
  | [] => eFalse
  | [t] => t
  | ts => disjunction tau externNot ts

def eAnd : List (Term ADT Field Fun) → Term ADT Field Fun
  | [] => eTrue
  | [t] => t
  | ts => conjunction tau externNot ts

end Junction

theorem foldTerm_node (absorbant neutral connective : Repr ADT Field Fun) (acc : List (Term ADT Field Fun))
    (r : Repr ADT Field Fun) (xs : List (Term ADT Field Fun)) :
    foldTerm absorbant neutral connective acc (.node r xs) =
      if r = absorbant then none
      else if r = neutral then some acc
      else if r = connective then foldTerms absorbant neutral connective acc xs
      else some (.node r xs :: acc) := by
  rw [foldTerm]

section Fold
variable {absorbant neutral connective : Repr ADT Field Fun}

theorem foldTerms_cons (acc : List (Term ADT Field Fun)) (x : Term ADT Field Fun) (others : List (Term ADT Field Fun)) :
    foldTerms absorbant neutral connective acc (x :: others) =
      (foldTerm absorbant neutral connective acc x).bind fun acc => foldTerms absorbant neutral connective acc others := by
  rw [foldTerms]
  cases foldTerm absorbant neutral connective acc x <;> rfl

theorem foldTerms_acc_of {ts : List (Term ADT Field Fun)}
    (h : ∀ t ∈ ts, ∀ acc, foldTerm absorbant neutral connective acc t =
      (foldTerm absorbant neutral connective [] t).map (· ++ acc)) (acc : List (Term ADT Field Fun)) :
    foldTerms absorbant neutral connective acc ts = (foldTerms absorbant neutral connective [] ts).map (· ++ acc) := by
  induction ts generalizing acc with
  | nil => rfl
  | cons t ts ih =>
    have hts := ih fun x hx => h x (by simp [hx])
    rw [foldTerms_cons,foldTerms_cons,h t (by simp) acc]
    cases foldTerm absorbant neutral connective [] t with
    | none => rfl
    | some l =>
      show foldTerms absorbant neutral connective (l ++ acc) ts =
        (foldTerms absorbant neutral connective l ts).map (· ++ acc)
      rw [hts (l ++ acc),hts l]
      cases foldTerms absorbant neutral connective [] ts with
      | none => rfl
      | some m => exact congrArg some (List.append_assoc m l acc).symm

theorem foldTerm_acc (t : Term ADT Field Fun) (acc : List (Term ADT Field Fun)) :
    foldTerm absorbant neutral connective acc t = (foldTerm absorbant neutral connective [] t).map (· ++ acc) := by
  induction t using Rose.induct generalizing acc with
  | h r xs ih =>
    rw [foldTerm_node,foldTerm_node]
    split
    · rfl
    split
    · rfl
    split
    · exact foldTerms_acc_of ih acc
    · rfl

def SameOperands : Option (List (Term ADT Field Fun)) → Option (List (Term ADT Field Fun)) → Prop
  | none, none => True
  | some l, some m => ∀ t, t ∈ l ↔ t ∈ m
  | _, _ => False

theorem SameOperands.trans {o p q : Option (List (Term ADT Field Fun))} (h : SameOperands o p) (h' : SameOperands p q) :
    SameOperands o q := by
  cases o <;> cases p <;> cases q <;> simp only [SameOperands] at h h' ⊢
  exact fun t => (h t).trans (h' t)

theorem foldTerm_same (t : Term ADT Field Fun) {acc acc' : List (Term ADT Field Fun)} (h : ∀ x, x ∈ acc ↔ x ∈ acc') :
    SameOperands (foldTerm absorbant neutral connective acc t) (foldTerm absorbant neutral connective acc' t) := by
  rw [foldTerm_acc t acc,foldTerm_acc t acc']
  cases foldTerm absorbant neutral connective [] t with
  | none => trivial
  | some l => exact fun x => by simp [h x]

theorem foldTerms_same (ts : List (Term ADT Field Fun)) {acc acc' : List (Term ADT Field Fun)}
    (h : ∀ x, x ∈ acc ↔ x ∈ acc') :
    SameOperands (foldTerms absorbant neutral connective acc ts) (foldTerms absorbant neutral connective acc' ts) := by
  rw [foldTerms_acc_of (fun t _ => foldTerm_acc t) acc,foldTerms_acc_of (fun t _ => foldTerm_acc t) acc']
  cases foldTerms absorbant neutral connective [] ts with
  | none => trivial
  | some l => exact fun x => by simp [h x]

theorem foldTerms_perm {ts ts' : List (Term ADT Field Fun)} (h : ts.Perm ts') {acc acc' : List (Term ADT Field Fun)}
    (hacc : ∀ x, x ∈ acc ↔ x ∈ acc') :
    SameOperands (foldTerms absorbant neutral connective acc ts) (foldTerms absorbant neutral connective acc' ts') := by
  induction h generalizing acc acc' with
  | nil => exact hacc
  | @cons x ts ts' _ ih =>
    rw [foldTerms_cons,foldTerms_cons]
    have hx : SameOperands (foldTerm absorbant neutral connective acc x) (foldTerm absorbant neutral connective acc' x) :=
      foldTerm_same x hacc
    cases h1 : foldTerm absorbant neutral connective acc x <;> cases h2 : foldTerm absorbant neutral connective acc' x <;>
      rw [h1,h2] at hx
    · trivial
    · cases hx
    · cases hx
    · exact ih hx
  | swap x y ts =>
    rw [foldTerms_cons,foldTerms_cons,foldTerm_acc y,foldTerm_acc x]
    cases hx : foldTerm absorbant neutral connective [] x with
    | none => cases foldTerm absorbant neutral connective [] y <;> simp [foldTerms_cons,foldTerm_acc x (_ ++ acc),hx,SameOperands]
    | some l =>
      cases hy : foldTerm absorbant neutral connective [] y with
      | none => simp [foldTerms_cons,foldTerm_acc y (_ ++ acc'),hy,SameOperands]
      | some m =>
        simp only [Option.map_some,Option.bind_some,foldTerms_cons,foldTerm_acc y (_ ++ acc'),foldTerm_acc x (_ ++ acc),hx,hy]
        refine foldTerms_same ts fun t => ?_
        simp only [List.mem_append,hacc t]
        tauto
  | trans _ _ ih1 ih2 => exact (ih1 hacc).trans (ih2 fun _ => Iff.rfl)

end Fold
end FramaC.Qed

/-! ## Negation

The negation of `term.ml`. Comparisons that are negated are given to `extern_leq` and `extern_lt`. Negations are
compared while operands are sorted, so `extern_not` refers to the negation itself.
-/
set_option linter.unusedSectionVars false
namespace FramaC.Qed
open Comparison
variable {ADT Field Fun : Type}
variable [DecidableEq ADT] [DecidableEq Field] [DecidableEq Fun] [Ord ADT] [FieldSymbol Field] [FunSymbol Fun]

variable (ADT Field Fun) in
/-- The references to smart constructors, and the result types that are recorded with terms. -/
structure Externs where
  leq : Term ADT Field Fun → Term ADT Field Fun → Term ADT Field Fun
  lt : Term ADT Field Fun → Term ADT Field Fun → Term ADT Field Fun
  tau : Term ADT Field Fun → Option (Tau ADT Field)

def cNot (x : Term ADT Field Fun) : Term ADT Field Fun := .node .not [x]

def cBind (q : Binder) (t : Tau ADT Field) (e : Term ADT Field Fun) : Term ADT Field Fun :=
  if e.bind.closed then e else .node (.bind q t) [e]

section Negation
variable (E : Externs ADT Field Fun) (externNot : Term ADT Field Fun → Term ADT Field Fun)

def sym (c : Repr ADT Field Fun) (x y : Term ADT Field Fun) : Term ADT Field Fun :=
  if compare E.tau externNot x y = .lt then .node c [y,x] else .node c [x,y]

def cEq : Term ADT Field Fun → Term ADT Field Fun → Term ADT Field Fun := sym E externNot .eq
def cNeq : Term ADT Field Fun → Term ADT Field Fun → Term ADT Field Fun := sym E externNot .neq

mutual

/-- The negation, where `extern_not` is `externNot`. -/
@[grind =] def notWith : Term ADT Field Fun → Term ADT Field Fun
  | .node .true _ => eFalse
  | .node .false _ => eTrue
  | .node .lt [x,y] => E.leq y x
  | .node .leq [x,y] => E.lt y x
  | .node .eq [x,y] => cNeq E externNot x y
  | .node .neq [x,y] => cEq E externNot x y
  | .node .not [x] => x
  | .node .and xs => eOr E.tau externNot (notsWith xs)
  | .node .or xs => eAnd E.tau externNot (notsWith xs)
  | .node .imply (p :: hs) => eAnd E.tau externNot (notWith p :: hs)
  | .node (.bind .all t) [p] => cBind .ex t (notWith p)
  | .node (.bind .ex t) [p] => cBind .all t (notWith p)
  | p => cNot p

def notsWith : List (Term ADT Field Fun) → List (Term ADT Field Fun)
  | [] => []
  | x :: xs => notWith x :: notsWith xs

end

theorem notsWith_eq_map (xs : List (Term ADT Field Fun)) : notsWith E externNot xs = xs.map (notWith E externNot) := by
  induction xs with
  | nil => rfl
  | cons x xs ih => rw [notsWith,ih,List.map_cons]

/-- The negation, where calls through `extern_not` are at most `depth` deep. -/
def eNot : ℕ → Term ADT Field Fun → Term ADT Field Fun
  | 0 => cNot
  | depth + 1 => notWith E (eNot depth)

end Negation
end FramaC.Qed
