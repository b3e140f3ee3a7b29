import FramaC.Integer
import FramaC.Qed.Operator

/-! # Terms of the library of bit operations

The symbols that `Cint.ml` declares, the functions that match their applications, and the constructors of terms that the
simplifications call. `Not_found` is raised where no simplification is possible.
-/
namespace FramaC.Cint
open Qed Integer
variable {ADT Field Fun : Type}

def opLxor : Operator Fun :=
  { associative := true, commutative := true, idempotent := false, invertible := true, neutral := .int 0
    absorbant := .none }
def opLor : Operator Fun :=
  { associative := true, commutative := true, idempotent := true, invertible := false, neutral := .int 0
    absorbant := .int (-1) }
def opLand : Operator Fun :=
  { associative := true, commutative := true, idempotent := true, invertible := false, neutral := .int (-1)
    absorbant := .int 0 }

/-- The functions of the library, which are different functions. -/
structure Cbits (Fun : Type) [FunSymbol Fun] where
  lnot : Fun
  lor : Fun
  land : Fun
  lxor : Fun
  lsl : Fun
  lsr : Fun
  bitPositive : Fun
  nodup : [lnot,lor,land,lxor,lsl,lsr,bitPositive].Nodup
  category_lor : FunSymbol.category lor = .operator opLor
  category_land : FunSymbol.category land = .operator opLand
  category_lxor : FunSymbol.category lxor = .operator opLxor

variable (ADT Field Fun) in
/-- The constructors of `Lang.F`. -/
structure Build where
  eEq : Term ADT Field Fun → Term ADT Field Fun → Term ADT Field Fun
  eLeq : Term ADT Field Fun → Term ADT Field Fun → Term ADT Field Fun
  eLt : Term ADT Field Fun → Term ADT Field Fun → Term ADT Field Fun
  eAdd : Term ADT Field Fun → Term ADT Field Fun → Term ADT Field Fun
  eAnd : List (Term ADT Field Fun) → Term ADT Field Fun
  eNot : Term ADT Field Fun → Term ADT Field Fun
  eFun : Fun → List (Term ADT Field Fun) → Term ADT Field Fun

def eZint (z : ℤ) : Term ADT Field Fun := .node (.kint z) []
def eZero : Term ADT Field Fun := eZint 0
def eMinusOne : Term ADT Field Fun := eZint (-1)

def isTrue (e : Term ADT Field Fun) : Option Bool :=
  match e.label with
  | .true => some true
  | .false => some false
  | _ => none

def isNeutral [DecidableEq Fun] [FunSymbol Fun] (f : Fun) (e : Term ADT Field Fun) : Bool :=
  match FunSymbol.category f with
  | .operator op => isElement op.neutral e
  | _ => false

def isAbsorbant [DecidableEq Fun] [FunSymbol Fun] (f : Fun) (e : Term ADT Field Fun) : Bool :=
  match FunSymbol.category f with
  | .operator op => isElement op.absorbant e
  | _ => false

/-- `try x with Not_found -> h`. -/
def handle {α : Type} (x h : Res α) : Res α :=
  match x with
  | .error .notFound => h
  | r => r

/-- `Integer.shift_left`. -/
def shiftLeft (x y : ℤ) : Res ℤ := do
  let k ← toInt y
  if k < 0 then .error .invalidArgument else .ok (x * 2 ^ k.toNat)

/-- `Integer.shift_right`. -/
def shiftRight (x y : ℤ) : Res ℤ := do
  let k ← toInt y
  if k < 0 then .error .invalidArgument else .ok (x / 2 ^ k.toNat)

def twoPowerKMinus1 (k : ℤ) : Res ℤ :=
  match twoPower k with
  | .ok p => .ok (p - 1)
  | .error .overflow => .error .notFound
  | .error e => .error e

section Matching

@[grind =] def matchInteger (t : Term ADT Field Fun) : Res ℤ :=
  match t with
  | .node (.kint c) _ => .ok c
  | _ => .error .notFound

def matchPositiveOrNullInteger (t : Term ADT Field Fun) : Res ℤ :=
  match t with
  | .node (.kint c) _ => if 0 ≤ c then .ok c else .error .notFound
  | _ => .error .notFound

variable [DecidableEq Fun]

def matchFun (op : Fun) (t : Term ADT Field Fun) : Res (List (Term ADT Field Fun)) :=
  match t with
  | .node (.func f) es => if f = op then .ok es else .error .notFound
  | _ => .error .notFound

def matchUfun (uop : Fun) (t : Term ADT Field Fun) : Res (Term ADT Field Fun) :=
  match t with
  | .node (.func f) [e] => if f = uop then .ok e else .error .notFound
  | _ => .error .notFound

variable {α : Type} (matchF : Term ADT Field Fun → Res α)

def matchBinopArg1 : List (Term ADT Field Fun) → Res (α × Term ADT Field Fun)
  | [e1,e2] => do return (← matchF e1,e2)
  | _ => .error .notFound

def matchBinopArg2 : List (Term ADT Field Fun) → Res (Term ADT Field Fun × α)
  | [e1,e2] => do return (e1,← matchF e2)
  | _ => .error .notFound

def matchListHead : List (Term ADT Field Fun) → Res (α × List (Term ADT Field Fun))
  | [] => .error .notFound
  | e :: es => do return (← matchF e,es)

def matchListExtractionAux (rs : List (Term ADT Field Fun)) :
    List (Term ADT Field Fun) → Res (α × Term ADT Field Fun × List (Term ADT Field Fun))
  | [] => .error .notFound
  | e :: es => handle (do return (← matchF e,e,rs.reverse ++ es)) (matchListExtractionAux (e :: rs) es)

def matchListExtraction (es : List (Term ADT Field Fun)) : Res (α × Term ADT Field Fun × List (Term ADT Field Fun)) :=
  matchListExtractionAux matchF [] es

end Matching

section Signs
variable [DecidableEq Fun] [FunSymbol Fun] (S : Cbits Fun) (E : Build ADT Field Fun)

mutual

@[grind =] def isPositiveOrNull : Term ADT Field Fun → Bool
  | .node r es =>
    match r with
    | .func f =>
      if f = S.lnot ∧ es.length = 1 then allNegative es
      else if f = S.land then anyPositiveOrNull es
      else if f = S.lor then allPositiveOrNull es
      else if f = S.lxor then
        match xorSign true es with
        | some b => b
        | none => false
      else if f = S.lsr ∨ f = S.lsl then allPositiveOrNull es
      else isTrue (E.eLeq eZero (.node r es)) = some true
    | .add => allPositiveOrNull es || isTrue (E.eLeq eZero (.node r es)) = some true
    | _ => isTrue (E.eLeq eZero (.node r es)) = some true

@[grind =] def isNegative : Term ADT Field Fun → Bool
  | .node r es =>
    match r with
    | .func f =>
      if f = S.lnot ∧ es.length = 1 then allPositiveOrNull es
      else if f = S.lor then anyNegative es
      else if f = S.land then allNegative es
      else if f = S.lxor then
        match xorSign true es with
        | some b => !b
        | none => false
      else if (f = S.lsr ∨ f = S.lsl) ∧ es.length = 2 then shiftNegative es
      else isTrue (E.eLt (.node r es) eZero) = some true
    | .add => allNegative es || isTrue (E.eLt (.node r es) eZero) = some true
    | _ => isTrue (E.eLt (.node r es) eZero) = some true

@[grind =] def allPositiveOrNull : List (Term ADT Field Fun) → Bool
  | [] => true
  | e :: es => isPositiveOrNull e && allPositiveOrNull es

@[grind =] def anyPositiveOrNull : List (Term ADT Field Fun) → Bool
  | [] => false
  | e :: es => isPositiveOrNull e || anyPositiveOrNull es

@[grind =] def allNegative : List (Term ADT Field Fun) → Bool
  | [] => true
  | e :: es => isNegative e && allNegative es

@[grind =] def anyNegative : List (Term ADT Field Fun) → Bool
  | [] => false
  | e :: es => isNegative e || anyNegative es

def shiftNegative : List (Term ADT Field Fun) → Bool
  | [] => true
  | k :: ns => allPositiveOrNull ns && isNegative k

/-- `acc` is the sign of the operands before: is it positive? -/
@[grind =] def xorSign (acc : Bool) : List (Term ADT Field Fun) → Option Bool
  | [] => some acc
  | e :: es => if isPositiveOrNull e then xorSign acc es else if isNegative e then xorSign (!acc) es else none

end

def matchPositiveOrNull (e : Term ADT Field Fun) : Res (Term ADT Field Fun) :=
  if isPositiveOrNull S E e then .ok e else .error .notFound

def matchPositiveOrNullArg2 (es : List (Term ADT Field Fun)) : Res (Term ADT Field Fun × Term ADT Field Fun) :=
  matchBinopArg2 (matchPositiveOrNull S E) es

def matchPositiveOrNullIntegerArg2 (es : List (Term ADT Field Fun)) : Res (Term ADT Field Fun × ℤ) :=
  matchBinopArg2 matchPositiveOrNullInteger es

def matchIntegerArg1 (es : List (Term ADT Field Fun)) : Res (ℤ × Term ADT Field Fun) := matchBinopArg1 matchInteger es

def matchIntegerExtraction (es : List (Term ADT Field Fun)) : Res (ℤ × List (Term ADT Field Fun)) :=
  matchListHead matchInteger es

end Signs
end FramaC.Cint
