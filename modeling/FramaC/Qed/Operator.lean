import FramaC.Qed.Junction
import FramaC.Lib.FoldOne

/-! # User operators

The applications of operators with algebraic properties of `term.ml`. A failed assertion is `none`.
-/
namespace FramaC.Qed
open Comparison
variable {ADT Field Fun : Type}
variable [DecidableEq ADT] [DecidableEq Field] [DecidableEq Fun] [Ord ADT] [FieldSymbol Field] [FunSymbol Fun]

mutual

def element : Element Fun → Option (Term ADT Field Fun)
  | .none => none
  | .int k => some (.node (.kint k) [])
  | .true => some eTrue
  | .false => some eFalse
  | .func f l => (elements l).map (.node (.func f))

def elements : List (Element Fun) → Option (List (Term ADT Field Fun))
  | [] => some []
  | e :: es =>
    match element e, elements es with
    | some x, some xs => some (x :: xs)
    | _, _ => none

end

mutual

@[grind =] def isElement : Element Fun → Term ADT Field Fun → Bool
  | .int k, .node (.kint z) [] => k = z
  | .true, .node .true [] => true
  | .false, .node .false [] => true
  | .func f fl, .node (.func g) gl => f = g && areElements fl gl
  | _, _ => false

@[grind =] def areElements : List (Element Fun) → List (Term ADT Field Fun) → Bool
  | [], [] => true
  | e :: es, x :: xs => isElement e x && areElements es xs
  | _, _ => false

end

def isNone : Element Fun → Bool
  | .none => true
  | _ => false

def isnotElement (e : Element Fun) (x : Term ADT Field Fun) : Bool := !isElement e x

variable (ADT Field Fun) in
/-- The references to other constructors, the builtins, and the result types that are recorded with terms. -/
structure Builtins where
  not : Term ADT Field Fun → Term ADT Field Fun
  ite : Term ADT Field Fun → Term ADT Field Fun → Term ADT Field Fun → Term ADT Field Fun
  func : Fun → List (Term ADT Field Fun) → Term ADT Field Fun
  builtinsFun : Fun → Option (List (Term ADT Field Fun) → Option (Tau ADT Field) → Term ADT Field Fun)
  tau : Term ADT Field Fun → Option (Tau ADT Field)

mutual

/-- Add the operands of `phi` in a term. -/
def opRevassocTerm (phi : Fun) (xs : List (Term ADT Field Fun)) : Term ADT Field Fun → List (Term ADT Field Fun)
  | .node r ts => if r = .func phi then opRevassoc phi xs ts else .node r ts :: xs

def opRevassoc (phi : Fun) (xs : List (Term ADT Field Fun)) : List (Term ADT Field Fun) → List (Term ADT Field Fun)
  | [] => xs
  | e :: es => opRevassoc phi (opRevassocTerm phi xs e) es

end

@[grind =] def opIdempotent : List (Term ADT Field Fun) → List (Term ADT Field Fun)
  | [] => []
  | [x] => [x]
  | x :: y :: w => if x = y then opIdempotent (y :: w) else x :: opIdempotent (y :: w)

def isPrimitive (e : Term ADT Field Fun) : Bool :=
  match e.label with
  | .true | .false | .kint _ | .kreal _ => true
  | _ => false

section Application
variable (B : Builtins ADT Field Fun)

def builtinFun (tau : Option (Tau ADT Field)) (f : Fun) (es : List (Term ADT Field Fun)) : Term ADT Field Fun :=
  match B.builtinsFun f with
  | some p => p es tau
  | none => .node (.func f) es

/-- The case of two arguments, without `force`. -/
def distributeIfOverOperation (op : Term ADT Field Fun) (f : Term ADT Field Fun → Term ADT Field Fun → Term ADT Field Fun)
    (a b : Term ADT Field Fun) : Term ADT Field Fun :=
  match a, b with
  | .node .ite [ac,a1,a2], .node .ite [bc,b1,b2] =>
    if ac = bc then B.ite ac (f a1 b1) (f a2 b2)
    else if isPrimitive a1 && isPrimitive a2 && (isPrimitive b1 || isPrimitive b2) then B.ite ac (f a1 b) (f a2 b)
    else if (isPrimitive a1 || isPrimitive a2) && (isPrimitive b1 && isPrimitive b2) then B.ite bc (f a b1) (f a b2)
    else op
  | .node .ite [ac,a1,a2], b =>
    if (isPrimitive a1 || isPrimitive a2) && isPrimitive b then B.ite ac (f a1 b) (f a2 b) else op
  | a, .node .ite [bc,b1,b2] =>
    if (isPrimitive b1 || isPrimitive b2) && isPrimitive a then B.ite bc (f a b1) (f a b2) else op
  | _, _ => op

def distribute (f : Fun) (tau : Option (Tau ADT Field)) (xs : List (Term ADT Field Fun)) : Term ADT Field Fun :=
  match xs with
  | [.node .ite [c,a,b]] => B.ite c (B.func f [a]) (B.func f [b])
  | [a,b] => distributeIfOverOperation B (builtinFun B tau f xs) (fun a b => B.func f [a,b]) a b
  | xs => builtinFun B tau f xs

def cBuiltinFun (f : Fun) (xs : List (Term ADT Field Fun)) (tau : Option (Tau ADT Field)) : Term ADT Field Fun :=
  distribute B f tau xs

def sortTerms (xs : List (Term ADT Field Fun)) : List (Term ADT Field Fun) :=
  xs.mergeSort fun a b => (compare B.tau B.not a b).isLE

def opArguments (f : Fun) (op : Operator Fun) (xs : List (Term ADT Field Fun)) : List (Term ADT Field Fun) :=
  if op.associative then
    let xs := opRevassoc f [] xs
    if op.commutative then sortTerms B xs else xs.reverse
  else if op.commutative then sortTerms B xs
  else xs

def opFun (f : Fun) (op : Operator Fun) (xs : List (Term ADT Field Fun)) (tau : Option (Tau ADT Field)) :
    Option (Term ADT Field Fun) :=
  let xs := opArguments B f op xs
  if !isNone op.absorbant && xs.any (isElement op.absorbant) then element op.absorbant
  else
    let xs := if !isNone op.neutral then xs.filter (isnotElement op.neutral) else xs
    let xs := if op.idempotent then opIdempotent xs else xs
    match xs with
    | [] => if !isNone op.neutral then element op.neutral else some (cBuiltinFun B f [] tau)
    | [x] => if op.associative then some x else some (cBuiltinFun B f [x] tau)
    | xs => some (cBuiltinFun B f xs tau)

def eFungen (f : Fun) (xs : List (Term ADT Field Fun)) (tau : Option (Tau ADT Field)) : Option (Term ADT Field Fun) :=
  match FunSymbol.category f with
  | .operator op => opFun B f op xs tau
  | _ => some (cBuiltinFun B f xs tau)

def eFun (result : Option (Tau ADT Field)) (f : Fun) (xs : List (Term ADT Field Fun)) : Option (Term ADT Field Fun) :=
  eFungen B f xs result

end Application
end FramaC.Qed
