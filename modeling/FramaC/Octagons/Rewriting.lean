import FramaC.Octagons.Transfer
import FramaC.Ival.Cast

/-! # Rewriting expressions into octagons

Expressions over variables of integer types are rewritten into forms `±X - coeff`, and additions, subtractions and
comparisons into octagons. The kernel options have their defaults: an overflow of a signed type stops the execution,
unsigned types and conversions wrap.
-/
set_option linter.unusedSectionVars false
namespace FramaC.Octagons
open Ival (Comp)

/-- A variable whose type may have the volatile qualifier. -/
class RewriteVariable (X : Type) extends Variable X where
  isVolatile : X → Bool

inductive Expr (X : Type)
  | const (value : ℤ) (typ : Typ)
  | lval (x : X)
  | neg (e : Expr X) (typ : Typ)
  | binop (op : BinOp) (e1 e2 : Expr X) (typ : Typ)
  | comp (op : Comp) (e1 e2 : Expr X) (typ : Typ)
  | cast (typ : Typ) (e : Expr X)
  | info (e : Expr X)

/-- The operations of `Ival` that the rewriting also needs. -/
class RewriteOps (I : Type) extends IvalOps I where
  zero : I
  range : Option ℤ → Option ℤ → I
  cardinalZeroOrOne : I → Bool
  isZero : I → Bool
  containsZero : I → Bool
  containsNonZero : I → Bool

/-- The default of `-warn-signed-overflow`. -/
def signedOverflow : Bool := true

/-- The default of `-warn-unsigned-overflow`. -/
def unsignedOverflow : Bool := false

section Rewriting
variable {X I : Type} [DecidableEq X] [RewriteVariable X] [DecidableEq I] [RewriteOps I]

namespace Arith

def apply : BinOp → I → I → I
  | .add => IvalOps.addInt
  | .sub => IvalOps.subInt

def makeRange (range : IntegerRange) : I := IvalOps.injectRange range.lowerBound range.upperBound

end Arith

def mayOverflow (typ : Typ) (ival : I) : Bool :=
  !((typ.range.iSigned && signedOverflow) || (!typ.range.iSigned && unsignedOverflow) ||
    IvalOps.isIncluded ival (Arith.makeRange typ.range : I))

/-- The form `±X - coeff`. -/
structure VarCoeff (X I : Type) where
  varinfo : X
  sign : Bool
  coeff : I
  deriving DecidableEq

namespace VarCoeff

def neg (f : VarCoeff X I) : VarCoeff X I := ⟨f.varinfo,!f.sign,IvalOps.negInt f.coeff⟩

/-- The operation that is inverse to that of the expression, on the interval of the second operand. -/
def addV2 (binop : BinOp) (v2 : I) (f : VarCoeff X I) : VarCoeff X I :=
  { f with coeff := (match binop with | .add => IvalOps.subInt | .sub => IvalOps.addInt) f.coeff v2 }

def addV1 (binop : BinOp) (v1 : I) (f : VarCoeff X I) : VarCoeff X I :=
  let f := if binop = .sub then f.neg else f
  { f with coeff := IvalOps.subInt f.coeff v1 }

end VarCoeff

def isSingleton : Option I → Bool
  | none => false
  | some ival => RewriteOps.cardinalZeroOrOne ival

/-- The result is `empty` when an interval is not known or when the operation may overflow. -/
def applyBinop {ρ : Type} (empty : ρ) (f : I → I → ρ) (evaluate : Expr X → Option I) (typ : Typ) (e1 : Expr X)
    (op : BinOp) (e2 : Expr X) : ρ :=
  match evaluate e1 with
  | none => empty
  | some v1 =>
    match evaluate e2 with
    | none => empty
    | some v2 => if mayOverflow typ (Arith.apply op v1 v2) then empty else f v1 v2

@[grind =] def rewrite (evaluate : Expr X → Option I) : Expr X → List (VarCoeff X I)
  | .lval x =>
    if !RewriteVariable.isVolatile x && !isSingleton (evaluate (.lval x)) then [⟨x,true,RewriteOps.zero⟩] else []
  | .neg e typ =>
    match evaluate e with
    | none => []
    | some v => if mayOverflow typ (IvalOps.negInt v) then [] else (rewrite evaluate e).map VarCoeff.neg
  | .binop op e1 e2 typ =>
    applyBinop [] (fun v1 v2 =>
      (rewrite evaluate e1).map (VarCoeff.addV2 op v2) ++ (rewrite evaluate e2).map (VarCoeff.addV1 op v1))
      evaluate typ e1 op e2
  | .cast typ e =>
    match evaluate e with
    | none => []
    | some v => if mayOverflow typ v then [] else rewrite evaluate e
  | .info e => rewrite evaluate e
  | _ => []

/-- The octagon of two forms, unless they are about one variable or the octagon says nothing. -/
def combine (acc : List (Bool × Octagon X I)) (var1 var2 : VarCoeff X I) : Res (List (Bool × Octagon X I)) :=
  if var1.varinfo = var2.varinfo then return acc
  else do
    let (vars,swap) ← Pair.make var1.varinfo var2.varinfo
    let operation := if var1.sign = var2.sign then BinOp.add else BinOp.sub
    let sign := match operation with
      | .add => var1.sign
      | .sub => if swap then var2.sign else var1.sign
    let value := IvalOps.addInt var1.coeff var2.coeff
    let value := if sign then value else IvalOps.negInt value
    if Arith.isTopForPair vars value then return acc
    else return (sign,⟨vars,operation,value⟩) :: acc

def rewriteBinop (evaluate : Expr X → Option I) (e1 : Expr X) (binop : BinOp) (e2 : Expr X) :
    Res (List (Bool × Octagon X I)) :=
  let vars1 := rewrite evaluate e1
  let vars2 := rewrite evaluate e2
  let vars2 := if binop = .sub then vars2.map VarCoeff.neg else vars2
  vars1.foldlM (fun acc var1 => vars2.foldlM (fun acc var2 => combine acc var1 var2) acc) []

def Comp.inv : Comp → Comp
  | .gt => .le
  | .lt => .ge
  | .le => .gt
  | .ge => .lt
  | .eq => .ne
  | .ne => .eq

/-- The range of `X - Y` when the comparison holds. -/
def comparisonRange : Comp → I
  | .lt => RewriteOps.range none (some (-1))
  | .gt => RewriteOps.range (some 1) none
  | .le => RewriteOps.range none (some 0)
  | .ge => RewriteOps.range (some 0) none
  | .eq => RewriteOps.zero
  | .ne => IvalOps.top

def makeOctagon (ival : I) (so : Bool × Octagon X I) : Octagon X I :=
  let ival := if so.1 then ival else IvalOps.negInt ival
  { so.2 with value := IvalOps.addInt ival so.2.value }

def makeOctagonsFromBinop (evaluate : Expr X → Option I) (e1 : Expr X) (op : BinOp) (e2 : Expr X) (ival : I) :
    Res (List (Octagon X I)) := do
  let rewritings ← rewriteBinop evaluate e1 op e2
  return rewritings.map (makeOctagon ival)

def makeOctagons (evaluate : Expr X → Option I) (expr : Expr X) (ival : I) : Res (List (Octagon X I)) :=
  match expr with
  | .binop op e1 e2 typ =>
    applyBinop (.ok []) (fun _ _ => makeOctagonsFromBinop evaluate e1 op e2 ival) evaluate typ e1 op e2
  | .comp op e1 e2 _ =>
    if RewriteOps.containsZero ival && RewriteOps.containsNonZero ival then return []
    else
      let comp := if RewriteOps.isZero ival then Comp.inv op else op
      makeOctagonsFromBinop evaluate e1 .sub e2 (comparisonRange comp)
  | _ => return []

def arith (typ : Typ) (v : ℤ) : Option ℤ :=
  if typ.range.iSigned then if typ.range.lowerBound ≤ v ∧ v ≤ typ.range.upperBound then some v else none
  else some (v % 2 ^ typ.range.iBits)

def convert (typ : Typ) (v : ℤ) : ℤ :=
  if typ.range.iSigned then (v + 2 ^ (typ.range.iBits - 1)) % 2 ^ typ.range.iBits - 2 ^ (typ.range.iBits - 1)
  else v % 2 ^ typ.range.iBits

def BinOp.value : BinOp → ℤ → ℤ → ℤ
  | .add,v1,v2 => v1 + v2
  | .sub,v1,v2 => v1 - v2

def Comp.holds : Comp → ℤ → ℤ → Bool
  | .lt,v1,v2 => v1 < v2
  | .gt,v1,v2 => v1 > v2
  | .le,v1,v2 => v1 ≤ v2
  | .ge,v1,v2 => v1 ≥ v2
  | .eq,v1,v2 => v1 == v2
  | .ne,v1,v2 => v1 != v2

def eval (env : X → ℤ) : Expr X → Option ℤ
  | .const value _ => some value
  | .lval x => some (env x)
  | .neg e typ => (eval env e).bind fun v => arith typ (-v)
  | .binop op e1 e2 typ => (eval env e1).bind fun v1 => (eval env e2).bind fun v2 => arith typ (op.value v1 v2)
  | .comp op e1 e2 _ =>
    (eval env e1).bind fun v1 => (eval env e2).bind fun v2 => some (if Comp.holds op v1 v2 then 1 else 0)
  | .cast typ e => (eval env e).map (convert typ)
  | .info e => eval env e

def CoversHere (γ : I → Set ℤ) (env : X → ℤ) (evaluate : Expr X → Option I) (e : Expr X) : Prop :=
  ∀ v i, eval env e = some v → evaluate e = some i → v ∈ γ i

def Covers (γ : I → Set ℤ) (env : X → ℤ) (evaluate : Expr X → Option I) (e : Expr X) : Prop :=
  CoversHere γ env evaluate e ∧
    match e with
    | .neg e _ => Covers γ env evaluate e
    | .binop _ e1 e2 _ => Covers γ env evaluate e1 ∧ Covers γ env evaluate e2
    | .comp _ e1 e2 _ => Covers γ env evaluate e1 ∧ Covers γ env evaluate e2
    | .cast _ e => Covers γ env evaluate e
    | .info e => Covers γ env evaluate e
    | _ => True

theorem Covers.here {γ : I → Set ℤ} {env : X → ℤ} {evaluate : Expr X → Option I} {e : Expr X}
    (h : Covers γ env evaluate e) : CoversHere γ env evaluate e := by
  cases e <;> exact h.1

end Rewriting
end FramaC.Octagons
