import FramaC.Lib.Rose
import Mathlib.Data.Rat.Floor
import Mathlib.Data.String.Basic

/-! # Terms

The representation of terms of `logic.ml` and `term.ml`. A node is its constructor, with what it carries besides
sub-terms, and the sub-terms. Terms are hash-consed, so physical equality is equality. The conclusion of an implication
and the function of an application are before the other sub-terms.
-/
namespace FramaC.Qed

inductive Element (F : Type)
  | none
  | true
  | false
  | int (k : ℤ)
  | func (f : F) (l : List (Element F))

/-- Algebraic properties for user operators. -/
structure Operator (F : Type) where
  invertible : Bool
  associative : Bool
  commutative : Bool
  idempotent : Bool
  neutral : Element F
  absorbant : Element F

inductive Category (F : Type)
  | function
  | constructor
  | injection
  | operator (op : Operator F)

inductive Binder
  | all
  | ex
  | lambda
  deriving DecidableEq

inductive TauRepr (ADT Field : Type)
  | prop
  | bool
  | int
  | real
  | tvar (n : ℤ)
  | array
  | record (fts : List Field)
  | data (a : ADT)
  deriving DecidableEq

abbrev Tau (ADT Field : Type) := Rose (TauRepr ADT Field)

inductive TermSort
  | prop
  | bool
  | int
  | real
  | data
  | array (s : TermSort)
  deriving DecidableEq

class FieldSymbol (Field : Type) extends Ord Field where
  sort : Field → TermSort

class FunSymbol (Fun : Type) extends Ord Fun where
  category : Fun → Category Fun
  sort : Fun → TermSort

structure Var (ADT Field : Type) where
  vid : ℤ
  vbase : String
  vrank : ℤ
  vtau : Tau ADT Field
  deriving DecidableEq

inductive Repr (ADT Field Fun : Type)
  | true
  | false
  | kint (z : ℤ)
  | kreal (q : ℚ)
  | times (z : ℤ)
  | add
  | mul
  | div
  | mod
  | eq
  | neq
  | leq
  | lt
  | aget
  | aset
  | acst (t : Tau ADT Field)
  | rget (f : Field)
  | rdef (fs : List Field)
  | and
  | or
  | not
  | imply
  | ite
  | func (f : Fun)
  | fvar (x : Var ADT Field)
  | bvar (k : ℕ) (t : Tau ADT Field)
  | apply
  | bind (q : Binder) (t : Tau ADT Field)
  deriving DecidableEq

abbrev Term (ADT Field Fun : Type) := Rose (Repr ADT Field Fun)

/-- Upper approximated sets of bound variables: a lower bound, an upper bound plus one, and the depth of binders. -/
structure Bvars where
  lower : ℕ
  upper : ℕ
  order : ℕ
  deriving DecidableEq

namespace Bvars

def empty : Bvars := ⟨0,0,0⟩

def isEmpty (a : Bvars) : Bool := a.upper = 0

def closed (s : Bvars) : Bool := s.upper ≤ s.order

def union (a b : Bvars) : Bvars :=
  if isEmpty a then b else
  if isEmpty b then a else
  { lower := min a.lower b.lower
    order := max a.order b.order
    upper := max a.upper b.upper }

def singleton (k : ℕ) : Bvars := { order := 0, lower := k, upper := k + 1 }

def bind (s : Bvars) : Bvars := { s with order := s.order + 1 }

end Bvars

section Representation
variable {ADT Field Fun : Type}

def sizeList (n w : ℕ) : List ℕ → ℕ
  | [] => n + w
  | s :: ss => sizeList (n + 1) (max w s) ss

def sizeRepr : Repr ADT Field Fun → List ℕ → ℕ
  | .true, _ | .false, _ | .kint _, _ => 0
  | .fvar _, _ | .bvar _ _, _ | .kreal _, _ => 1
  | .times _, [x] => x + 1
  | .add, xs | .mul, xs | .and, xs | .or, xs => sizeList 1 0 xs
  | .imply, p :: hs => sizeList 1 p hs
  | .not, [x] => x + 1
  | .func _, xs => sizeList 1 0 xs
  | .aget, [a,b] => 1 + max a b
  | .aset, [a,b,c] => 1 + max a (max b c)
  | .acst _, [v] => v + 1
  | .rget _, [a] => a + 1
  | .rdef _, fxs => 1 + sizeList 0 0 fxs
  | .div, [x,y] | .mod, [x,y] => 2 + max x y
  | .eq, [x,y] | .neq, [x,y] | .lt, [x,y] | .leq, [x,y] => 1 + max x y
  | .apply, x :: xs => sizeList 1 x xs
  | .ite, [a,b,c] => 2 + max a (max b c)
  | .bind _ _, [p] => 3 + p
  | _, _ => 0

def Term.size : Term ADT Field Fun → ℕ := Rose.fold sizeRepr

def bindRepr : Repr ADT Field Fun → List Bvars → Bvars
  | .times _, [x] | .not, [x] | .rget _, [x] | .acst _, [x] => x
  | .add, xs | .mul, xs | .and, xs | .or, xs | .func _, xs | .rdef _, xs => xs.foldl Bvars.union Bvars.empty
  | .div, [x,y] | .mod, [x,y] | .eq, [x,y] | .neq, [x,y] | .leq, [x,y] | .lt, [x,y] | .aget, [x,y] => Bvars.union x y
  | .imply, a :: xs | .apply, a :: xs => xs.foldl Bvars.union a
  | .ite, [e,a,b] | .aset, [e,a,b] => Bvars.union e (Bvars.union a b)
  | .bvar k _, _ => Bvars.singleton k
  | .bind _ _, [e] => Bvars.bind e
  | _, _ => Bvars.empty

def Term.bind : Term ADT Field Fun → Bvars := Rose.fold bindRepr

namespace Kind

def ofTauRepr : TauRepr ADT Field → List TermSort → TermSort
  | .prop, _ => .prop
  | .bool, _ => .bool
  | .int, _ => .int
  | .real, _ => .real
  | .array, [_,d] => .array d
  | _, _ => .data

def ofTau : Tau ADT Field → TermSort := Rose.fold ofTauRepr

def merge : TermSort → TermSort → TermSort
  | .prop, _ | _, .prop => .prop
  | .bool, _ | _, .bool => .bool
  | .array x, .array y => .array (merge x y)
  | .array _, _ | _, .array _ => .data
  | .int, .int => .int
  | .int, .real | .real, .int => .real
  | .real, .real => .real
  | .data, _ | _, .data => .data

def image : TermSort → TermSort
  | .array s => s
  | _ => .data

def mergeList (s : TermSort) : List TermSort → TermSort
  | [] => s
  | x :: xs => if s = .prop then .prop else mergeList (merge s x) xs

end Kind

def sortRepr [FieldSymbol Field] [FunSymbol Fun] : Repr ADT Field Fun → List TermSort → TermSort
  | .true, _ | .false, _ => .bool
  | .kint _, _ => .int
  | .kreal _, _ => .real
  | .times _, [x] => Kind.merge .int x
  | .add, xs | .mul, xs => Kind.mergeList .int xs
  | .and, xs | .or, xs => Kind.mergeList .bool xs
  | .imply, p :: hs => Kind.mergeList p hs
  | .not, [x] => x
  | .func f, _ => FunSymbol.sort f
  | .aget, [m,_] => Kind.image m
  | .aset, [m,_,_] => m
  | .acst _, [v] => .array v
  | .rget f, _ => FieldSymbol.sort f
  | .rdef _, _ => .data
  | .div, [x,y] | .mod, [x,y] => Kind.merge x y
  | .leq, _ | .lt, _ => .bool
  | .apply, x :: _ => x
  | .ite, [_,a,b] => Kind.merge a b
  | .fvar x, _ => Kind.ofTau x.vtau
  | .bvar _ t, _ => Kind.ofTau t
  | .bind .all _, _ | .bind .ex _, _ => .prop
  | .bind .lambda _, [e] => e
  | .eq, [a,b] | .neq, [a,b] => if a = .prop ∨ b = .prop then .prop else .bool
  | _, _ => .data

def Term.sort [FieldSymbol Field] [FunSymbol Fun] : Term ADT Field Fun → TermSort := Rose.fold sortRepr

def isProp [FieldSymbol Field] [FunSymbol Fun] (e : Term ADT Field Fun) : Bool :=
  e.sort = .prop || e.sort = .bool

end Representation
end FramaC.Qed

/-! ## Comparison of terms

The structural comparison of `term.ml`. The cases are in the order of the source, so that each pair of constructors is
met by the same case.
-/
namespace FramaC.Qed
open Comparison
variable {ADT Field Fun : Type}

def cmpField {T : Type} [Ord Field] (phi : T → T → Ordering) (fx gy : Field × T) : Ordering :=
  (compare fx.1 gy.1).then (phi fx.2 gy.2)

namespace Tau
variable [Ord Field] [Ord ADT]

def cmpTau (phi : Tau ADT Field → Tau ADT Field → Ordering) (t1 t2 : Tau ADT Field) : Ordering :=
  match t1.label, t2.label with
  | .bool, .bool => .eq
  | .bool, _ => .lt
  | _, .bool => .gt
  | .int, .int => .eq
  | .int, _ => .lt
  | _, .int => .gt
  | .real, .real => .eq
  | .real, _ => .lt
  | _, .real => .gt
  | .prop, .prop => .eq
  | .prop, _ => .lt
  | _, .prop => .gt
  | .tvar k, .tvar k' => compare k k'
  | .tvar _, _ => .lt
  | _, .tvar _ => .gt
  | .array, .array => List.compareLex phi t1.children t2.children
  | .array, _ => .lt
  | _, .array => .gt
  | .data a, .data b => (compare a b).then (List.compareLex phi t1.children t2.children)
  | .data _, _ => .lt
  | _, .data _ => .gt
  | .record fs, .record gs => List.compareLex (cmpField phi) (fs.zip t1.children) (gs.zip t2.children)

def compare : Tau ADT Field → Tau ADT Field → Ordering := Rose.compareRec cmpTau

end Tau

def Var.compare (x y : Var ADT Field) : Ordering :=
  (Ord.compare x.vbase y.vbase).then ((Ord.compare x.vrank y.vrank).then (Ord.compare x.vid y.vid))

namespace COMPARE
variable [DecidableEq ADT] [DecidableEq Field] [DecidableEq Fun] [Ord ADT] [FieldSymbol Field] [FunSymbol Fun]

def funRank (f : Fun) : ℕ :=
  match FunSymbol.category f with
  | .function => 3
  | .injection => 2
  | .constructor => 1
  | .operator _ => 0

def cmpSize (a b : Term ADT Field Fun) : Ordering := Ord.compare a.size b.size

def rankBind : Binder → ℕ
  | .all => 0
  | .ex => 1
  | .lambda => 2

def cmpBind (p q : Binder) : Ordering := Ord.compare (rankBind p) (rankBind q)

/-- Sub-terms are compared from left to right by `phi`. -/
def cmpStruct (phi : Term ADT Field Fun → Term ADT Field Fun → Ordering) (a b : Term ADT Field Fun) : Ordering :=
  match a.label, b.label, a.children, b.children with
  | .true, .true, _, _ => .eq
  | .true, _, _, _ => .lt
  | _, .true, _, _ => .gt
  | .false, .false, _, _ => .eq
  | .false, _, _, _ => .lt
  | _, .false, _, _ => .gt
  | .kint a, .kint b, _, _ => Ord.compare a b
  | .kint _, _, _, _ => .lt
  | _, .kint _, _, _ => .gt
  | .kreal a, .kreal b, _, _ => Ord.compare a b
  | .kreal _, _, _, _ => .lt
  | _, .kreal _, _, _ => .gt
  | .fvar x, .fvar y, _, _ => Var.compare x y
  | .fvar _, _, _, _ => .lt
  | _, .fvar _, _, _ => .gt
  | .bvar k1 _, .bvar k2 _, _, _ => Ord.compare k1 k2
  | .bvar _ _, _, _, _ => .lt
  | _, .bvar _ _, _, _ => .gt
  | .eq, .eq, xs, ys | .neq, .neq, xs, ys | .lt, .lt, xs, ys | .leq, .leq, xs, ys | .div, .div, xs, ys
  | .mod, .mod, xs, ys => (cmpSize a b).then (List.compareLex phi xs ys)
  | .func f, .func g, xs, ys =>
    (Ord.compare (funRank f) (funRank g)).then
      ((cmpSize a b).then ((Ord.compare f g).then (List.compareLex phi xs ys)))
  | .func _, _, [], _ => .lt  -- (a) as a variable
  | _, .func _, _, [] => .gt
  | .eq, _, _, _ => .lt  -- (b) equality
  | _, .eq, _, _ => .gt
  | .neq, _, _, _ => .lt  -- (c) other comparison
  | _, .neq, _, _ => .gt
  | .lt, _, _, _ => .lt
  | _, .lt, _, _ => .gt
  | .leq, _, _, _ => .lt
  | _, .leq, _, _ => .gt
  | .func _, _, _, _ => .lt  -- (d) predicate
  | _, .func _, _, _ => .gt
  | .times a1, .times a2, xs, ys => (cmpSize a b).then ((Ord.compare a1 a2).then (List.compareLex phi xs ys))
  | .times _, _, _, _ => .lt
  | _, .times _, _, _ => .gt
  | .not, .not, xs, ys => (cmpSize a b).then (List.compareLex phi xs ys)
  | .not, _, _, _ => .lt
  | _, .not, _, _ => .gt
  | .imply, .imply, xs, ys => (cmpSize a b).then (List.compareLex phi xs ys)
  | .imply, _, _, _ => .lt
  | _, .imply, _, _ => .gt
  | .add, .add, xs, ys | .mul, .mul, xs, ys | .and, .and, xs, ys | .or, .or, xs, ys =>
    (cmpSize a b).then (List.compareLex phi xs ys)
  | .add, _, _, _ => .lt
  | _, .add, _, _ => .gt
  | .mul, _, _, _ => .lt
  | _, .mul, _, _ => .gt
  | .and, _, _, _ => .lt
  | _, .and, _, _ => .gt
  | .or, _, _, _ => .lt
  | _, .or, _, _ => .gt
  | .div, _, _, _ => .lt
  | _, .div, _, _ => .gt
  | .mod, _, _, _ => .lt
  | _, .mod, _, _ => .gt
  | .ite, .ite, xs, ys => (cmpSize a b).then (List.compareLex phi xs ys)
  | .ite, _, _, _ => .lt
  | _, .ite, _, _ => .gt
  | .acst t1, .acst t2, xs, ys => (Tau.compare t1 t2).then (List.compareLex phi xs ys)
  | .acst _, _, _, _ => .lt
  | _, .acst _, _, _ => .gt
  | .aget, .aget, xs, ys => (cmpSize a b).then (List.compareLex phi xs ys)
  | .aget, _, _, _ => .lt
  | _, .aget, _, _ => .gt
  | .aset, .aset, xs, ys => (cmpSize a b).then (List.compareLex phi xs ys)
  | .aset, _, _, _ => .lt
  | _, .aset, _, _ => .gt
  | .rget f1, .rget f2, xs, ys => (cmpSize a b).then ((List.compareLex phi xs ys).then (Ord.compare f1 f2))
  | .rget _, _, _, _ => .lt
  | _, .rget _, _, _ => .gt
  | .rdef fs, .rdef gs, xs, ys => (cmpSize a b).then (List.compareLex (cmpField phi) (fs.zip xs) (gs.zip ys))
  | .rdef _, _, _, _ => .lt
  | _, .rdef _, _, _ => .gt
  | .apply, .apply, xs, ys => (cmpSize a b).then (List.compareLex phi xs ys)
  | .apply, _, _, _ => .lt
  | _, .apply, _, _ => .gt
  | .bind q1 t1, .bind q2 t2, xs, ys =>
    (cmpSize a b).then ((cmpBind q1 q2).then ((List.compareLex phi xs ys).then (Tau.compare t1 t2)))

/-- `tau` gives the result type that is recorded with a term. -/
def step (tau : Term ADT Field Fun → Option (Tau ADT Field))
    (phi : Term ADT Field Fun → Term ADT Field Fun → Ordering) (a b : Term ADT Field Fun) : Ordering :=
  if a = b then .eq else (cmpStruct phi a b).then (optCompare Tau.compare (tau a) (tau b))

def compare (tau : Term ADT Field Fun → Option (Tau ADT Field)) : Term ADT Field Fun → Term ADT Field Fun → Ordering :=
  Rose.compareRec (step tau)

end COMPARE
end FramaC.Qed
