import FramaC.Integer
import FramaC.Hptmap.Maps

/-! # Octagon states

The states of `octagons.ml` over variables of integer types: intervals for `X + Y` and `X - Y` on
ordered pairs of variables, intervals for the variables, and the related variables. `none` is the
bottom state.
-/
namespace FramaC.Octagons
open Hptmap

structure IntegerRange where
  iBits : ℕ
  iSigned : Bool
  deriving DecidableEq

def IntegerRange.lowerBound (r : IntegerRange) : ℤ := if r.iSigned then -2 ^ (r.iBits - 1) else 0

def IntegerRange.upperBound (r : IntegerRange) : ℤ := if r.iSigned then 2 ^ (r.iBits - 1) - 1 else 2 ^ r.iBits - 1

structure Typ where
  name : String
  range : IntegerRange
  deriving DecidableEq

class Variable (X : Type) extends Key X where
  vtype : X → Typ

def vid {X : Type} [Variable X] (x : X) : ℤ := (Key.id x).toInt

theorem vid_injective {X : Type} [Variable X] : Function.Injective (vid (X := X)) := fun _ _ h =>
  Key.id_injective (BitVec.eq_of_toInt_eq h)

/-- A pair of variables in the order of their identifiers. -/
structure Pair (X : Type) [Variable X] where
  fst : X
  snd : X
  ordered : vid fst < vid snd
  deriving DecidableEq

def Pair.make {X : Type} [Variable X] (x y : X) : Res (Pair X × Bool) :=
  if h : vid x = vid y then .error .assertFailure
  else if h' : vid x < vid y then .ok (⟨x,y,h'⟩,false)
  else .ok (⟨y,x,lt_of_le_of_ne (not_lt.mp h') (Ne.symm h)⟩,true)

abbrev VariableSet (X : Type) := Finset X

namespace VariableSet
variable {X : Type} [DecidableEq X] [Variable X]

instance : IsTrans X fun x y => vid x ≤ vid y := ⟨fun _ _ _ => le_trans⟩
instance : Std.Antisymm fun x y : X => vid x ≤ vid y := ⟨fun _ _ h h' => vid_injective (le_antisymm h h')⟩
instance : Std.Total fun x y : X => vid x ≤ vid y := ⟨fun x y => le_total (vid x) (vid y)⟩

def elements (s : VariableSet X) : List X := s.sort fun x y => vid x ≤ vid y

end VariableSet

inductive BinOp
  | add
  | sub
  deriving DecidableEq

/-- The operations of `Ival` that the domain uses; `widen` is under the default hints. -/
class IvalOps (I : Type) where
  top : I
  isBottom : I → Bool
  isIncluded : I → I → Bool
  join : I → I → I
  narrow : I → I → I
  widen : I → I → I
  addInt : I → I → I
  subInt : I → I → I
  negInt : I → I
  injectRange : ℤ → ℤ → I

section Domain
variable {X I Z : Type} [DecidableEq X] [Variable X] [Key (Pair X)] [DecidableEq I] [IvalOps I]

namespace Arith

/-- `none` is the bottom. -/
def narrow (x y : I) : Option I :=
  let r := IvalOps.narrow x y
  if IvalOps.isBottom r then none else some r

def isTopForTyp (typ : Typ) (ival : I) : Bool :=
  ival == IvalOps.top ||
    let range : I := IvalOps.injectRange typ.range.lowerBound typ.range.upperBound
    IvalOps.isIncluded range ival || IvalOps.isIncluded range (IvalOps.negInt ival)

def isTopForPair (pair : Pair X) (ival : I) : Bool :=
  if Variable.vtype pair.fst = Variable.vtype pair.snd then isTopForTyp (Variable.vtype pair.fst) ival
  else isTopForTyp (Variable.vtype pair.fst) ival && isTopForTyp (Variable.vtype pair.snd) ival

end Arith

/-- Intervals for `X + Y` and `X - Y`. -/
structure Diamond (I : Type) where
  add : I
  sub : I
  deriving DecidableEq

namespace Diamond

def top : Diamond I := ⟨IvalOps.top,IvalOps.top⟩

def join (x y : Diamond I) : Diamond I := ⟨IvalOps.join x.add y.add,IvalOps.join x.sub y.sub⟩

def widen (x y : Diamond I) : Diamond I := ⟨IvalOps.widen x.add y.add,IvalOps.widen x.sub y.sub⟩

def narrow (x y : Diamond I) : Option (Diamond I) := do
  let add ← Arith.narrow x.add y.add
  let sub ← Arith.narrow x.sub y.sub
  return ⟨add,sub⟩

def reverseVariables (swap : Bool) (t : Diamond I) : Diamond I :=
  if swap then { t with sub := IvalOps.negInt t.sub } else t

/-- `none` if both ivals are meaningless. -/
def trim (pair : Pair X) (t : Diamond I) : Option (Diamond I) :=
  match Arith.isTopForPair pair t.add, Arith.isTopForPair pair t.sub with
  | true, true => none
  | true, false => some { t with add := IvalOps.top }
  | false, true => some { t with sub := IvalOps.top }
  | false, false => some t

end Diamond

/-- `b ≤ X ± Y ≤ e`. -/
structure Octagon (X I : Type) [Variable X] where
  vars : Pair X
  operation : BinOp
  value : I

namespace OctagonMap

/-- A decision that raises is `none`. -/
def narrow (x y : Tree (Pair X) (Diamond I)) : Option (Tree (Pair X) (Diamond I)) :=
  (Merger.ofJoin true true fun _ x y => Diamond.narrow x y).merge noCache x y

def simpleJoin (x y : Tree (Pair X) (Diamond I)) : Tree (Pair X) (Diamond I) :=
  (Merger.ofInter (M := Id) true true fun pair x y => Diamond.trim pair (Diamond.join x y)).plain x y

def join (decideLeft decideRight : Pair X → Diamond I → Option (Diamond I)) (x y : Tree (Pair X) (Diamond I)) :
    Tree (Pair X) (Diamond I) :=
  (Merger.ofMerge (M := Id) false true (fun pair x y => Diamond.trim pair (Diamond.join x y))
    (.traversing decideLeft) (.traversing decideRight)).plain x y

def simpleWiden (x y : Tree (Pair X) (Diamond I)) : Tree (Pair X) (Diamond I) :=
  (Merger.ofInter (M := Id) false true fun pair x y => Diamond.trim pair (Diamond.widen x y)).plain x y

def widen (decideLeft decideRight : Pair X → Diamond I → Option (Diamond I)) (x y : Tree (Pair X) (Diamond I)) :
    Tree (Pair X) (Diamond I) :=
  (Merger.ofMerge (M := Id) false true (fun pair x y => Diamond.trim pair (Diamond.widen x y))
    (.traversing decideLeft) (.traversing decideRight)).plain x y

def add (vars : Pair X) (diamond : Diamond I) (t : Tree (Pair X) (Diamond I)) :
    Option (Tree (Pair X) (Diamond I)) :=
  match t.find vars with
  | some d => (Diamond.narrow diamond d).map fun diamond => t.add vars diamond
  | none => some (t.add vars diamond)

def addOctagon (o : Octagon X I) (t : Tree (Pair X) (Diamond I)) : Option (Tree (Pair X) (Diamond I)) :=
  let diamond := (t.find o.vars).getD Diamond.top
  let diamond := match o.operation with
    | .add => (Arith.narrow diamond.add o.value).map fun add => { diamond with add := add }
    | .sub => (Arith.narrow diamond.sub o.value).map fun sub => { diamond with sub := sub }
  diamond.map fun diamond => t.add o.vars diamond

end OctagonMap

namespace Relations

def inter (x y : Tree X (VariableSet X)) : Tree X (VariableSet X) :=
  (Merger.ofInter (M := Id) true true fun _ x y => if x ∩ y = ∅ then none else some (x ∩ y)).plain x y

def union (x y : Tree X (VariableSet X)) : Tree X (VariableSet X) :=
  (Merger.ofJoin (M := Id) true true fun _ (x y : VariableSet X) => (x ∪ y : VariableSet X)).plain x y

/-- Marks `y` as related to `x`. -/
def relateAux (x y : X) (t : Tree X (VariableSet X)) : Tree X (VariableSet X) :=
  t.add x (insert y ((t.find x).getD ∅))

def relate (pair : Pair X) (t : Tree X (VariableSet X)) : Tree X (VariableSet X) :=
  relateAux pair.snd pair.fst (relateAux pair.fst pair.snd t)

def add (x : X) (set : VariableSet X) (t : Tree X (VariableSet X)) : Tree X (VariableSet X) :=
  if set = ∅ then t.remove x else t.add x set

end Relations

namespace Intervals

def narrow (x y : Tree X I) : Option (Tree X I) :=
  (Merger.ofJoin true true fun _ x y => Arith.narrow x y).merge noCache x y

def join (x y : Tree X I) : Tree X I :=
  (Merger.ofInter (M := Id) true true fun _ x y =>
    if IvalOps.join x y = IvalOps.top then none else some (IvalOps.join x y)).plain x y

def widen (x y : Tree X I) : Tree X I :=
  (Merger.ofInter (M := Id) false true fun _ x y =>
    if IvalOps.widen x y = IvalOps.top then none else some (IvalOps.widen x y)).plain x y

end Intervals

structure Settings where
  inferIntervals : Bool
  saturateOctagons : Bool

class ZoneOps (Z : Type) where
  bottom : Z
  join : Z → Z → Z
  narrow : Z → Z → Z

structure State (X I Z : Type) [Variable X] where
  octagons : Tree (Pair X) (Diamond I)
  intervals : Tree X I
  relations : Tree X (VariableSet X)
  modified : Z

variable [ZoneOps Z]

namespace State

def empty : State X I Z := ⟨.empty,.empty,.empty,ZoneOps.bottom⟩

def intervalDiamond (intervals : Tree X I) (pair : Pair X) : Option (Diamond I) := do
  let i1 ← intervals.find pair.fst
  let i2 ← intervals.find pair.snd
  return ⟨IvalOps.addInt i1 i2,IvalOps.subInt i1 i2⟩

def joinRelations (c : Settings) (t1 t2 : State X I Z) : Tree X (VariableSet X) :=
  if c.inferIntervals then Relations.union t1.relations t2.relations else Relations.inter t1.relations t2.relations

def join (c : Settings) (t1 t2 : State X I Z) : State X I Z :=
  let decideEmpty (intervals : Tree X I) (pair : Pair X) (diamond : Diamond I) : Option (Diamond I) := do
    let d ← intervalDiamond intervals pair
    Diamond.trim pair (Diamond.join diamond d)
  { octagons :=
      if !c.inferIntervals then OctagonMap.simpleJoin t1.octagons t2.octagons
      else OctagonMap.join (decideEmpty t2.intervals) (decideEmpty t1.intervals) t1.octagons t2.octagons
    relations := joinRelations c t1 t2
    intervals := Intervals.join t1.intervals t2.intervals
    modified := ZoneOps.join t1.modified t2.modified }

def widen (c : Settings) (t1 t2 : State X I Z) : State X I Z :=
  let decideEmpty (b : Bool) (intervals : Tree X I) (pair : Pair X) (diamond : Diamond I) :
      Option (Diamond I) := do
    let d ← intervalDiamond intervals pair
    Diamond.trim pair (if b then Diamond.widen d diamond else Diamond.widen diamond d)
  { octagons :=
      if !c.inferIntervals then OctagonMap.simpleWiden t1.octagons t2.octagons
      else OctagonMap.widen (decideEmpty false t2.intervals) (decideEmpty true t1.intervals) t1.octagons t2.octagons
    relations := joinRelations c t1 t2
    intervals := Intervals.widen t1.intervals t2.intervals
    modified := ZoneOps.join t1.modified t2.modified }

def narrow (t1 t2 : State X I Z) : Option (State X I Z) := do
  let octagons ← OctagonMap.narrow t1.octagons t2.octagons
  let intervals ← Intervals.narrow t1.intervals t2.intervals
  let relations := Relations.union t1.relations t2.relations
  let modified := ZoneOps.narrow t1.modified t2.modified
  return ⟨octagons,intervals,relations,modified⟩

structure Relation (X I : Type) where
  vars : X × X
  diamond : Diamond I

def addDiamond (state : State X I Z) (pair : Pair X) (diamond : Diamond I) : Option (State X I Z) :=
  match Diamond.trim pair diamond with
  | none => some state
  | some diamond =>
    (OctagonMap.add pair diamond state.octagons).map fun octagons =>
      { state with octagons := octagons, relations := Relations.relate pair state.relations }

def inverse (r : Relation X I) : Relation X I :=
  ⟨(r.vars.2,r.vars.1),Diamond.reverseVariables true r.diamond⟩

def transitiveRelation (y : X) (rel1 rel2 : Relation X I) : Res (Pair X × Diamond I) := do
  let rel1 := if y = rel1.vars.2 then rel1 else inverse rel1
  let rel2 := if y = rel2.vars.1 then rel2 else inverse rel2
  let add := IvalOps.narrow (IvalOps.subInt rel1.diamond.add rel2.diamond.sub)
    (IvalOps.addInt rel1.diamond.sub rel2.diamond.add)
  let sub := IvalOps.narrow (IvalOps.subInt rel1.diamond.add rel2.diamond.add)
    (IvalOps.addInt rel1.diamond.sub rel2.diamond.sub)
  let (pair,swap) ← Pair.make rel1.vars.1 rel2.vars.2
  return (pair,Diamond.reverseVariables swap ⟨add,sub⟩)

def saturateStep (y : X) (rel1 : Relation X I) (state : Option (State X I Z)) (z : X) : Res (Option (State X I Z)) :=
  match state with
  | none => return none
  | some state => do
    let (pair,_) ← Pair.make y z
    match state.octagons.find pair with
    | none => return some state
    | some diamond =>
      let (pair,diamond) ← transitiveRelation y rel1 ⟨(pair.fst,pair.snd),diamond⟩
      return addDiamond state pair diamond

def saturate (state : State X I Z) (x y : X) (rel1 : Relation X I) : Res (Option (State X I Z)) :=
  match state.relations.find y with
  | none => return some state
  | some yRelated => (VariableSet.elements (yRelated.erase x)).foldlM (saturateStep y rel1) (some state)

def octagonRelation (o : Octagon X I) : Relation X I :=
  let diamond : Diamond I := match o.operation with
    | .add => ⟨o.value,IvalOps.top⟩
    | .sub => ⟨IvalOps.top,o.value⟩
  ⟨(o.vars.fst,o.vars.snd),diamond⟩

def saturateOctagon (c : Settings) (state : State X I Z) (o : Octagon X I) : Res (Option (State X I Z)) :=
  if c.saturateOctagons then do
    match ← saturate state o.vars.snd o.vars.fst (octagonRelation o) with
    | none => return none
    | some state => saturate state o.vars.fst o.vars.snd (octagonRelation o)
  else return some state

def addOctagon (c : Settings) (state : State X I Z) (o : Octagon X I) : Res (Option (State X I Z)) :=
  if Arith.isTopForPair o.vars o.value then return some state
  else do
    match ← saturateOctagon c state o with
    | none => return none
    | some state =>
      return (OctagonMap.addOctagon o state.octagons).map fun octagons =>
        { state with octagons := octagons, relations := Relations.relate o.vars state.relations }

def removeOne (x : X) (state : State X I Z) (y : X) : Res (State X I Z) :=
  match state.relations.find y with
  | none => return state
  | some yRelations => do
    let relations := Relations.add y (yRelations.erase x) state.relations
    let (pair,_) ← Pair.make x y
    return { state with octagons := state.octagons.remove pair, relations := relations }

def remove (state : State X I Z) (x : X) : Res (State X I Z) :=
  let state := { state with intervals := state.intervals.remove x }
  match state.relations.find x with
  | none => return state
  | some relations => do
    let state ← (VariableSet.elements relations).foldlM (removeOne x) state
    return { state with relations := state.relations.remove x }

/-- The new relation of `x` and `y` where `x' = ±x - delta`. -/
def shiftDiamond (inverse swap : Bool) (delta : I) (diamond : Diamond I) : Diamond I :=
  let diamond : Diamond I :=
    if inverse then
      let op : I → I := if swap then fun x => x else IvalOps.negInt
      ⟨op diamond.sub,op diamond.add⟩
    else diamond
  let op : I → I → I := if swap then IvalOps.addInt else IvalOps.subInt
  ⟨if diamond.add = IvalOps.top then diamond.add else IvalOps.subInt diamond.add delta,
    if diamond.sub = IvalOps.top then diamond.sub else op diamond.sub delta⟩

def shiftOne (inverse : Bool) (x : X) (delta : I) (state : State X I Z) (y : X) : Res (State X I Z) := do
  let (pair,swap) ← Pair.make x y
  match state.octagons.find pair with
  | none => return state
  | some diamond =>
    return { state with octagons := state.octagons.add pair (shiftDiamond inverse swap delta diamond) }

def subDelta (inverse : Bool) (state : State X I Z) (x : X) (delta : I) : Res (State X I Z) :=
  let state := { state with intervals := state.intervals.remove x }
  match state.relations.find x with
  | none => .error .notFound
  | some xRelated => (VariableSet.elements xRelated).foldlM (shiftOne inverse x delta) state

end State
end Domain
end FramaC.Octagons
