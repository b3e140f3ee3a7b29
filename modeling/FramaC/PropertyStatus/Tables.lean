import Mathlib.Data.List.Basic

/-! # The tables of property statuses

`Status` binds a property to the statuses of its emitters; `Hypotheses` binds a property to the
statuses that use it. An emitter comes with a mutable record, that both tables share: records have
addresses here. A property comes with the address of its block where physical equality is read.
`none` stands for a fatal error or an exception.
-/
namespace FramaC.PropertyStatus

inductive Emitted
  | true
  | falseIfReachable
  | falseAndReachable
  | dontKnow
  deriving DecidableEq, Repr

/-- What the tables read of a property. -/
inductive Kind (P : Type)
  | axiomatic (props : List (P × ℕ))
  | behavior (posts : List (P × ℕ))
  | axiomKind
  | assumes
  | alwaysReachable
  | reachable
  | other
  | propertyInstance
  | verifiable
  deriving Repr

/-- Properties with their kind and their reachability property. -/
class Properties (P : Type) where
  kind : P → Kind P
  ipReachablePpt : P → P

/-- Usable emitters, with the one of the kernel. -/
class Emitters (E : Type) where
  kernel : E

open Properties Emitters

/-- `emitter_with_properties`. -/
structure Record (P E : Type) where
  emitter : E
  objects : List (P × ℕ)
  logicalConsequence : Bool

def Record.properties {P E : Type} (r : Record P E) : List P := r.objects.map Prod.fst

structure Tables (P E : Type) where
  next : ℕ
  record : ℕ → Record P E
  status : P → Option (List (ℕ × Emitted))
  hypotheses : P → List (P × ℕ)

variable {P E : Type} [DecidableEq P] [Properties P] [DecidableEq E] [Emitters E]

def Tables.init : Tables P E := ⟨0,fun _ => ⟨kernel,[],false⟩,fun _ => none,fun _ => []⟩

def isOther (p : P) : Bool :=
  match kind p with
  | .other => true
  | _ => false

def isReachable (p : P) : Bool :=
  match kind p with
  | .alwaysReachable => true
  | .reachable => true
  | _ => false

def isAutoRegistered (p : P) : Bool :=
  match kind p with
  | .other => true
  | .alwaysReachable => true
  | .reachable => true
  | .propertyInstance => true
  | _ => false

def isKernelOnly (p : P) : Bool :=
  match kind p with
  | .axiomatic _ => true
  | .behavior _ => true
  | .axiomKind => true
  | .assumes => true
  | _ => false

def isAlwaysReachable (p : P) : Bool :=
  match kind p with
  | .alwaysReachable => true
  | _ => false

omit [DecidableEq P] in
theorem isReachable_of_isAlwaysReachable {p : P} (h : isAlwaysReachable p = true) : isReachable p = true := by
  unfold isAlwaysReachable at h
  unfold isReachable
  cases hk : kind p <;> simp [hk] at h ⊢

/-- Whether the first is the strongest; `none` when they are inconsistent. -/
def checkStrongestEmitted : Emitted → Emitted → Option Bool
  | .true,.falseIfReachable => none
  | .true,.falseAndReachable => none
  | .falseIfReachable,.true => none
  | .falseAndReachable,.true => none
  | .dontKnow,_ => some false
  | .true,.true => some false
  | .falseIfReachable,.falseAndReachable => some false
  | .falseIfReachable,.falseIfReachable => some false
  | .falseAndReachable,.falseAndReachable => some false
  | .true,.dontKnow => some Bool.true
  | .falseIfReachable,.dontKnow => some Bool.true
  | .falseAndReachable,.dontKnow => some Bool.true
  | .falseAndReachable,.falseIfReachable => some Bool.true

/-- Whether to keep the first; `none` when they are not mergeable. -/
def mergeDistinctEmitted : Emitted → Emitted → Option Bool
  | .falseAndReachable,.true => some Bool.true
  | .falseAndReachable,.dontKnow => some Bool.true
  | .falseAndReachable,.falseIfReachable => some Bool.true
  | .dontKnow,.true => some Bool.true
  | .dontKnow,.falseIfReachable => some Bool.true
  | .true,.falseAndReachable => some false
  | .falseIfReachable,.falseAndReachable => some false
  | .dontKnow,.falseAndReachable => some false
  | .falseIfReachable,.dontKnow => some false
  | .true,.dontKnow => some false
  | .dontKnow,.dontKnow => some false
  | .falseIfReachable,.falseIfReachable => some false
  | .falseAndReachable,.falseAndReachable => some false
  | .true,.true => some false
  | .falseIfReachable,.true => none
  | .true,.falseIfReachable => none

namespace Tables
variable (t : Tables P E)

def entries (p : P) : List (ℕ × Emitted) := (t.status p).getD []

/-- The hook: removes the property from the lists of the hypotheses of the record. -/
def applyHooksOnRemove (a : ℕ) (ppt : P) : Tables P E :=
  { t with hypotheses := fun h =>
      if h ∈ (t.record a).properties then (t.hypotheses h).filter fun q => !decide (q.1 = ppt) else t.hypotheses h }

/-- Replaces the status of the emitter, and lists it under its hypotheses. -/
def add (ppt : P) (r : Record P E) (s : Emitted) : Tables P E where
  next := t.next + 1
  record := Function.update t.record t.next r
  status := Function.update t.status ppt
    (some ((t.next,s) :: (t.entries ppt).filter fun x => !decide ((t.record x.1).emitter = r.emitter)))
  hypotheses h := List.replicate (if isOther h then 0 else r.properties.count h) (ppt,t.next) ++ t.hypotheses h

def findEmitter (ppt : P) (e : E) : Option (ℕ × Emitted) :=
  (t.entries ppt).find? fun x => decide ((t.record x.1).emitter = e)

/-- The beginning of `emit`: the hook on the previous status of the emitter. -/
def forgetPrevious (ppt : P) (e : E) : Tables P E :=
  match t.findEmitter ppt e with
  | some x => t.applyHooksOnRemove x.1 ppt
  | none => t

/-- `emit` on a registered property, when it needs no reachability. -/
def emitPlain (e : E) (hyps : List (P × ℕ)) (auto : Bool) (ppt : P) (s : Emitted) : Tables P E :=
  (t.forgetPrevious ppt e).add ppt ⟨e,hyps,auto⟩ s

def registerAsKernelLogicalConsequence (ppt : P) : Tables P E :=
  match kind ppt with
  | .axiomatic props => t.emitPlain kernel props Bool.true ppt .dontKnow
  | .behavior posts => t.emitPlain kernel posts Bool.true ppt .dontKnow
  | .alwaysReachable => t.emitPlain kernel [] Bool.true ppt .true
  | _ => t

def register (ppt : P) : Option (Tables P E) :=
  if (t.status ppt).isSome then none
  else
    let t := { t with status := Function.update t.status ppt (some []) }
    some (t.registerAsKernelLogicalConsequence ppt)

def ensureRegistered (ppt : P) : Option (Tables P E) :=
  if (t.status ppt).isSome then some t else if isAutoRegistered ppt then t.register ppt else none

def emitValid (ppt : P) : Option (Tables P E) := do
  let t ← t.ensureRegistered ppt
  some (t.emitPlain kernel [] Bool.true ppt .true)

/-- `emit` on a registered property. The address of the reachability property is never read, since the
status is no consequence. -/
def emitRegistered (e : E) (hyps : List (P × ℕ)) (auto : Bool) (ppt : P) (s : Emitted) : Option (Tables P E) :=
  match s with
  | .true => some (t.emitPlain e hyps auto ppt s)
  | .dontKnow => some (t.emitPlain e hyps auto ppt s)
  | .falseAndReachable => if hyps = [] then some (t.emitPlain e hyps auto ppt s) else none
  | .falseIfReachable =>
    if isReachable ppt then none
    else if hyps = [] then do
      let t := t.forgetPrevious ppt e
      let reachPpt := ipReachablePpt ppt
      let t ← if isAlwaysReachable reachPpt then t.emitValid reachPpt else some t
      some (t.add ppt ⟨e,[(reachPpt,0)],auto⟩ s)
    else none

def unsafeEmitAndGet (e : E) (hyps : List (P × ℕ)) (auto : Bool) (ppt : P) (distinct : Bool) (s : Emitted) :
    Option (Tables P E) := do
  let t ← t.ensureRegistered ppt
  if auto then t.emitRegistered e hyps auto ppt s
  else
    match t.findEmitter ppt e with
    | none => t.emitRegistered e hyps auto ppt s
    | some (_,oldS) =>
      if distinct then
        match mergeDistinctEmitted s oldS with
        | some first => if first then t.emitRegistered e hyps auto ppt s else some t
        | none => t.emitRegistered e hyps auto ppt .dontKnow
      else do
        let first ← checkStrongestEmitted s oldS
        if first then t.emitRegistered e hyps auto ppt s else some t

def emit (e : E) (hyps : List (P × ℕ)) (ppt : P) (distinct : Bool) (s : Emitted) : Option (Tables P E) :=
  if isKernelOnly ppt then none else t.unsafeEmitAndGet e hyps false ppt distinct s

/-- Removes a status that uses the property; a consequence only loses the hypothesis. -/
def removeUse (hyp : P × ℕ) (t : Tables P E) (q : P × ℕ) : Option (Tables P E) :=
  let r := t.record q.2
  if r.logicalConsequence then
    let r' := { r with objects := r.objects.filter fun p => !decide (p = hyp) }
    some { t with record := Function.update t.record q.2 r' }
  else
    match t.status q.1 with
    | none => none
    | some l =>
      let l' := l.filter fun x => !decide ((t.record x.1).emitter = r.emitter)
      some { t with status := Function.update t.status q.1 (some l') }

def removeWhenUsedAsHypothesis (hyp : P × ℕ) : Option (Tables P E) :=
  (t.hypotheses hyp.1).foldlM (removeUse hyp) t

def removeHypsFromHypotheses (ppt : P) : Tables P E :=
  (t.entries ppt).foldl (fun t x => t.applyHooksOnRemove x.1 ppt) t

/-- Removing a property from `Status` applies the hooks once more. -/
def remove (ppt : P × ℕ) : Option (Tables P E) := do
  let t ← t.removeWhenUsedAsHypothesis ppt
  let t := t.removeHypsFromHypotheses ppt.1
  let t := t.removeHypsFromHypotheses ppt.1
  some { t with status := Function.update t.status ppt.1 none }

end Tables

/-- Two annotations, and their reachability. -/
inductive Annot
  | goal
  | hyp
  | reach
  deriving DecidableEq

instance : Properties Annot where
  kind
    | .reach => .reachable
    | _ => .verifiable
  ipReachablePpt _ := .reach

inductive Prover
  | kernel
  | wp
  | eva
  deriving DecidableEq

instance : Emitters Prover := ⟨.kernel⟩

end FramaC.PropertyStatus
