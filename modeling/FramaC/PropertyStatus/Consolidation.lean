import FramaC.PropertyStatus.Tables
import Mathlib.Data.Finset.Basic

/-! # Consolidated statuses

The local status of a property is the best of its emitted statuses. Its consolidated status follows
the hypotheses of the best emitters, and is memoised. Here a table binds a property to its emitters
with their statuses, in the order of their enumeration. `none` stands for a fatal error, a failed
assertion or no fuel. The emitter and the path that the source passes along are read by nothing.
-/
namespace FramaC.PropertyStatus
open Properties Emitters

/-- `emitter_with_properties`. -/
structure Emission (P E : Type) where
  emitter : E
  properties : List P
  logicalConsequence : Bool
  deriving DecidableEq

abbrev Entry (P E : Type) := Emission P E × Emitted

inductive Local (P E : Type)
  | neverTried
  | best (s : Emitted) (l : List (Emission P E))
  | inconsistent (valid invalid : List (Emission P E))
  deriving DecidableEq

/-- What is read of a property besides its kind. -/
class ProgramProperties (P : Type) extends Properties P where
  isPostOfDeclaration : P → Bool
  isReachable_ipReachablePpt : ∀ p : P, isReachable (ipReachablePpt p) = true

open ProgramProperties

abbrev EmitterMap (E V : Type) := List (E × V)

namespace EmitterMap
variable {E V : Type} [DecidableEq E]

def add (e : E) (v : V) (m : EmitterMap E V) : EmitterMap E V := (e,v) :: m.filter fun x => !decide (x.1 = e)

def find (e : E) (m : EmitterMap E V) : Option V := (m.find? fun x => decide (x.1 = e)).map Prod.snd

def singleton (e : E) (v : V) : EmitterMap E V := [(e,v)]

end EmitterMap

abbrev Issues (P E : Type) := EmitterMap E (Finset P)

abbrev Pending (P E : Type) := EmitterMap E (Issues P E)

inductive Message (P E : Type)
  | validAtLeast (e : E) (invalid : List E)
  | invalidAtLeast (valid : List E) (e : E)
  | locally (valid invalid : List (Emission P E))

inductive Consolidated (P E : Type)
  | neverTried
  | consideredValid
  | valid (emitters : List E)
  | validUnderHyp (m : Pending P E)
  | unknown (m : Pending P E)
  | invalid (emitters : List E)
  | invalidUnderHyp (m : Pending P E)
  | invalidButDead (m : Pending P E)
  | validButDead (m : Pending P E)
  | unknownButDead (m : Pending P E)
  | inconsistent (msg : Message P E)

/-- `Status`, `Consolidated_status` and `visited_ppt`. -/
structure State (P E : Type) where
  table : P → Option (List (Entry P E))
  memo : P → Option (Consolidated P E)
  visited : P → Bool

abbrev Run (P E : Type) := StateT (State P E) Option

variable {P E : Type} [DecidableEq P] [ProgramProperties P] [DecidableEq E] [Emitters E]

def strengthen (e : Emission P E) (s : Emitted) : Local P E → Option (Local P E)
  | .neverTried => some (.best s [e])
  | .best s₀ l =>
    if s₀ = s then some (.best s₀ (e :: l))
    else
      match checkStrongestEmitted s₀ s with
      | some first => if first then some (.best s₀ l) else some (.best s [e])
      | none =>
        match s₀ with
        | .true =>
          if s = .falseIfReachable ∨ s = .falseAndReachable then some (.inconsistent l [e]) else none
        | .falseIfReachable => if s = .true then some (.inconsistent [e] l) else none
        | .falseAndReachable => if s = .true then some (.inconsistent [e] l) else none
        | .dontKnow => none
  | .inconsistent valid invalid =>
    match s with
    | .true => some (.inconsistent (e :: valid) invalid)
    | .falseIfReachable => some (.inconsistent valid (e :: invalid))
    | .falseAndReachable => some (.inconsistent valid (e :: invalid))
    | .dontKnow => some (.inconsistent valid invalid)

def conjunction : Emitted → Emitted → Emitted
  | .falseAndReachable,_ => .falseAndReachable
  | _,.falseAndReachable => .falseAndReachable
  | .falseIfReachable,_ => .falseIfReachable
  | _,.falseIfReachable => .falseIfReachable
  | .dontKnow,_ => .dontKnow
  | _,.dontKnow => .dontKnow
  | .true,.true => .true

def isNotVerifiableButValid (ppt : P) : Local P E → Bool
  | .neverTried =>
    match kind ppt with
    | .other => false
    | .alwaysReachable => false
    | .reachable => false
    | .axiomKind => true
    | .axiomatic _ => true
    | _ => isPostOfDeclaration ppt
  | _ => false

def emittedStatus : Local P E → Emitted
  | .best s _ => s
  | _ => .dontKnow

def localStatus (ppt : P) (status : Local P E) : Emitted :=
  if isNotVerifiableButValid ppt status then .true else emittedStatus status

def isTried : Local P E → Bool
  | .neverTried => false
  | _ => true

/-- The entries of a property that has just been registered on its first use. -/
def kernelEntries (ppt : P) : List (Entry P E) :=
  if isAlwaysReachable ppt then [(⟨kernel,[],true⟩,.true)] else []

def setEntries (ppt : P) (l : List (Entry P E)) (st : State P E) : State P E :=
  { st with table := Function.update st.table ppt (some l) }

/-- `Hashtbl.replace by_emitter e s`. -/
def replaceStatus (ppt : P) (e : Emission P E) (s : Emitted) (st : State P E) : State P E :=
  let entries := (st.table ppt).map fun l => l.map fun x => if x.1.emitter = e.emitter then (e,s) else x
  { st with table := Function.update st.table ppt entries }

def consequenceHyps (e : Emission P E) : List P := e.properties.filter fun p => !isReachable p

def emitterStatus (getStatus : P → Run P E (Local P E)) (ppt : P) (x : Entry P E) : Run P E (Emitted × Bool) :=
  if x.1.logicalConsequence && decide (x.2 = .dontKnow) then do
    let newS ← (consequenceHyps x.1).foldlM
      (fun s p => getStatus p >>= fun status => pure (conjunction s (localStatus p status))) Emitted.true
    if newS = .dontKnow then do
      let tried ← (consequenceHyps x.1).anyM fun p => getStatus p >>= fun status => pure (isTried status)
      pure (newS,tried)
    else do
      modify (replaceStatus ppt x.1 newS)
      pure (newS,true)
  else pure (x.2,true)

def addStatus (getStatus : P → Run P E (Local P E)) (ppt : P) (acc : Local P E) (x : Entry P E) :
    Run P E (Local P E) := do
  let (s,tried) ← emitterStatus getStatus ppt x
  if tried then StateT.lift (strengthen x.1 s acc) else pure acc

@[grind =] def getStatus : ℕ → Bool → P → Run P E (Local P E)
  | 0,_,_ => StateT.lift none
  | n + 1,mustRegister,ppt => do
    match (← get).table ppt with
    | some l => l.foldlM (addStatus (getStatus n true) ppt) .neverTried
    | none =>
      if isAutoRegistered ppt then
        if mustRegister then do
          modify (setEntries ppt (kernelEntries ppt))
          -- the recursive call finds these entries
          if isAlwaysReachable ppt then (kernelEntries ppt).foldlM (addStatus (getStatus n true) ppt) .neverTried
          else pure .neverTried
        else pure .neverTried
      else StateT.lift none

def mergeProperty (e : E) (ppt : P) (map : Issues P E) : Issues P E :=
  match map.find e with
  | some ps => map.add e (insert ppt ps)
  | none => map.add e {ppt}

def mergeProperties (e : E) (ps : Finset P) (map : Issues P E) : Option (Issues P E) :=
  match map.find e with
  | some ps₂ => some (map.add e (ps ∪ ps₂))
  | none => if ps = ∅ then none else some (map.add e ps)

def flattenMap (init : Issues P E) (map : Pending P E) : Option (Issues P E) :=
  map.foldlM (fun acc x => x.2.foldlM (fun acc y => mergeProperties y.1 y.2 acc) acc) init

def flattenSet (init : Issues P E) (h : P) (emitters : List E) : Issues P E :=
  emitters.foldl (fun map e => mergeProperty e h map) init

def kernelIssue (ppt : P) : Issues P E := EmitterMap.singleton kernel {ppt}

def reduceHypothesisStatus (ppt : P) : Consolidated P E → Consolidated P E
  | .neverTried => .unknown (EmitterMap.singleton kernel (kernelIssue ppt))
  | .inconsistent _ => .unknown (EmitterMap.singleton kernel (kernelIssue ppt))
  | .invalidUnderHyp m => .unknown m
  | .consideredValid => .valid []
  | .valid _ => .valid []
  | .invalidButDead m => .validButDead m
  | .validButDead m => .validButDead m
  | .unknownButDead m => .validButDead m
  | .validUnderHyp m => .unknown m
  | .unknown m => .unknown m
  | .invalid emitters => .invalid emitters

@[grind =] def hypothesesConjunction (issues : Issues P E) (h : P) :
    Consolidated P E → Consolidated P E → Option (Consolidated P E × Issues P E)
  | _,.neverTried => none
  | .consideredValid,_ => none
  | _,.consideredValid => none
  | .validUnderHyp _,_ => none
  | _,.validUnderHyp _ => none
  | .inconsistent _,_ => none
  | _,.inconsistent _ => none
  | .invalidUnderHyp _,_ => none
  | _,.invalidUnderHyp _ => none
  | .invalidButDead _,_ => none
  | _,.invalidButDead _ => none
  | .unknownButDead _,_ => none
  | _,.unknownButDead _ => none
  | .neverTried,.unknown m => if issues = [] then (flattenMap issues m).map fun i => (.unknown [],i) else none
  | .neverTried,.valid _ => if issues = [] then some (.valid [],issues) else none
  | .neverTried,.validButDead _ => if issues = [] then some (.valid [],issues) else none
  | .invalid set₁,.invalid set₂ => if set₁ = [] then some (.invalid [],flattenSet issues h set₂) else none
  | _,.invalid set => some (.invalid [],flattenSet [] h set)
  | .invalid set,_ => if set = [] then some (.invalid [],issues) else none
  | .unknown m₁,.unknown m₂ => if m₁ = [] then (flattenMap issues m₂).map fun i => (.unknown [],i) else none
  | .unknown m,.valid _ => (flattenMap issues m).map fun i => (.unknown [],i)
  | .unknown m,.validButDead _ => (flattenMap issues m).map fun i => (.unknown [],i)
  | .valid _,.unknown m => (flattenMap issues m).map fun i => (.unknown [],i)
  | .validButDead _,.unknown m => (flattenMap issues m).map fun i => (.unknown [],i)
  | .valid _,.valid _ => if issues = [] then some (.valid [],issues) else none
  | .valid _,.validButDead _ => if issues = [] then some (.valid [],issues) else none
  | .validButDead _,.valid _ => if issues = [] then some (.valid [],issues) else none
  | .validButDead _,.validButDead _ => if issues = [] then some (.valid [],issues) else none

def addEmitter (e : E) (emitters : List E) : List E := if e ∈ emitters then emitters else e :: emitters

@[grind =] def chooseBestEmitter (e : E) (issues : Issues P E) :
    Consolidated P E → Consolidated P E → Option (Consolidated P E)
  | _,.neverTried => none
  | .consideredValid,_ => none
  | _,.consideredValid => none
  | .validUnderHyp _,_ => none
  | _,.validUnderHyp _ => none
  | .invalidUnderHyp _,_ => none
  | _,.invalidUnderHyp _ => none
  | .validButDead _,_ => none
  | _,.validButDead _ => none
  | .unknownButDead _,_ => none
  | _,.unknownButDead _ => none
  | .inconsistent _,_ => none
  | _,.inconsistent _ => none
  | .invalid _,_ => none
  | _,.invalidButDead _ => none
  | .neverTried,.valid _ => some (.valid [e])
  | .neverTried,.invalid _ => some (.invalidButDead (EmitterMap.singleton e issues))
  | .neverTried,.unknown _ => some (.unknown (EmitterMap.singleton e issues))
  | .valid set,.unknown _ => some (.valid set)
  | .invalidButDead m,.unknown _ => some (.invalidButDead m)
  | .unknown _,.valid _ => some (.valid [e])
  | .unknown _,.invalid _ => some (.invalidButDead (EmitterMap.singleton e issues))
  | .valid set,.valid _ => some (.valid (addEmitter e set))
  | .invalidButDead m,.invalid _ => some (.invalidButDead (m.add e issues))
  | .unknown m,.unknown _ => some (.unknown (m.add e issues))
  | .invalidButDead m,.valid _ =>
    if issues = [] then some (.inconsistent (.validAtLeast e (m.map Prod.fst))) else none
  | .valid set,.invalid _ => some (.inconsistent (.invalidAtLeast set e))

def issuesWithoutEmitter (issues : Pending P E) : Issues P E :=
  issues.foldl (fun acc x => x.2.foldl (fun acc y => acc.add y.1 y.2) acc) []

def localHypIssues (emitters : List (Emission P E)) (ppt : P) (issues : Pending P E) : Pending P E :=
  emitters.foldl (fun acc ep => acc.add ep.emitter (mergeProperty ep.emitter ppt (issuesWithoutEmitter issues))) []

def validEmitters (ppt : P) (set : List E) (l : List (Emission P E)) : Pending P E :=
  l.foldl (fun acc ep => if ep.emitter ∈ set then acc.add ep.emitter (kernelIssue ppt) else acc) []

@[grind =] def mergeHypothesesAndLocalStatus (ppt : P) :
    Consolidated P E → Local P E → Option (Consolidated P E)
  | .neverTried,_ => none
  | .consideredValid,_ => none
  | .validUnderHyp _,_ => none
  | .invalidUnderHyp _,_ => none
  | .validButDead _,_ => none
  | .unknownButDead _,_ => none
  | .invalid _,_ => none
  | _,.neverTried => none
  | .valid set,.best .dontKnow _ =>
    some (.unknown (set.foldl (fun m e => m.add e (EmitterMap.singleton e {ppt})) []))
  | .valid set,.best .true _ => some (.valid set)
  | .valid set,.best .falseAndReachable _ => some (.invalid set)
  | .valid set,.best .falseIfReachable _ => some (.invalid set)
  | .valid set,.inconsistent valid invalid =>
    if validEmitters ppt set valid = [] then
      if validEmitters ppt set invalid = [] then none
      else some (.invalidButDead (validEmitters ppt set invalid))
    else if validEmitters ppt set invalid = [] then some (.validButDead (validEmitters ppt set valid))
    else some (.inconsistent (.locally valid invalid))
  | .invalidButDead m,.best .falseAndReachable _ => some (.invalidButDead m)
  | .invalidButDead m,.best .falseIfReachable _ => some (.invalidButDead m)
  | .invalidButDead m,.best .true _ => some (.validButDead m)
  | .invalidButDead m,.best .dontKnow _ => some (.unknownButDead m)
  | .invalidButDead m,.inconsistent _ _ => some (.unknownButDead m)
  | .unknown m,.best .true _ => some (.validUnderHyp m)
  | .unknown m,.best .falseIfReachable _ => some (.invalidUnderHyp m)
  | .unknown m,.best .falseAndReachable _ => some (.invalidUnderHyp m)
  | .unknown m,.best .dontKnow emitters => some (.unknown (localHypIssues emitters ppt m))
  | .unknown m,.inconsistent _ _ => some (.unknown m)
  | .inconsistent msg,_ => some (.inconsistent msg)

def consolidateOfLocalWhenCycle (fuel : ℕ) (ppt : P) : Run P E (Consolidated P E) := do
  match ← getStatus fuel false ppt with
  | .neverTried => pure .neverTried
  | .best .true _ => pure .consideredValid
  | .best .falseIfReachable _ => StateT.lift none
  | .best .falseAndReachable _ => StateT.lift none
  | _ => pure (.unknown (EmitterMap.singleton kernel (kernelIssue ppt)))

def addHypothesis (h : P) (x : Entry P E) : Entry P E :=
  if h ∈ x.1.properties then x else ({ x.1 with properties := h :: x.1.properties },x.2)

def consolidateReachable (fuel : ℕ) (ppt : P) : Run P E Unit :=
  if isReachable ppt then pure ()
  else do
    match ← getStatus fuel false (ipReachablePpt ppt) with
    | .best .falseAndReachable _ =>
      modify fun st =>
        let entries := (st.table ppt).map fun l => l.map (addHypothesis (ipReachablePpt ppt))
        { st with table := Function.update st.table ppt entries }
    | .best .falseIfReachable _ => StateT.lift none
    | _ => pure ()

def bestEmitters : Local P E → List (Emission P E)
  | .neverTried => []
  | .best _ l => l
  | .inconsistent valid invalid => valid ++ invalid

def hypsStatus (s : Consolidated P E) : Option (Consolidated P E) :=
  match s with
  | .neverTried => some (.valid [kernel])
  | .valid _ => some s
  | .invalid _ => some s
  | .unknown _ => some s
  | _ => none

def emittersStatus : Consolidated P E → Consolidated P E
  | .neverTried => .valid [kernel]
  | s => s

section
variable (consolidated : P → Run P E (Consolidated P E))

def consolidatedHyps (l : List P) : Run P E (Consolidated P E × Issues P E) :=
  l.foldlM (fun acc h => do
    let s ← consolidated h
    StateT.lift (hypothesesConjunction acc.2 h acc.1 (reduceHypothesisStatus h s))) (.neverTried,[])

def consolidatedEmitters (l : List (Emission P E)) : Run P E (Consolidated P E) := do
  let status ← l.foldlM (fun current e => do
    let (s,issues) ← consolidatedHyps consolidated e.properties
    let hyps ← StateT.lift (hypsStatus s)
    StateT.lift (chooseBestEmitter e.emitter issues current hyps)) Consolidated.neverTried
  pure (emittersStatus status)

def consolidate (fuel : ℕ) (ppt : P) : Run P E (Consolidated P E) := do
  consolidateReachable fuel ppt
  let status ← getStatus fuel true ppt
  if isNotVerifiableButValid ppt status then pure .consideredValid
  else if isTried status then do
    let hyps ← consolidatedEmitters consolidated (bestEmitters status)
    StateT.lift (mergeHypothesesAndLocalStatus ppt hyps status)
  else pure .neverTried

end

/-- `Consolidated_status.memo`; `depth` bounds the nesting of the recursive calls. -/
def memoConsolidated (fuel : ℕ) : ℕ → P → Run P E (Consolidated P E)
  | 0,_ => StateT.lift none
  | depth + 1,ppt => do
    let st ← get
    match st.memo ppt with
    | some s => pure s
    | none => do
      let s ←
        if st.visited ppt then consolidateOfLocalWhenCycle fuel ppt
        else do
          modify fun st => { st with visited := Function.update st.visited ppt true }
          consolidate (memoConsolidated fuel depth) fuel ppt
      modify fun st => { st with memo := Function.update st.memo ppt (some s) }
      pure s

/-- `Consolidation.get`. -/
def consolidationGet (fuel : ℕ) (ppt : P) : Run P E (Consolidated P E) := do
  let s ← memoConsolidated fuel fuel ppt
  modify fun st => { st with visited := fun _ => false }
  pure s

end FramaC.PropertyStatus
