import FramaC.Gauges.Bounds
import FramaC.Ival.Widen
import FramaC.Ival.ShiftSound
import FramaC.Lib.MapMerge

/-! # The gauges domain

A state gives initial values to variables and, for each of the nested loops, innermost first, either an exact number of
iterations or bounds for it with the increments of the variables in one iteration. Variables are restricted to integers:
the values are ivals.
-/
namespace FramaC.Gauges
open Ival Integer Outcome MapMerge

abbrev MV (Base : Type) := AList fun _ : Base => Ival

abbrev MC (Base : Type) := AList fun _ : Base => Bounds

inductive IterationInfo (Base : Type)
  | preciseIteration (n : ℕ)
  | multipleIterations (nb : Bounds) (coeffs : MC Base)

abbrev Loops (Base Stmt : Type) := List (Stmt × IterationInfo Base)

structure State (Base Stmt : Type) where
  ct : MV Base
  loops : Loops Base Stmt

section Operations
variable {Base Stmt : Type} [DecidableEq Base] [DecidableEq Stmt] (sc : ℕ)

def default : Option Bounds → Bounds
  | none => Bounds.zero
  | some b => b

def MC.widen (c1 c2 : MC Base) : Res (MC Base) :=
  merge (fun _ b1 b2 => return some (Bounds.widen (default b1) (default b2))) c1 c2

def MC.join (c1 c2 : MC Base) : Res (MC Base) :=
  merge (fun _ b1 b2 => return some (Bounds.join (default b1) (default b2))) c1 c2

/-- An operation on the values bound on both sides; the others are dropped. -/
def onBoth {α : Type} (op : Ival → Ival → Res α) (v1 : Ival) : Option Ival → Res (Option α)
  | none => return none
  | some v2 => do return some (← op v1 v2)

def MV.widen (m1 m2 : MV Base) : Res (MV Base) := combine (fun _ => onBoth (Ival.widen sc 0 ∅)) m1 m2

/-- How much the bounds of `v2` have increased from those of `v1`. -/
def deltaMinMaxCvalue (v1 v2 : Ival) : Res Bounds := do return Bounds.delta (← minAndMax v1) (← minAndMax v2)

def deltaMv (mv1 mv2 : MV Base) : Res (MC Base) := combine (fun _ => onBoth deltaMinMaxCvalue) mv1 mv2

/-- An operation on the values that have a coefficient; the others are kept. -/
def onCoeff (op : Ival → Bounds → Res Ival) (v : Ival) : Option Bounds → Res (Option Ival)
  | none => return some v
  | some i => do return some (← op v i)

def minusBounds (v : Ival) (i : Bounds) : Res Ival := do
  let d := Bounds.delta i (← minAndMax v)
  injectRange sc d.1 d.2

def mvMinusMc (mv : MV Base) (mc : MC Base) : Res (MV Base) := combine (fun _ => onCoeff (minusBounds sc)) mv mc

def addIterations (nb : Bounds) (v : Ival) (i : Bounds) : Res Ival := do
  let b := Bounds.mul nb i
  let p ← injectRange sc b.1 b.2
  addInt sc p v

/-- `nb` iterations have elapsed: their increments are added to the values. -/
def forget (nb : Bounds) (mv : MV Base) (mc : MC Base) : Res (MV Base) :=
  combine (fun _ => onCoeff (addIterations sc nb)) mv mc

/-- `MultipleIterations.widen`. -/
def widenIterations (widenNb : Bool) (nb1 : Bounds) (c1 : MC Base) (nb2 : Bounds) (c2 : MC Base) :
    Res (IterationInfo Base) := do
  let nb := if widenNb then
      let w := Bounds.widen nb1 nb2
      if w.1 = none then (some 0,w.2) else w
    else Bounds.join nb1 nb2
  return .multipleIterations nb (← MC.widen c1 c2)

def IterationInfo.equal : IterationInfo Base → IterationInfo Base → Bool
  | .preciseIteration i1, .preciseIteration i2 => decide (i1 = i2)
  | .multipleIterations nb1 c1, .multipleIterations nb2 c2 => decide (nb1 = nb2) && decide (c1.entries.Perm c2.entries)
  | _, _ => false

def interWithShape (mv : MV Base) (coeffs : MC Base) : Res (MC Base) :=
  combine (fun _ c v => return v.map fun _ => c) coeffs mv

def IterationInfo.restrict (mv : MV Base) : IterationInfo Base → Res (IterationInfo Base)
  | .preciseIteration n => return .preciseIteration n
  | .multipleIterations nb coeffs => do return .multipleIterations nb (← interWithShape mv coeffs)

def inc (s : State Base Stmt) : Res (State Base Stmt) :=
  match s.loops with
  | [] => .error .assertFailure
  | (stmt,.preciseIteration i) :: q => return { s with loops := (stmt,.preciseIteration (i + 1)) :: q }
  | (stmt,.multipleIterations nb coeffs) :: q => do
    let ct ← mvMinusMc sc s.ct coeffs
    return { ct, loops := (stmt,.multipleIterations nb.succ coeffs) :: q }

def removeCoeffs (coeffs : MC Base) : ℕ → MV Base → Res (MV Base)
  | 0, ct => return ct
  | l + 1, ct => do removeCoeffs coeffs l (← mvMinusMc sc ct coeffs)

def restrict (mv : MV Base) : Loops Base Stmt → Res (Loops Base Stmt)
  | [] => return []
  | (stmt,i) :: l => do
    let i ← i.restrict mv
    return (stmt,i) :: (← restrict mv l)

def joinConsecutiveLambda (l : ℕ) (ct1 ct2 : MV Base) : Res (MC Base × MV Base × MV Base) := do
  let coeffs ← deltaMv ct1 ct2
  let ct1 ← removeCoeffs sc coeffs l ct1
  let ct2 ← removeCoeffs sc coeffs (l + 1) ct2
  return (coeffs,ct1,ct2)

def joinSameLambda (ct1 ct2 : MV Base) : Res (MV Base) := combine (fun _ => onBoth (Ival.join sc)) ct1 ct2

/-- One loop of `join_iterations`, after the loops around it. -/
def joinIteration (nb1 nb2 : IterationInfo Base) (ct1 ct2 : MV Base) (joinedIter : Bool) :
    Res (MV Base × MV Base × IterationInfo Base × Bool) :=
  match nb1, nb2 with
  | .multipleIterations nb1 c1, .multipleIterations nb2 c2 => do
    return (ct1,ct2,.multipleIterations (Bounds.join nb1 nb2) (← MC.join c1 c2),joinedIter)
  | .preciseIteration n1, .preciseIteration n2 =>
    let nb := Bounds.injectRange n1 n2
    if n1 = n2 then return (ct1,ct2,.preciseIteration n1,false)
    else if n1 = n2 + 1 then do
      -- the maps are bound in the order of the arguments: `ct1` is now the one of the second state
      let (coeffs,ct1,ct2) ← joinConsecutiveLambda sc n2 ct2 ct1
      return (ct1,ct2,.multipleIterations nb coeffs,true)
    else if n2 = n1 + 1 then do
      let (coeffs,ct1,ct2) ← joinConsecutiveLambda sc n1 ct1 ct2
      return (ct1,ct2,.multipleIterations nb coeffs,true)
    else return (∅,∅,.multipleIterations nb ∅,true)
  | .preciseIteration i1, .multipleIterations nb2 c2 => do
    let ct1 ← removeCoeffs sc c2 i1 ct1
    return (ct1,ct2,.multipleIterations (Bounds.enlarge i1 nb2) c2,true)
  | .multipleIterations nb1 c1, .preciseIteration i2 => do
    let ct2 ← removeCoeffs sc c1 i2 ct2
    return (ct1,ct2,.multipleIterations (Bounds.enlarge i2 nb1) c1,true)

/-- `join_iterations`, or none where it raises `MessyJoin`. -/
def joinIterations (ct1 ct2 : MV Base) : Loops Base Stmt → Loops Base Stmt →
    Res (Option (MV Base × MV Base × Loops Base Stmt × Bool))
  | [], [] => return some (ct1,ct2,[],false)
  | (stmt1,nb1) :: q1, (stmt2,nb2) :: q2 =>
    if stmt1 ≠ stmt2 then return none
    else do
      match ← joinIterations ct1 ct2 q1 q2 with
      | none => return none
      | some (ct1,ct2,q,joinedIter) =>
        let (ct1,ct2,nb,joinedIter) ← joinIteration sc nb1 nb2 ct1 ct2 joinedIter
        return some (ct1,ct2,(stmt1,nb) :: q,joinedIter)
  | _, _ => return none

def join (s1 s2 : State Base Stmt) : Res (State Base Stmt) := do
  match ← joinIterations sc s1.ct s2.ct s1.loops s2.loops with
  | none => return { ct := ∅, loops := [] }
  | some (ct1,ct2,q,_) =>
    let ct ← joinSameLambda sc ct1 ct2
    return { ct, loops := ← restrict ct q }

/-- The iterations of one loop, widened from those of the first state to those of the join. -/
def widenInfo (widenNb : Bool) : IterationInfo Base → IterationInfo Base → Res (IterationInfo Base)
  | .multipleIterations _ _, .preciseIteration _ => .error .assertFailure
  | .preciseIteration _, ij => return ij
  | .multipleIterations nb1 c1, .multipleIterations nbj cj => widenIterations widenNb nb1 c1 nbj cj

/-- `widen_l`. -/
def widenL (stmt : Stmt) (stmtIsInState : Bool) : Loops Base Stmt → Loops Base Stmt → Res (Loops Base Stmt)
  | [], [] => return []
  | (stmt',i1) :: q1, (stmt'',ij) :: qj =>
    if stmt' ≠ stmt'' then .error .assertFailure
    else do
      let i ← widenInfo (decide (stmt = stmt') || !stmtIsInState) i1 ij
      if i.equal ij then return (stmt',i) :: (← widenL stmt stmtIsInState q1 qj) else return (stmt',i) :: qj
  | _, _ => .error .assertFailure

/-- `widen`, or none where it raises `MessyJoin`. -/
def widen (stmt : Stmt) (s1 s2 : State Base Stmt) : Res (Option (State Base Stmt)) := do
  match ← joinIterations sc s1.ct s2.ct s1.loops s2.loops with
  | none => return none
  | some (ct1,ct2,lj,joinedIter) =>
    let ctj ← joinSameLambda sc ct1 ct2
    let stmtIsInState := lj.any fun p => decide (stmt = p.1)
    let ct ← (if joinedIter then pure ctj else MV.widen sc ct1 ctj : Res (MV Base))
    let l ← (if ctj.entries.Perm ct2.entries then widenL stmt stmtIsInState s1.loops lj else pure lj : Res (Loops Base Stmt))
    return some { ct, loops := ← restrict ct l }

def enterLoop (stmt : Stmt) (s : State Base Stmt) : State Base Stmt :=
  { s with loops := (stmt,.preciseIteration 0) :: s.loops }

def leaveLoop (stmt : Stmt) (s : State Base Stmt) : Res (State Base Stmt) :=
  match s.loops with
  | [] => .error .assertFailure
  | (stmt',ii) :: q =>
    if stmt ≠ stmt' then .error .assertFailure
    else
      match ii with
      | .preciseIteration _ => return { s with loops := q }
      | .multipleIterations nb coeffs => do
        let ct ← forget sc nb s.ct coeffs
        return { ct, loops := q }

def coeff (b : Base) : IterationInfo Base → Bounds
  | .preciseIteration _ => Bounds.zero
  | .multipleIterations _ coeffs => default (coeffs.lookup b)

def extractGauge (s : State Base Stmt) (b : Base) : Option (Ival × List Bounds) :=
  match s.ct.lookup b with
  | none => none
  | some ctb => some (ctb,s.loops.map fun p => coeff b p.2)

def shift : Loops Base Stmt → List Bounds → Res Bounds
  | [], _ :: _ => .error .assertFailure
  | _, [] => return Bounds.zero
  | (_,.preciseIteration _) :: q, coeff :: qg =>
    if coeff ≠ Bounds.zero then .error .assertFailure else shift q qg
  | (_,.multipleIterations nb _) :: q, coeff :: qg => do
    return Bounds.add (Bounds.mul coeff nb) (← shift q qg)

def evalGauge (s : State Base Stmt) (g : Ival × List Bounds) : Res Ival := do
  let b ← shift s.loops g.2
  addInt sc (← injectRange sc b.1 b.2) g.1

/-- The coefficients of a variable that are not 0, with the number of iterations of their loops. -/
def gather (b : Base) : Loops Base Stmt → List (Stmt × Bounds × Bounds)
  | [] => []
  | (_,.preciseIteration _) :: q => gather b q
  | (stmt,.multipleIterations nb coeffs) :: q =>
    match coeffs.lookup b with
    | none => gather b q
    | some c => if c = Bounds.zero then gather b q else (stmt,c,nb) :: gather b q

def replace (stmt : Stmt) (nb : Bounds) : Loops Base Stmt → Res (Loops Base Stmt)
  | [] => .error .assertFailure
  | (stmt',.preciseIteration n) :: q => do return (stmt',.preciseIteration n) :: (← replace stmt nb q)
  | (stmt',.multipleIterations nb' coeffs) :: q =>
    if stmt = stmt' then return (stmt,.multipleIterations nb coeffs) :: q
    else do return (stmt',.multipleIterations nb' coeffs) :: (← replace stmt nb q)

def backwardLoop (s : State Base Stmt) (b : Base) (v : Ival) : Res (Option (Option (State Base Stmt))) :=
  match s.ct.lookup b with
  | none => return none
  | some ctb => do
    let d ← addInt sc v (scale (-1) ctb)
    match gather b s.loops with
    | [(stmt,c,nb)] =>
      let nIter := Bounds.backwardNb c (← minAndMax d)
      match Bounds.narrow nIter nb with
      | none => return some none
      | some nIter =>
        if nb ≠ nIter then return some (some { s with loops := ← replace stmt nIter s.loops }) else return none
    | _ => return none

end Operations

end FramaC.Gauges

/-! ## Operations on the maps of the gauges domain

What the operations on values and coefficients do to the members of the values.
-/
namespace FramaC.Gauges
open Ival Integer Outcome MapMerge

section Maps
variable {Base Stmt : Type} [DecidableEq Base] {sc : ℕ}

def MapWf (sc : ℕ) (ct : MV Base) : Prop := ∀ x v, ct.lookup x = some v → Wf sc v ∧ v ≠ bottom

def InfoWf (i : IterationInfo Base) : Prop := ∀ x, Bounds.Ordered (coeff x i)

theorem ne_bottom_of_mem {v : Ival} {x : ℤ} (h : x ∈ concr v) : v ≠ bottom := by
  rintro rfl
  cases h

theorem minAndMax_mem {v : Ival} (h : Wf sc v) (hne : v ≠ bottom) :
    ∃ b : Bounds, minAndMax v = .ok b ∧ ∀ x ∈ concr v, Bounds.Mem b x := by
  obtain ⟨b,hb⟩ := minAndMax_ok hne
  exact ⟨b,hb,fun x hx => minAndMax_bounds h hb hx⟩

theorem injectRange_mem (hsc : 2 ≤ sc) (b : Bounds) :
    ∃ v, injectRange sc b.1 b.2 = .ok v ∧ Wf sc v ∧ ∀ x, Bounds.Mem b x → x ∈ concr v := by
  obtain ⟨v,hv,hw,hconcr⟩ := injectRange_spec hsc b.1 b.2
  refine ⟨v,hv,hw,?_⟩
  intro x hx
  rw [hconcr]
  exact ⟨Int.emod_one x,hx.1,hx.2⟩

theorem ordered_zero : Bounds.Ordered Bounds.zero := by
  rintro _ ⟨⟩ _ ⟨⟩
  exact le_rfl

/-- The members of a map are those of another, increased. -/
structure Shifts (R : Base → ℤ → Prop) (ct ct' : MV Base) : Prop where
  bound : ∀ x v', ct'.lookup x = some v' → ∃ v, ct.lookup x = some v
  cover : ∀ x v v', ct.lookup x = some v → ct'.lookup x = some v' → ∀ a ∈ concr v, ∃ d ∈ concr v', ∃ y, R x y ∧ a = d + y

theorem onBoth_spec {α : Type} (op : Ival → Ival → Res α) {P : Ival → Ival → α → Prop} (ct1 ct2 : MV Base)
    (h : ∀ x v1 v2, ct1.lookup x = some v1 → ct2.lookup x = some v2 → ∃ w, op v1 v2 = .ok w ∧ P v1 v2 w) :
    ∃ m, combine (fun _ => onBoth op) ct1 ct2 = .ok m ∧ ∀ x w, m.lookup x = some w →
      ∃ v1 v2, ct1.lookup x = some v1 ∧ ct2.lookup x = some v2 ∧ P v1 v2 w := by
  have hok : ∀ x v1, ct1.lookup x = some v1 → ∃ r, onBoth op v1 (ct2.lookup x) = .ok r := by
    intro x v1 hv1
    cases hv2 : ct2.lookup x with
    | none => exact ⟨none,rfl⟩
    | some v2 =>
      obtain ⟨w,hw,_⟩ := h x v1 v2 hv1 hv2
      exact ⟨some w,by rw [onBoth,hw,Res.ok_bind]; rfl⟩
  obtain ⟨m,hm,hlook⟩ := combine_ok ct1 ct2 hok
  refine ⟨m,hm,?_⟩
  intro x w hw
  cases hv1 : ct1.lookup x with
  | none =>
    rw [(hlook x).1 hv1] at hw
    cases hw
  | some v1 =>
    have hx := (hlook x).2 v1 hv1
    rw [hw] at hx
    cases hv2 : ct2.lookup x with
    | none =>
      rw [hv2] at hx
      cases hx
    | some v2 =>
      obtain ⟨w',hw',hP⟩ := h x v1 v2 hv1 hv2
      rw [hv2,onBoth,hw',Res.ok_bind] at hx
      cases hx
      exact ⟨v1,v2,rfl,rfl,hP⟩

theorem onCoeff_spec (op : Ival → Bounds → Res Ival) {P : Ival → Bounds → Ival → Prop} (mv : MV Base) (mc : MC Base)
    (h : ∀ x v i, mv.lookup x = some v → mc.lookup x = some i → ∃ w, op v i = .ok w ∧ P v i w)
    (hzero : ∀ x v, mv.lookup x = some v → P v Bounds.zero v) :
    ∃ m, combine (fun _ => onCoeff op) mv mc = .ok m ∧ ∀ x w, m.lookup x = some w →
      ∃ v, mv.lookup x = some v ∧ P v (default (mc.lookup x)) w := by
  have hstep : ∀ x v, mv.lookup x = some v →
      ∃ w, onCoeff op v (mc.lookup x) = .ok (some w) ∧ P v (default (mc.lookup x)) w := by
    intro x v hv
    cases hi : mc.lookup x with
    | none => exact ⟨v,rfl,hzero x v hv⟩
    | some i =>
      obtain ⟨w,hw,hP⟩ := h x v i hv hi
      exact ⟨w,by rw [onCoeff,hw,Res.ok_bind]; rfl,hP⟩
  have hok : ∀ x v, mv.lookup x = some v → ∃ r, onCoeff op v (mc.lookup x) = .ok r := by
    intro x v hv
    obtain ⟨w,hw,_⟩ := hstep x v hv
    exact ⟨some w,hw⟩
  obtain ⟨m,hm,hlook⟩ := combine_ok mv mc hok
  refine ⟨m,hm,?_⟩
  intro x w hw
  cases hv : mv.lookup x with
  | none =>
    rw [(hlook x).1 hv] at hw
    cases hw
  | some v =>
    obtain ⟨w',hw',hP⟩ := hstep x v hv
    have hx := (hlook x).2 v hv
    rw [hw,hw'] at hx
    cases hx
    exact ⟨v,rfl,hP⟩

theorem mem_zero : Bounds.Mem Bounds.zero 0 := by
  refine ⟨?_,?_⟩
  · rintro _ ⟨⟩
    exact le_rfl
  · rintro _ ⟨⟩
    exact le_rfl

theorem minusBounds_spec (hsc : 2 ≤ sc) {v : Ival} (hw : Wf sc v) (hne : v ≠ bottom) {i : Bounds} (hi : Bounds.Ordered i) :
    ∃ v', minusBounds sc v i = .ok v' ∧ (Wf sc v' ∧ v' ≠ bottom) ∧
      ∀ a ∈ concr v, ∃ d ∈ concr v', ∃ y, Bounds.Mem i y ∧ a = d + y := by
  obtain ⟨b,hb,hmem⟩ := minAndMax_mem hw hne
  obtain ⟨v',hv',hw',hmem'⟩ := injectRange_mem hsc (Bounds.delta i b)
  have hcover : ∀ a ∈ concr v, ∃ d ∈ concr v', ∃ y, Bounds.Mem i y ∧ a = d + y := by
    intro a ha
    obtain ⟨d,y,hd,hy,he⟩ := Bounds.delta_cover hi (hmem a ha)
    exact ⟨d,hmem' d hd,y,hy,he⟩
  refine ⟨v',?_,⟨hw',?_⟩,hcover⟩
  · rw [minusBounds,hb,Res.ok_bind]
    exact hv'
  · obtain ⟨a,ha⟩ := exists_mem_of_wf hw hne
    obtain ⟨d,hd,_⟩ := hcover a ha
    exact ne_bottom_of_mem hd

theorem mvMinusMc_spec (hsc : 2 ≤ sc) {mv : MV Base} (hmv : MapWf sc mv) {mc : MC Base}
    (hmc : ∀ x, Bounds.Ordered (default (mc.lookup x))) : ∃ mv', mvMinusMc sc mv mc = .ok mv' ∧ MapWf sc mv' ∧
      Shifts (fun x y => Bounds.Mem (default (mc.lookup x)) y) mv mv' := by
  obtain ⟨mv',hmv',hget⟩ := onCoeff_spec (minusBounds sc)
    (P := fun v i v' => (Wf sc v' ∧ v' ≠ bottom) ∧ ∀ a ∈ concr v, ∃ d ∈ concr v', ∃ y, Bounds.Mem i y ∧ a = d + y) mv mc
    (fun x v i hv hi => by
      have hord := hmc x
      rw [hi] at hord
      exact minusBounds_spec hsc (hmv x v hv).1 (hmv x v hv).2 hord)
    (fun x v hv => ⟨hmv x v hv,fun a ha => ⟨a,ha,0,mem_zero,(add_zero a).symm⟩⟩)
  refine ⟨mv',hmv',?_,?_,?_⟩
  · intro x v' hv'
    obtain ⟨v,hv,hwf,_⟩ := hget x v' hv'
    exact hwf
  · intro x v' hv'
    obtain ⟨v,hv,_⟩ := hget x v' hv'
    exact ⟨v,hv⟩
  · intro x v v' hv hv'
    obtain ⟨w,hw,_,hcover⟩ := hget x v' hv'
    rw [hv] at hw
    cases hw
    exact hcover

theorem shifts_zero (mc : MC Base) (ct : MV Base) : Shifts (fun x y => Bounds.Scaled 0 (default (mc.lookup x)) y) ct ct := by
  refine ⟨fun x v' hv' => ⟨v',hv'⟩,?_⟩
  intro x v v' hv hv' a ha
  rw [hv] at hv'
  cases hv'
  exact ⟨a,ha,0,Bounds.scaled_zero,(add_zero a).symm⟩

theorem removeCoeffs_spec (hsc : 2 ≤ sc) {mc : MC Base} (hmc : ∀ x, Bounds.Ordered (default (mc.lookup x))) (n : ℕ)
    {mv : MV Base} (hmv : MapWf sc mv) : ∃ mv', removeCoeffs sc mc n mv = .ok mv' ∧ MapWf sc mv' ∧
      Shifts (fun x y => Bounds.Scaled n (default (mc.lookup x)) y) mv mv' := by
  induction n generalizing mv with
  | zero => exact ⟨mv,rfl,hmv,shifts_zero mc mv⟩
  | succ n ih =>
    obtain ⟨mv1,hmv1,hwf1,hs1⟩ := mvMinusMc_spec hsc hmv hmc
    obtain ⟨mv2,hmv2,hwf2,hs2⟩ := ih hwf1
    refine ⟨mv2,by rw [removeCoeffs,hmv1,Res.ok_bind,hmv2],hwf2,?_,?_⟩
    · intro x v' hv'
      obtain ⟨v1,hv1⟩ := hs2.bound x v' hv'
      exact hs1.bound x v1 hv1
    · intro x v v' hv hv' a ha
      obtain ⟨v1,hv1⟩ := hs2.bound x v' hv'
      obtain ⟨d1,hd1,y1,hy1,rfl⟩ := hs1.cover x v v1 hv hv1 a ha
      obtain ⟨d2,hd2,y2,hy2,rfl⟩ := hs2.cover x v1 v' hv1 hv' d1 hd1
      exact ⟨d2,hd2,y2 + y1,hy2.succ hy1,by ring⟩

theorem deltaMv_spec {mv1 mv2 : MV Base} (h1 : MapWf sc mv1) (h2 : MapWf sc mv2) :
    ∃ mc, deltaMv mv1 mv2 = .ok mc ∧ ∀ x, Bounds.Ordered (default (mc.lookup x)) := by
  obtain ⟨mc,hmc,hget⟩ := onBoth_spec deltaMinMaxCvalue (P := fun _ _ c => Bounds.Ordered c) mv1 mv2 (fun x v1 v2 hv1 hv2 => by
    obtain ⟨b1,hb1⟩ := minAndMax_ok (h1 x v1 hv1).2
    obtain ⟨b2,hb2⟩ := minAndMax_ok (h2 x v2 hv2).2
    refine ⟨Bounds.delta b1 b2,?_,Bounds.ordered_delta b1 b2⟩
    simp only [deltaMinMaxCvalue,hb1,hb2,Res.ok_bind]
    rfl)
  refine ⟨mc,hmc,?_⟩
  intro x
  cases hc : mc.lookup x with
  | none => exact ordered_zero
  | some c =>
    obtain ⟨_,_,_,_,hord⟩ := hget x c hc
    exact hord

theorem joinSameLambda_spec (hsc : 2 ≤ sc) {ct1 ct2 : MV Base} (h1 : MapWf sc ct1) (h2 : MapWf sc ct2) :
    ∃ ct, joinSameLambda sc ct1 ct2 = .ok ct ∧ MapWf sc ct ∧ ∀ x v, ct.lookup x = some v →
      (∃ v1, ct1.lookup x = some v1 ∧ concr v1 ⊆ concr v) ∧ ∃ v2, ct2.lookup x = some v2 ∧ concr v2 ⊆ concr v := by
  obtain ⟨ct,hct,hget⟩ := onBoth_spec (Ival.join sc)
    (P := fun v1 v2 v => Wf sc v ∧ concr v1 ⊆ concr v ∧ concr v2 ⊆ concr v) ct1 ct2
    (fun x v1 v2 hv1 hv2 => by
      obtain ⟨w,hw,hwf,hhull⟩ := join_spec hsc (h1 x v1 hv1).1 (h2 x v2 hv2).1
      exact ⟨w,hw,hwf,Set.subset_union_left.trans hhull.1,Set.subset_union_right.trans hhull.1⟩)
  refine ⟨ct,hct,?_,?_⟩
  · intro x v hv
    obtain ⟨v1,v2,hv1,_,hw,hsub,_⟩ := hget x v hv
    obtain ⟨a,ha⟩ := exists_mem_of_wf (h1 x v1 hv1).1 (h1 x v1 hv1).2
    exact ⟨hw,ne_bottom_of_mem (hsub ha)⟩
  · intro x v hv
    obtain ⟨v1,v2,hv1,hv2,_,hsub1,hsub2⟩ := hget x v hv
    exact ⟨⟨v1,hv1,hsub1⟩,v2,hv2,hsub2⟩

theorem widenMap_spec (hsc : 2 ≤ sc) {ct1 ct2 : MV Base} (h1 : MapWf sc ct1) (h2 : MapWf sc ct2)
    (hsub : ∀ x v1 v2, ct1.lookup x = some v1 → ct2.lookup x = some v2 → concr v1 ⊆ concr v2) :
    ∃ ct, MV.widen sc ct1 ct2 = .ok ct ∧ ∀ x v, ct.lookup x = some v → ∃ v2, ct2.lookup x = some v2 ∧ concr v2 ⊆ concr v := by
  obtain ⟨ct,hct,hget⟩ := onBoth_spec (Ival.widen sc 0 ∅) (P := fun _ v2 v => concr v2 ⊆ concr v) ct1 ct2
    (fun x v1 v2 hv1 hv2 => by
    obtain ⟨w,hw,_,hcover⟩ := widen_cover hsc le_rfl ∅ (h1 x v1 hv1).1 (h2 x v2 hv2).1 (hsub x v1 v2 hv1 hv2)
    exact ⟨w,hw,hcover⟩)
  refine ⟨ct,hct,?_⟩
  intro x v hv
  obtain ⟨_,v2,_,hv2,hcover⟩ := hget x v hv
  exact ⟨v2,hv2,hcover⟩

theorem addIterations_spec (hsc : 2 ≤ sc) (nb : Bounds) {v : Ival} (hw : Wf sc v) {i : Bounds} (hi : Bounds.Ordered i) :
    ∃ v', addIterations sc nb v i = .ok v' ∧ ∀ a ∈ concr v, ∀ (k : ℕ) (y : ℤ), Bounds.Mem nb k → Bounds.Scaled k i y →
      a + y ∈ concr v' := by
  obtain ⟨p,hp,hwp,hmem⟩ := injectRange_mem hsc (Bounds.mul nb i)
  obtain ⟨v',hv',_⟩ := addInt_wf hsc hwp hw
  refine ⟨v',?_,?_⟩
  · simp only [addIterations,hp,Res.ok_bind,hv']
  · intro a ha k y hk hy
    rw [add_comm]
    exact addInt_sound hsc hwp hw hv' (hmem y (Bounds.mem_scaled_mul hi hk hy)) ha

theorem forget_spec (hsc : 2 ≤ sc) (nb : Bounds) {mv : MV Base} (hmv : MapWf sc mv) {mc : MC Base}
    (hmc : ∀ x, Bounds.Ordered (default (mc.lookup x))) : ∃ mv', forget sc nb mv mc = .ok mv' ∧
      ∀ x v', mv'.lookup x = some v' → ∃ v, mv.lookup x = some v ∧ ∀ a ∈ concr v, ∀ (k : ℕ) (y : ℤ), Bounds.Mem nb k →
        Bounds.Scaled k (default (mc.lookup x)) y → a + y ∈ concr v' := by
  refine onCoeff_spec (addIterations sc nb) (P := fun v i v' => ∀ a ∈ concr v, ∀ (k : ℕ) (y : ℤ), Bounds.Mem nb k →
    Bounds.Scaled k i y → a + y ∈ concr v') mv mc ?_ ?_
  · intro x v i hv hi
    have hord := hmc x
    rw [hi] at hord
    exact addIterations_spec hsc nb (hmv x v hv).1 hord
  · intro x v _ a ha k y _ hy
    rw [Bounds.scaled_of_zero hy,add_zero]
    exact ha

theorem coeffs_merge {g : Bounds → Bounds → Bounds} (hg : g Bounds.zero Bounds.zero = Bounds.zero) (c1 c2 : MC Base) :
    ∃ c, merge (fun _ b1 b2 => (.ok (some (g (default b1) (default b2))) : Res (Option Bounds))) c1 c2 = .ok c ∧
      ∀ x, default (c.lookup x) = g (default (c1.lookup x)) (default (c2.lookup x)) := by
  obtain ⟨c,hc,hlook⟩ := merge_pure (ε := Exn) (fun _ b1 b2 => g (default b1) (default b2)) c1 c2
  refine ⟨c,hc,?_⟩
  intro x
  rw [hlook x]
  split
  · rfl
  · rename_i hx
    rw [not_or] at hx
    rw [AList.lookup_eq_none.mpr hx.1,AList.lookup_eq_none.mpr hx.2]
    exact hg.symm

theorem joinCoeffs_spec (c1 c2 : MC Base) : ∃ c, MC.join c1 c2 = .ok c ∧
    ∀ x, default (c.lookup x) = Bounds.join (default (c1.lookup x)) (default (c2.lookup x)) :=
  coeffs_merge rfl c1 c2

theorem widenCoeffs_spec (c1 c2 : MC Base) : ∃ c, MC.widen c1 c2 = .ok c ∧
    ∀ x, default (c.lookup x) = Bounds.widen (default (c1.lookup x)) (default (c2.lookup x)) :=
  coeffs_merge rfl c1 c2

theorem ordered_join {b c : Bounds} (h : Bounds.Ordered b) : Bounds.Ordered (Bounds.join b c) := by
  intro a ha u hu
  obtain ⟨p,hp,q,_,rfl⟩ := Bounds.exists_of_opt2 ha
  obtain ⟨p',hp',q',_,rfl⟩ := Bounds.exists_of_opt2 hu
  exact (min_le_left p q).trans ((h p hp p' hp').trans (le_max_left p' q'))

def CounterOk : IterationInfo Base → ℕ → Prop
  | .preciseIteration n, k => k = n
  | .multipleIterations nb _, k => Bounds.Mem nb k

theorem restrictInfo_spec (mv : MV Base) (i : IterationInfo Base) : ∃ i', i.restrict mv = .ok i' ∧
    (∀ x v, mv.lookup x = some v → coeff x i' = coeff x i) ∧ ∀ k, CounterOk i k → CounterOk i' k := by
  cases i with
  | preciseIteration n => exact ⟨_,rfl,fun _ _ _ => rfl,fun _ h => h⟩
  | multipleIterations nb c =>
    obtain ⟨c',hc',hlook⟩ := combine_ok (f := fun _ c v => (return v.map fun _ => c : Res (Option Bounds))) c mv
      fun x v hv => ⟨_,rfl⟩
    have hinter : interWithShape mv c = .ok c' := hc'
    refine ⟨.multipleIterations nb c',?_,?_,fun _ h => h⟩
    · simp only [IterationInfo.restrict,hinter,Res.ok_bind]
      rfl
    · intro x v hv
      simp only [coeff]
      cases hc : c.lookup x with
      | none => rw [(hlook x).1 hc]
      | some b =>
        have h := (hlook x).2 b hc
        rw [hv] at h
        rw [← Except.ok.inj h]
        rfl

end Maps

end FramaC.Gauges
