import FramaC.Lib.Outcome

/-! # Guards of automata

Conditions over one event, a call or a return of a function, and over the values of terms. Functions, behaviours (by their
names) and terms are parameters; `hasResult` says which terms read the value returned. The exception `Exit` is caught where
the source catches it, `fatal` is not caught.
-/
namespace FramaC.Aorai

inductive Relation
  | lt
  | gt
  | le
  | ge
  | eq
  | neq
  deriving DecidableEq, Repr

inductive Condition (F B T : Type)
  | or (c1 c2 : Condition F B T)
  | and (c1 c2 : Condition F B T)
  | not (c : Condition F B T)
  | call (kf : F) (b : Option B)
  | ret (kf : F)
  | true
  | false
  | rel (r : Relation) (t1 t2 : T)
  deriving DecidableEq, Repr

inductive Exn
  | exit
  | fatal
  deriving DecidableEq, Repr

inductive FuncStatus
  | call
  | ret
  deriving DecidableEq, Repr

structure Trans (S C : Type) where
  start : S
  stop : S
  cross : C
  numt : ℤ

section Simplification
variable {F B T : Type} [DecidableEq F] [DecidableEq B] [DecidableEq T]

def oppositeRel : Relation → Relation
  | .lt => .ge
  | .gt => .le
  | .ge => .lt
  | .le => .gt
  | .eq => .neq
  | .neq => .eq

def composeDNF (d1 d2 : List (List (Condition F B T))) : List (List (Condition F B T)) :=
  (d1.foldl (fun lclause clauses1 => d2.map (clauses1 ++ ·) ++ lclause) []).reverse

mutual

@[grind =] def condToDNF : Condition F B T → List (List (Condition F B T))
  | .or c1 c2 => condToDNF c1 ++ condToDNF c2
  | .and c1 c2 => composeDNF (condToDNF c1) (condToDNF c2)
  | .not c => condNotToDNF c
  | .true => [[.true]]
  | .false => []
  | .call kf b => [[.call kf b]]
  | .ret kf => [[.ret kf]]
  | .rel r t1 t2 => [[.rel r t1 t2]]

/-- The case of a negation, with the recursive calls on pushed negations unfolded. -/
@[grind =] def condNotToDNF : Condition F B T → List (List (Condition F B T))
  | .or c1 c2 => composeDNF (condNotToDNF c1) (condNotToDNF c2)
  | .and c1 c2 => condNotToDNF c1 ++ condNotToDNF c2
  | .not c1 => condToDNF c1
  | .true => []
  | .false => [[.true]]
  | .rel r t1 t2 => [[.rel (oppositeRel r) t1 t2]]
  | .call kf b => [[.not (.call kf b)]]
  | .ret kf => [[.not (.ret kf)]]

end

/-- The terms that `removeTerm` takes out. -/
def isRemoved : Condition F B T → Condition F B T → Bool
  | .call kf1 none, .call kf2 _ => kf1 = kf2
  | .ret kf1, .ret kf2 => kf1 = kf2
  | .call kf1 (some b1), .call kf2 (some b2) => kf1 = kf2 && b1 = b2
  | _, _ => false

def removeTerm (term : Condition F B T) (lterm : List (Condition F B T)) : List (Condition F B T) :=
  lterm.foldl (fun treated t => if isRemoved term t then treated else t :: treated) []

/-- The first step of `positiveCallOrRet`: the positive call or return, and the terms kept. -/
def positiveStep (res : Option (Condition F B T) × List (Condition F B T)) (term : Condition F B T) :
    Except Exn (Option (Condition F B T) × List (Condition F B T)) :=
  match term with
  | .call kf1 none =>
    match res.1 with
    | none => .ok (some term,term :: res.2)
    | some (.call kf2 none) => if kf1 = kf2 then .ok res else .error .exit
    | some (.ret _) => .error .exit
    | some (.call kf2 (some b2)) =>
      if kf1 = kf2 then .ok (some term,term :: removeTerm (.call kf2 (some b2)) res.2) else .error .exit
    | _ => .error .fatal
  | .call kf1 (some b1) =>
    match res.1 with
    | none => .ok (some term,term :: res.2)
    | some (.call kf2 none) => if kf1 = kf2 then .ok res else .error .exit
    | some (.ret _) => .error .exit
    | some (.call kf2 (some b2)) =>
      if kf1 = kf2 then (if b1 = b2 then .ok res else .ok (res.1,term :: res.2)) else .error .exit
    | _ => .error .fatal
  | .ret kf1 =>
    match res.1 with
    | none => .ok (some term,term :: res.2)
    | some (.ret kf2) => if kf1 = kf2 then .ok res else .error .exit
    | some (.call _ _) => .error .exit
    | _ => .error .fatal
  | _ => .ok (res.1,term :: res.2)

/-- The second step of `positiveCallOrRet`: is a term still needed beside the positive one? -/
def isKept (positive term : Condition F B T) : Except Exn Bool :=
  match positive with
  | .call kf1 none =>
    match term with
    | .not (.call kf2 _) => if kf1 = kf2 then .error .exit else .ok false
    | .not (.ret _) => .ok false
    | _ => .ok true
  | .call kf1 (some b1) =>
    match term with
    | .not (.call kf2 none) => if kf1 = kf2 then .error .exit else .ok false
    | .not (.call kf2 (some b2)) =>
      if kf1 = kf2 then (if b1 = b2 then .error .exit else .ok true) else .ok false
    | .not (.ret _) => .ok false
    | _ => .ok true
  | .ret kf1 =>
    match term with
    | .not (.call _ _) => .ok false
    | .not (.ret kf2) => if kf1 = kf2 then .error .exit else .ok false
    | _ => .ok true
  | _ => .error .fatal

def keepStep (positive : Condition F B T) (treated : List (Condition F B T)) (term : Condition F B T) :
    Except Exn (List (Condition F B T)) := do
  if ← isKept positive term then return term :: treated else return treated

/-- `try body with Exit -> handler`. -/
def catchExit {α : Type} (body : Except Exn α) (handler : α) : Except Exn α :=
  match body with
  | .error .exit => .ok handler
  | r => r

def positiveCallOrRet (clause : List (Condition F B T)) : Except Exn (List (Condition F B T)) :=
  catchExit (do
    let res ← clause.foldlM positiveStep (none,[])
    let computePositive := res.2.reverse
    match res.1 with
    | none => return computePositive
    | some positive => return (← computePositive.foldlM (keepStep positive) []).reverse) [.false]

def swapRel : Relation × T × T → Relation × T × T
  | (.lt,t1,t2) => (.gt,t2,t1)
  | (.le,t1,t2) => (.ge,t2,t1)
  | (.ge,t1,t2) => (.le,t2,t1)
  | (.gt,t1,t2) => (.lt,t2,t1)
  | (.eq,t1,t2) => (.eq,t2,t1)
  | (.neq,t1,t2) => (.neq,t2,t1)

def contradictRel (r1 : Relation × T × T) (r2 : Relation × T × T) : Bool :=
  decide (r1 = (oppositeRel r2.1,r2.2)) || decide (swapRel r1 = (oppositeRel r2.1,r2.2))

@[grind =] def termsAreEqual : Condition F B T → Condition F B T → Bool
  | .true, .true => Bool.true
  | .false, .false => Bool.true
  | .call a none, .call b none => a = b
  | .ret a, .ret b => a = b
  | .call f1 (some b1), .call f2 (some b2) => f1 = f2 && b1 = b2
  | .not (.rel r1 t11 t12), .rel r2 t21 t22 => contradictRel (r1,t11,t12) (r2,t21,t22)
  | .rel r1 t11 t12, .not (.rel r2 t21 t22) => contradictRel (r1,t11,t12) (r2,t21,t22)
  | .not a, .not b => termsAreEqual a b
  | .rel r1 t11 t12, .rel r2 t21 t22 => decide ((r1,t11,t12) = (r2,t21,t22))
  | _, _ => Bool.false

def negativeTerm : Condition F B T → Except Exn (Condition F B T)
  | .not c => .ok c
  | .call kf b => .ok (.not (.call kf b))
  | .ret kf => .ok (.not (.ret kf))
  | .rel r t1 t2 => .ok (.not (.rel r t1 t2))
  | .true => .ok .false
  | .false => .ok .true
  | .and _ _ => .error .fatal
  | .or _ _ => .error .fatal

def simplifyStep (clause : List (Condition F B T)) (term : Condition F B T) : Except Exn (List (Condition F B T)) :=
  match term with
  | .true => .ok clause
  | .not .false => .ok clause
  | .false => .error .exit
  | .not .true => .error .exit
  | _ => do
    let neg ← negativeTerm term
    if clause.any (termsAreEqual neg) then .error .exit
    else if clause.any (termsAreEqual term) then return clause
    else return term :: clause

def simplify (clause : List (Condition F B T)) : Except Exn (List (Condition F B T)) :=
  catchExit (do return (← clause.foldlM simplifyStep []).reverse) [.false]

def clausesAreSubSetEq (clause1 clause2 : List (Condition F B T)) : Bool :=
  clause1.all fun t1 => clause2.any fun t2 => termsAreEqual t1 t2

def clausesAreEqual (clause1 clause2 : List (Condition F B T)) : Bool :=
  clausesAreSubSetEq clause1 clause2 && clausesAreSubSetEq clause2 clause1

def removeClause (lclauses : List (List (Condition F B T))) (cl : List (Condition F B T)) :
    List (List (Condition F B T)) :=
  lclauses.filter fun c => !clausesAreSubSetEq cl c

def negativeClause (clause : List (Condition F B T)) : Except Exn (List (Condition F B T)) := clause.mapM negativeTerm

def simplifyClausesStep (acc : List (List (Condition F B T))) (c : List (Condition F B T)) :
    Except Exn (List (List (Condition F B T))) := do
  let neg ← negativeClause c
  if acc.any (clausesAreEqual neg) then .error .exit
  else if acc.any (fun c2 => clausesAreSubSetEq c2 c) then return acc
  else if acc.any (fun c2 => clausesAreSubSetEq c c2) then return c :: removeClause acc c
  else return c :: acc

def simplifyClauses (clauses : List (List (Condition F B T))) : Except Exn (List (List (Condition F B T))) :=
  catchExit (do return (← clauses.foldlM simplifyClausesStep []).reverse) [[]]

@[grind =] def tor : Condition F B T → Condition F B T → Condition F B T
  | .true, _ => .true
  | _, .true => .true
  | .false, t => t
  | t, .false => t
  | t1, t2 => .or t1 t2

def tand : Condition F B T → Condition F B T → Condition F B T
  | .true, t => t
  | t, .true => t
  | .false, _ => .false
  | _, .false => .false
  | t1, t2 => .and t1 t2

def readsResult (hasResult : T → Bool) : Condition F B T → Condition F B T → Bool
  | .ret _, .rel _ op1 op2 => hasResult op1 || hasResult op2
  | _, _ => Bool.false

def tnot (hasResult : T → Bool) : Condition F B T → Condition F B T
  | .true => .false
  | .false => .true
  | .not t => t
  | .and t1 t2 =>
    if readsResult hasResult t1 t2 then .or (tnot hasResult t1) (.and t1 (tnot hasResult t2))
    else .or (tnot hasResult t1) (tnot hasResult t2)
  | .or t1 t2 => .and (tnot hasResult t1) (tnot hasResult t2)
  | .rel r t1 t2 => .rel (oppositeRel r) t1 t2
  | .call kf b => .not (.call kf b)
  | .ret kf => .not (.ret kf)

def tands (l : List (Condition F B T)) : Condition F B T := l.foldr tand .true
def tors (l : List (Condition F B T)) : Condition F B T := l.foldr tor .false
def dnfToCond (d : List (List (Condition F B T))) : Condition F B T := tors (d.map tands)

@[grind =] def simplClause (clause : List (Condition F B T)) (dnf : List (List (Condition F B T))) : List (List (Condition F B T)) :=
  match clause with
  | [] => [[]]
  | [.true] => [[]]
  | [.not .false] => [[]]
  | [.false] => dnf
  | [.not .true] => dnf
  | _ => clause :: dnf

/-- Steps 2 and 3 of `simplifyCond`: a function on clauses, then the trivial clauses. -/
def simplClauses (f : List (Condition F B T) → Except Exn (List (Condition F B T)))
    (d : List (List (Condition F B T))) : Except Exn (List (List (Condition F B T))) := do
  return (← d.foldlM (fun lclauses clause => do return simplClause (← f clause) lclauses) []).reverse

def simplifyCond (condition : Condition F B T) : Except Exn (Condition F B T × List (List (Condition F B T))) := do
  let res ← simplClauses positiveCallOrRet (condToDNF condition)
  let res ← simplClauses simplify res
  let res ← simplifyClauses res
  return (dnfToCond res,res)

def simplifyTransStep {S : Type} (acc : List (Trans S (Condition F B T)) × List (List (List (Condition F B T))))
    (tr : Trans S (Condition F B T)) :
    Except Exn (List (Trans S (Condition F B T)) × List (List (List (Condition F B T)))) := do
  let (crossCond,pcond) ← simplifyCond tr.cross
  let tr' := { tr with cross := crossCond }
  if tr'.cross ≠ .false then return (tr' :: acc.1,pcond :: acc.2) else return acc

def simplifyTrans {S : Type} (transl : List (Trans S (Condition F B T))) :
    Except Exn (List (Trans S (Condition F B T)) × List (List (List (Condition F B T)))) :=
  transl.reverse.foldlM simplifyTransStep ([],[])

/-- `simplCondition` of `simplifyDNFwrtCtx`. -/
def simplCondition (hasResult : T → Bool) (kf1 : F) (status : FuncStatus) : Condition F B T → Condition F B T
  | .call kf2 none => if kf1 = kf2 ∧ status = .call then .true else .false
  | .call kf2 (some b) => if kf1 = kf2 ∧ status = .call then .call kf2 (some b) else .false
  | .ret kf2 => if kf1 = kf2 ∧ status = .ret then .true else .false
  | .not c => tnot hasResult (simplCondition hasResult kf1 status c)
  | .and c1 c2 => tand (simplCondition hasResult kf1 status c1) (simplCondition hasResult kf1 status c2)
  | .or c1 c2 => tor (simplCondition hasResult kf1 status c1) (simplCondition hasResult kf1 status c2)
  | .true => .true
  | .false => .false
  | .rel r t1 t2 => .rel r t1 t2

def simplifyDNFwrtCtx (hasResult : T → Bool) (dnf : List (List (Condition F B T))) (kf1 : F) (status : FuncStatus) :
    Condition F B T :=
  tors (dnf.map fun cnf => tands (cnf.map (simplCondition hasResult kf1 status)))

end Simplification

end FramaC.Aorai
