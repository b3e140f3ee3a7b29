import FramaC.Dataflows.Worklist

/-! # The dataflow solvers

The transfer function of the forward solver gives values to successors, that of the backward solver one value for all the
predecessors. The states are joined into the storage, and a statement whose state is not included in the stored one is
inserted in the worklist, unless it is already there. Statements are their numbers. The result is the least assignment
above the initial values that is closed under the transfer.
-/
namespace FramaC.Dataflows
open Outcome

structure State (n : ℕ) (L : Type) where
  w : Worklist n
  store : Fin n → L

section Solver
variable {n : ℕ} {L : Type} [SemilatticeSup L] [OrderBot L]
variable (dir : Direction) (connectedComponent : Fin n → ℤ) (joinAndIsIncluded : L → L → L × Bool)

def initStep (s : State n L) (p : Fin n × L) : Except Exn (State n L) := do
  let store := Function.update s.store p.1 p.2
  let w ← s.w.insert dir connectedComponent p.1
  return { w, store }

def loop (doStmt : State n L → Fin n → Except Exn (State n L)) : ℕ → State n L → Except Exn (Option (State n L))
  | 0, _ => return none
  | fuel + 1, s => do
    match ← s.w.extract dir connectedComponent with
    | (none,w) => return some { s with w }
    | (some ord,w) => loop doStmt fuel (← doStmt { s with w } ord)

/-- `update_before` of the forward solver. -/
def updateBefore (s : State n L) (p : Fin n × L) : Except Exn (State n L) :=
  let ord := p.1
  let newState := p.2
  if s.w.inWorklist .forward ord then
    return { s with store := Function.update s.store ord (newState ⊔ s.store ord) }
  else do
    let (join,isIncluded) := joinAndIsIncluded newState (s.store ord)
    let w ← if isIncluded then pure s.w else s.w.insert .forward connectedComponent ord
    return { w, store := Function.update s.store ord join }

def doStmt (transferStmt : Fin n → L → List (Fin n × L)) (s : State n L) (ord : Fin n) : Except Exn (State n L) :=
  (transferStmt ord (s.store ord)).foldlM (updateBefore connectedComponent joinAndIsIncluded) s

/-- The initial values are stored and inserted by the array storage, and again by the generic solver. -/
def simpleForward (transferStmt : Fin n → L → List (Fin n × L)) (init : List (Fin n × L)) (fuel : ℕ) :
    Except Exn (Option (State n L)) := do
  let w ← Worklist.create .forward connectedComponent
  let s ← init.foldlM (initStep .forward connectedComponent) { w, store := fun _ => ⊥ }
  let s ← init.foldlM (initStep .forward connectedComponent) s
  loop .forward connectedComponent (doStmt connectedComponent joinAndIsIncluded transferStmt) fuel s

/-- `update_f` of the backward solver. -/
def updateF (beforeState : L) (s : State n L) (upd : Fin n) : Except Exn (State n L) :=
  if s.w.inWorklist .backward upd then
    return { s with store := Function.update s.store upd (s.store upd ⊔ beforeState) }
  else do
    let (join,isIncluded) := joinAndIsIncluded beforeState (s.store upd)
    let w ← if isIncluded then pure s.w else s.w.insert .backward connectedComponent upd
    return { w, store := Function.update s.store upd join }

def doStmtBackward (preds : Fin n → List (Fin n)) (transferStmt : Fin n → L → L) (s : State n L) (ord : Fin n) :
    Except Exn (State n L) :=
  let beforeState := transferStmt ord (s.store ord)
  (preds ord).foldlM (updateF connectedComponent joinAndIsIncluded beforeState) s

def simpleBackward (preds : Fin n → List (Fin n)) (transferStmt : Fin n → L → L) (init : List (Fin n × L)) (fuel : ℕ) :
    Except Exn (Option (State n L)) := do
  let w ← Worklist.create .backward connectedComponent
  let s ← init.foldlM (initStep .backward connectedComponent) { w, store := fun _ => ⊥ }
  loop .backward connectedComponent (doStmtBackward connectedComponent joinAndIsIncluded preds transferStmt) fuel s

end Solver

section Closed
variable {n : ℕ} {L : Type} [SemilatticeSup L] [OrderBot L]

/-- The value that a transfer gives to a statement, which it may give several times or not at all. -/
def contribution (l : List (Fin n × L)) (s : Fin n) : L := ((l.filter fun p => p.1 = s).map Prod.snd).foldr (· ⊔ ·) ⊥

theorem contribution_le {l : List (Fin n × L)} {s : Fin n} {x : L} (h : ∀ p ∈ l, p.1 = s → p.2 ≤ x) :
    contribution l s ≤ x := by
  unfold contribution
  induction l with
  | nil => exact bot_le
  | cons p l ih =>
    have ih := ih fun q hq => h q (List.mem_cons_of_mem p hq)
    rw [List.filter_cons]
    split
    · rename_i hp
      exact sup_le (h p List.mem_cons_self (by simpa using hp)) ih
    · exact ih

theorem le_contribution {l : List (Fin n × L)} {p : Fin n × L} (h : p ∈ l) : p.2 ≤ contribution l p.1 := by
  unfold contribution
  induction l with
  | nil => cases h
  | cons q l ih =>
    rw [List.filter_cons]
    rcases List.mem_cons.mp h with rfl | h
    · rw [if_pos (by simp)]
      exact le_sup_left
    · split
      · exact (ih h).trans le_sup_right
      · exact ih h

def Closed (transfer : Fin n → L → List (Fin n × L)) (σ : Fin n → L) : Prop := ∀ s, ∀ p ∈ transfer s (σ s), p.2 ≤ σ p.1

/-- The contract of a transfer: it gives values to the statements that come next, which are in the same component or
further, is monotone on each of them and maps bottom to bottom. -/
structure Lawful (dir : Direction) (connectedComponent : Fin n → ℤ) (transfer : Fin n → L → List (Fin n × L)) : Prop where
  further : ∀ s a, ∀ p ∈ transfer s a, connectedComponent p.1 = connectedComponent s ∨ rev n dir s < rev n dir p.1
  mono : ∀ s t, Monotone fun a => contribution (transfer s a) t
  bot : ∀ s, ∀ p ∈ transfer s ⊥, p.2 = ⊥

variable {dir : Direction} {connectedComponent : Fin n → ℤ} {transfer : Fin n → L → List (Fin n × L)}

theorem Lawful.le_closed (h : Lawful dir connectedComponent transfer) {σ τ : Fin n → L} (hτ : Closed transfer τ) {s : Fin n}
    (hs : σ s ≤ τ s) {p : Fin n × L} (hp : p ∈ transfer s (σ s)) : p.2 ≤ τ p.1 := by
  refine (le_contribution hp).trans ((h.mono s p.1 hs).trans (contribution_le ?_))
  intro q hq he
  rw [← he]
  exact hτ s q hq

def Solutions (transfer : Fin n → L → List (Fin n × L)) (init : List (Fin n × L)) : Set (Fin n → L) :=
  {σ | (∀ p ∈ init, p.2 ≤ σ p.1) ∧ Closed transfer σ}

end Closed

section Updates
variable {n : ℕ} {L : Type} [SemilatticeSup L]
variable {dir : Direction} {connectedComponent : Fin n → ℤ} {joinAndIsIncluded : L → L → L × Bool}

def JoinContract (joinAndIsIncluded : L → L → L × Bool) : Prop :=
  ∀ a b, (joinAndIsIncluded a b).1 = a ⊔ b ∧ ((joinAndIsIncluded a b).2 = true ↔ a ≤ b)

def update (dir : Direction) (connectedComponent : Fin n → ℤ) (joinAndIsIncluded : L → L → L × Bool) (s : State n L)
    (p : Fin n × L) : Except Exn (State n L) :=
  if s.w.inWorklist dir p.1 then return { s with store := Function.update s.store p.1 (s.store p.1 ⊔ p.2) }
  else do
    let w ← if (joinAndIsIncluded p.2 (s.store p.1)).2 then pure s.w else s.w.insert dir connectedComponent p.1
    return { w, store := Function.update s.store p.1 (joinAndIsIncluded p.2 (s.store p.1)).1 }

theorem updateBefore_eq : (updateBefore connectedComponent joinAndIsIncluded : State n L → _) =
    update .forward connectedComponent joinAndIsIncluded := by
  funext s p
  unfold updateBefore update
  rw [sup_comm]

theorem update_spec (hj : JoinContract joinAndIsIncluded) {s : State n L} (h : s.w.Inv dir connectedComponent)
    {p : Fin n × L} (hp : rev n dir s.w.next ≤ rev n dir p.1 ∨ connectedComponent p.1 = s.w.currentScc) :
    ∃ s', update dir connectedComponent joinAndIsIncluded s p = .ok s' ∧ s'.w.Inv dir connectedComponent ∧
      s'.w.next = s.w.next ∧ s'.w.currentScc = s.w.currentScc ∧
      s'.store = Function.update s.store p.1 (s.store p.1 ⊔ p.2) ∧
      ∀ i, s'.w.inWorklist dir i = true ↔ s.w.inWorklist dir i = true ∨ (i = p.1 ∧ ¬ p.2 ≤ s.store p.1) := by
  obtain ⟨hjoin,hinc⟩ := hj p.2 (s.store p.1)
  unfold update
  by_cases hin : s.w.inWorklist dir p.1 = true
  · rw [if_pos hin]
    refine ⟨_,rfl,h,rfl,rfl,rfl,fun i => ⟨Or.inl,?_⟩⟩
    rintro (hi | ⟨rfl,_⟩)
    · exact hi
    · exact hin
  · rw [if_neg hin,hjoin,sup_comm]
    by_cases hle : p.2 ≤ s.store p.1
    · rw [if_pos (hinc.2 hle)]
      refine ⟨_,rfl,h,rfl,rfl,rfl,fun i => ⟨Or.inl,?_⟩⟩
      rintro (hi | ⟨_,hno⟩)
      · exact hi
      · exact absurd hle hno
    · rw [if_neg fun hc => hle (hinc.1 hc)]
      obtain ⟨w',hw',hinv,hnext,hscc,hmem⟩ := insert_spec h hp
      refine ⟨{ w := w', store := Function.update s.store p.1 (s.store p.1 ⊔ p.2) },?_,hinv,hnext,hscc,rfl,?_⟩
      · rw [hw']
        rfl
      · intro i
        rw [hmem]
        simp [hle,or_comm]

end Updates

section Statement
variable {n : ℕ} {L : Type} [SemilatticeSup L] [OrderBot L]
variable {dir : Direction} {connectedComponent : Fin n → ℤ} {joinAndIsIncluded : L → L → L × Bool}
variable {transfer : Fin n → L → List (Fin n × L)} {init : List (Fin n × L)}

/-- The invariant of the solvers between two extractions. -/
structure SolverInv (dir : Direction) (connectedComponent : Fin n → ℤ) (transfer : Fin n → L → List (Fin n × L))
    (init : List (Fin n × L)) (s : State n L) : Prop where
  inv : s.w.Inv dir connectedComponent
  closed : ∀ i, s.w.inWorklist dir i = false → ∀ p ∈ transfer i (s.store i), p.2 ≤ s.store p.1
  above : ∀ p ∈ init, p.2 ≤ s.store p.1
  least : ∀ τ ∈ Solutions transfer init, s.store ≤ τ

/-- The invariant while the values of a statement are joined: the statement is pending again, or its state is the one that
was transferred. -/
structure TransferInv (dir : Direction) (connectedComponent : Fin n → ℤ) (transfer : Fin n → L → List (Fin n × L))
    (init : List (Fin n × L)) (s0 : State n L) (i : Fin n) (pre : List (Fin n × L)) (s : State n L) : Prop where
  inv : s.w.Inv dir connectedComponent
  next : s.w.next = getNext dir i
  scc : s.w.currentScc = connectedComponent i
  grows : s0.store ≤ s.store
  same : s.store = s0.store → ∀ j, s.w.inWorklist dir j = true ↔ s0.w.inWorklist dir j = true
  others : ∀ j, j ≠ i → s.w.inWorklist dir j = false → ∀ p ∈ transfer j (s.store j), p.2 ≤ s.store p.1
  self : s.w.inWorklist dir i = true ∨ s.store i = s0.store i
  done : ∀ p ∈ pre, p.2 ≤ s.store p.1
  above : ∀ p ∈ init, p.2 ≤ s.store p.1
  least : ∀ τ ∈ Solutions transfer init, s.store ≤ τ

theorem TransferInv.step (hl : Lawful dir connectedComponent transfer) (hj : JoinContract joinAndIsIncluded)
    {s0 s : State n L} {i : Fin n} {pre : List (Fin n × L)} {p : Fin n × L}
    (h : TransferInv dir connectedComponent transfer init s0 i pre s) (hp : p ∈ transfer i (s0.store i)) :
    Sat (TransferInv dir connectedComponent transfer init s0 i (pre ++ [p])) (fun _ => False)
      (update dir connectedComponent joinAndIsIncluded s p) := by
  have hpos : rev n dir s.w.next ≤ rev n dir p.1 ∨ connectedComponent p.1 = s.w.currentScc := by
    rw [h.next,h.scc,rev_getNext]
    rcases hl.further i _ p hp with hscc | hlt
    · exact Or.inr hscc
    · exact Or.inl (by omega)
  obtain ⟨s',hs',hinv,hnext,hscc,hstore,hmem⟩ := update_spec hj h.inv hpos
  have hle : s.store ≤ s'.store := by
    rw [hstore]
    exact le_update_self_iff.mpr le_sup_left
  -- a statement that is not pending keeps its state
  have hkeep : ∀ j, s'.w.inWorklist dir j = false → s.w.inWorklist dir j = false ∧ s'.store j = s.store j := by
    intro j hout
    rw [Bool.eq_false_iff,ne_eq,hmem,not_or,not_and,not_not] at hout
    refine ⟨Bool.eq_false_iff.mpr hout.1,?_⟩
    rw [hstore]
    by_cases hjp : j = p.1
    · subst hjp
      rw [Function.update_self,sup_eq_left]
      exact hout.2 rfl
    · exact Function.update_of_ne hjp _ _
  refine Sat.of_ok hs' ⟨hinv,hnext.trans h.next,hscc.trans h.scc,h.grows.trans hle,?_,?_,?_,?_,?_,?_⟩
  · intro hsame j
    have hs : s.store = s0.store := le_antisymm (hle.trans hsame.le) h.grows
    have hpin : p.2 ≤ s.store p.1 := by
      have heq : s'.store p.1 = s.store p.1 ⊔ p.2 := by rw [hstore,Function.update_self]
      rw [hsame,← hs] at heq
      exact sup_eq_left.mp heq.symm
    rw [hmem,← h.same hs j]
    simp [hpin]
  · intro j hji hout q hq
    obtain ⟨hout',hst⟩ := hkeep j hout
    rw [hst] at hq
    exact (h.others j hji hout' q hq).trans (hle q.1)
  · by_cases hout : s'.w.inWorklist dir i = true
    · exact Or.inl hout
    · obtain ⟨hout',hst⟩ := hkeep i (Bool.eq_false_iff.mpr hout)
      rw [hst]
      exact Or.inr (h.self.resolve_left (by rw [hout']; simp))
  · intro q hq
    rcases List.mem_append.mp hq with hq | hq
    · exact (h.done q hq).trans (hle q.1)
    · rw [List.mem_singleton] at hq
      subst hq
      rw [hstore,Function.update_self]
      exact le_sup_right
  · intro q hq
    exact (h.above q hq).trans (hle q.1)
  · intro τ hτ
    rw [hstore]
    refine update_le_iff.mpr ⟨sup_le (h.least τ hτ p.1) ?_,fun j _ => h.least τ hτ j⟩
    exact hl.le_closed hτ.2 ((h.grows i).trans (h.least τ hτ i)) hp

theorem transfer_spec (hl : Lawful dir connectedComponent transfer) (hj : JoinContract joinAndIsIncluded) {s : State n L}
    (h : SolverInv dir connectedComponent transfer init s) {i : Fin n} {w' : Worklist n}
    (hex : Extracted dir connectedComponent s.w i w') :
    ∃ s', (transfer i (s.store i)).foldlM (update dir connectedComponent joinAndIsIncluded) { s with w := w' } = .ok s' ∧
      SolverInv dir connectedComponent transfer init s' ∧ (s.store < s'.store ∨
        s'.store = s.store ∧ ∀ j, s'.w.inWorklist dir j = true ↔ j ≠ i ∧ s.w.inWorklist dir j = true) := by
  have hstart : TransferInv dir connectedComponent transfer init { s with w := w' } i [] { s with w := w' } := by
    refine ⟨hex.inv,hex.next,hex.scc,le_rfl,fun _ _ => Iff.rfl,?_,Or.inr rfl,by simp,h.above,h.least⟩
    intro j hji hout
    refine h.closed j ?_
    rw [Bool.eq_false_iff,ne_eq,hex.rest,not_and] at hout
    exact Bool.eq_false_iff.mpr (hout hji)
  have hfold : Sat (TransferInv dir connectedComponent transfer init { s with w := w' } i (transfer i (s.store i)))
      (fun _ => False)
      ((transfer i (s.store i)).foldlM (update dir connectedComponent joinAndIsIncluded) { s with w := w' }) := by
    refine Sat.foldlM_prefix hstart ?_
    intro pre p post a hl' _ ha
    exact TransferInv.step hl hj ha (by simp [hl'])
  obtain ⟨s',hs',hinv⟩ := hfold.exists_ok
  refine ⟨s',hs',⟨hinv.inv,?_,hinv.above,hinv.least⟩,?_⟩
  · intro j hout p hp
    by_cases hji : j = i
    · subst hji
      rw [hinv.self.resolve_left (by rw [hout]; simp)] at hp
      exact hinv.done p hp
    · exact hinv.others j hji hout p hp
  · by_cases hsame : s'.store = s.store
    · refine Or.inr ⟨hsame,?_⟩
      intro j
      rw [hinv.same hsame j]
      exact hex.rest j
    · exact Or.inl (lt_of_le_of_ne hinv.grows (Ne.symm hsame))

end Statement

section Init
variable {n : ℕ} {L : Type} {dir : Direction} {connectedComponent : Fin n → ℤ} {init : List (Fin n × L)}

theorem rev_nonneg (i : Fin n) : 0 ≤ rev n dir i := by
  rw [← revStmt_val]
  omega

theorem init_spec (hd : (init.map Prod.fst).Nodup) {s : State n L} (h : s.w.Inv dir connectedComponent)
    (hnext : rev n dir s.w.next = 0) :
    ∃ s', init.foldlM (initStep dir connectedComponent) s = .ok s' ∧ s'.w.Inv dir connectedComponent ∧
      rev n dir s'.w.next = 0 ∧ (∀ p ∈ init, s'.store p.1 = p.2) ∧
      (∀ j, j ∉ init.map Prod.fst → s'.store j = s.store j) ∧
      ∀ j, s'.w.inWorklist dir j = true ↔ j ∈ init.map Prod.fst ∨ s.w.inWorklist dir j = true := by
  induction init generalizing s with
  | nil => exact ⟨s,rfl,h,hnext,by simp,fun _ _ => rfl,by simp⟩
  | cons p init ih =>
    rw [List.map_cons,List.nodup_cons] at hd
    obtain ⟨w',hw',hinv,hnext',_,hmem⟩ := insert_spec h (Or.inl (hnext ▸ rev_nonneg p.1))
    obtain ⟨s',hs',hinv',hnext'',hstored,hother,hpend⟩ := ih hd.2
      (s := { w := w', store := Function.update s.store p.1 p.2 }) hinv (hnext' ▸ hnext)
    refine ⟨s',?_,hinv',hnext'',?_,?_,?_⟩
    · rw [List.foldlM_cons]
      have hstep : initStep dir connectedComponent s p =
          .ok { w := w', store := Function.update s.store p.1 p.2 } := by
        unfold initStep
        rw [hw']
        rfl
      rw [hstep]
      exact hs'
    · intro q hq
      rcases List.mem_cons.mp hq with rfl | hq
      · rw [hother _ hd.1]
        exact Function.update_self _ _ _
      · exact hstored q hq
    · intro j hj
      rw [List.map_cons,List.mem_cons,not_or] at hj
      rw [hother j hj.2]
      exact Function.update_of_ne hj.1 _ _
    · intro j
      rw [hpend,hmem,List.map_cons,List.mem_cons]
      tauto

variable [SemilatticeSup L] [OrderBot L]

/-- What the initial values leave: their statements are pending and the other states are bottom. -/
structure Initial (dir : Direction) (connectedComponent : Fin n → ℤ) (init : List (Fin n × L)) (s : State n L) : Prop where
  inv : s.w.Inv dir connectedComponent
  next : rev n dir s.w.next = 0
  stored : ∀ p ∈ init, s.store p.1 = p.2
  other : ∀ j, j ∉ init.map Prod.fst → s.store j = ⊥
  pending : ∀ j, s.w.inWorklist dir j = true ↔ j ∈ init.map Prod.fst

theorem initial_of_create (hd : (init.map Prod.fst).Nodup) {w : Worklist n}
    (hw : Worklist.create dir connectedComponent = .ok w) :
    ∃ s, init.foldlM (initStep dir connectedComponent) { w, store := fun _ => ⊥ } = .ok s ∧
      Initial dir connectedComponent init s := by
  obtain ⟨hinv,hnext,hempty⟩ := create_spec hw
  obtain ⟨s,hs,hinv',hnext',hstored,hother,hpend⟩ := init_spec hd
    (s := { w, store := fun _ => (⊥ : L) }) hinv hnext
  refine ⟨s,hs,hinv',hnext',hstored,hother,?_⟩
  intro j
  rw [hpend,hempty]
  simp

theorem Initial.again (hd : (init.map Prod.fst).Nodup) {s : State n L} (h : Initial dir connectedComponent init s) :
    ∃ s', init.foldlM (initStep dir connectedComponent) s = .ok s' ∧ Initial dir connectedComponent init s' := by
  obtain ⟨s',hs,hinv',hnext',hstored,hother,hpend⟩ := init_spec hd h.inv h.next
  refine ⟨s',hs,hinv',hnext',hstored,?_,?_⟩
  · intro j hj
    rw [hother j hj]
    exact h.other j hj
  · intro j
    rw [hpend,h.pending]
    exact or_self_iff

theorem Initial.solverInv {transfer : Fin n → L → List (Fin n × L)} (hl : Lawful dir connectedComponent transfer)
    {s : State n L} (h : Initial dir connectedComponent init s) : SolverInv dir connectedComponent transfer init s := by
  refine ⟨h.inv,?_,fun p hp => (h.stored p hp).ge,?_⟩
  · intro i hout p hp
    rw [Bool.eq_false_iff,ne_eq,h.pending] at hout
    rw [h.other i hout] at hp
    rw [hl.bot i p hp]
    exact bot_le
  · intro τ hτ j
    by_cases hj : j ∈ init.map Prod.fst
    · obtain ⟨p,hp,rfl⟩ := List.mem_map.mp hj
      rw [h.stored p hp]
      exact hτ.1 p hp
    · rw [h.other j hj]
      exact bot_le

end Init

section Loop
variable {n : ℕ} {L : Type} [SemilatticeSup L] [OrderBot L]
variable {dir : Direction} {connectedComponent : Fin n → ℤ} {joinAndIsIncluded : L → L → L × Bool}
variable {transfer : Fin n → L → List (Fin n × L)} {init : List (Fin n × L)}

/-- The statements of both solvers: the values of the transfer are joined one after the other. -/
def step (dir : Direction) (connectedComponent : Fin n → ℤ) (joinAndIsIncluded : L → L → L × Bool)
    (transfer : Fin n → L → List (Fin n × L)) (s : State n L) (ord : Fin n) : Except Exn (State n L) :=
  (transfer ord (s.store ord)).foldlM (update dir connectedComponent joinAndIsIncluded) s

/-- Nothing is pending and the storage is the least of the assignments above the initial values that are closed under the
transfer. -/
def Solved (dir : Direction) (transfer : Fin n → L → List (Fin n × L)) (init : List (Fin n × L)) (s : State n L) : Prop :=
  (∀ i, s.w.inWorklist dir i = false) ∧ IsLeast (Solutions transfer init) s.store

/-- A computation that, with enough fuel, returns a state that satisfies the property, and raises nothing with less. -/
def Returns (Q : State n L → Prop) (f : ℕ → Except Exn (Option (State n L))) : Prop :=
  ∃ N s, Q s ∧ ∀ fuel, f fuel = .ok (if N ≤ fuel then some s else none)

omit [OrderBot L] in
theorem SolverInv.solved {s : State n L} (h : SolverInv dir connectedComponent transfer init s)
    (hempty : ∀ i, s.w.inWorklist dir i = false) : Solved dir transfer init s :=
  ⟨hempty,⟨h.above,fun i => h.closed i (hempty i)⟩,h.least⟩

def pending (dir : Direction) (s : State n L) : Finset (Fin n) := Finset.univ.filter fun i => s.w.inWorklist dir i = true

omit [OrderBot L] in
theorem wellFounded_progress [WellFoundedGT L] : WellFounded fun s' s : State n L =>
    Prod.Lex (· > ·) (· < ·) (s'.store,(pending dir s').card) (s.store,(pending dir s).card) := by
  have hstore : WellFounded fun a b : Fin n → L => a > b := (Pi.wellFoundedLT (α := fun _ : Fin n => Lᵒᵈ)).wf
  exact InvImage.wf (fun s : State n L => (s.store,(pending dir s).card)) (WellFounded.prod_lex hstore wellFounded_lt)

theorem loop_spec [WellFoundedGT L] (hl : Lawful dir connectedComponent transfer) (hj : JoinContract joinAndIsIncluded)
    {s : State n L} (h : SolverInv dir connectedComponent transfer init s) :
    Returns (Solved dir transfer init) fun fuel =>
      loop dir connectedComponent (step dir connectedComponent joinAndIsIncluded transfer) fuel s := by
  have hwf : WellFounded fun s' s : State n L => Prod.Lex (· > ·) (· < ·) (s'.store,(pending dir s').card)
      (s.store,(pending dir s).card) := wellFounded_progress
  induction s using hwf.induction with
  | h s ih =>
    rcases extract_spec h.inv with ⟨hnone,hempty⟩ | ⟨i,w',hsome,hex⟩
    · refine ⟨1,s,h.solved hempty,?_⟩
      intro fuel
      cases fuel with
      | zero => rfl
      | succ fuel =>
        rw [if_pos (by omega)]
        simp only [loop,hnone]
        rfl
    · obtain ⟨s',hs',hinv,hprogress⟩ := transfer_spec hl hj h hex
      have hless : Prod.Lex (· > ·) (· < ·) (s'.store,(pending dir s').card) (s.store,(pending dir s).card) := by
        rcases hprogress with hlt | ⟨hsame,hpend⟩
        · exact Prod.Lex.left _ _ hlt
        · rw [hsame]
          refine Prod.Lex.right _ (Finset.card_lt_card ?_)
          refine Finset.ssubset_iff_of_subset ?_ |>.mpr ⟨i,?_,?_⟩
          · intro j hj
            have hj := (Finset.mem_filter.mp hj).2
            exact Finset.mem_filter.mpr ⟨Finset.mem_univ j,((hpend j).mp hj).2⟩
          · exact Finset.mem_filter.mpr ⟨Finset.mem_univ i,hex.pending⟩
          · intro hi
            exact ((hpend i).mp (Finset.mem_filter.mp hi).2).1 rfl
      obtain ⟨N,final,hfinal,hrun⟩ := ih s' hless hinv
      refine ⟨N + 1,final,hfinal,?_⟩
      intro fuel
      cases fuel with
      | zero => rfl
      | succ fuel =>
        have hstep : step dir connectedComponent joinAndIsIncluded transfer { s with w := w' } i = .ok s' := hs'
        simp only [loop,hsome,bind,Except.bind,hstep,hrun,Nat.add_le_add_iff_right]

end Loop

section Solvers
variable {n : ℕ} {L : Type} [SemilatticeSup L] [OrderBot L]
variable {connectedComponent : Fin n → ℤ} {joinAndIsIncluded : L → L → L × Bool} {init : List (Fin n × L)}

/-- The transfer of the forward solver gives values to successors, is monotone on each and maps bottom to bottom. -/
structure ForwardTransfer (succs : Fin n → List (Fin n)) (transferStmt : Fin n → L → List (Fin n × L)) : Prop where
  edges : ∀ s a, ∀ p ∈ transferStmt s a, p.1 ∈ succs s
  mono : ∀ s t, Monotone fun a => contribution (transferStmt s a) t
  bot : ∀ s, ∀ p ∈ transferStmt s ⊥, p.2 = ⊥

structure BackwardTransfer (transferStmt : Fin n → L → L) : Prop where
  mono : ∀ s, Monotone (transferStmt s)
  bot : ∀ s, transferStmt s ⊥ = ⊥

def alongPreds (preds : Fin n → List (Fin n)) (transferStmt : Fin n → L → L) (s : Fin n) (a : L) : List (Fin n × L) :=
  (preds s).map fun p => (p,transferStmt s a)

omit [SemilatticeSup L] [OrderBot L] in
theorem mem_alongPreds {preds : Fin n → List (Fin n)} {transferStmt : Fin n → L → L} {s : Fin n} {a : L} {q : Fin n × L} :
    q ∈ alongPreds preds transferStmt s a ↔ q.1 ∈ preds s ∧ q.2 = transferStmt s a := by
  unfold alongPreds
  rw [List.mem_map]
  constructor
  · rintro ⟨p,hp,rfl⟩
    exact ⟨hp,rfl⟩
  · rintro ⟨hp,he⟩
    exact ⟨q.1,hp,Prod.ext rfl he.symm⟩

variable {succs preds : Fin n → List (Fin n)}
variable (hup : ∀ s, ∀ t ∈ succs s, connectedComponent t = connectedComponent s ∨ s < t)
include hup

theorem ForwardTransfer.lawful {transferStmt : Fin n → L → List (Fin n × L)} (h : ForwardTransfer succs transferStmt) :
    Lawful .forward connectedComponent transferStmt := by
  refine ⟨?_,h.mono,h.bot⟩
  intro s a p hp
  refine (hup s p.1 (h.edges s a p hp)).imp id ?_
  intro hlt
  simpa [rev] using hlt

theorem BackwardTransfer.lawful {transferStmt : Fin n → L → L} (h : BackwardTransfer transferStmt)
    (hpreds : ∀ s t, s ∈ preds t ↔ t ∈ succs s) :
    Lawful .backward connectedComponent (alongPreds preds transferStmt) := by
  refine ⟨?_,?_,?_⟩
  · intro s a q hq
    rcases hup q.1 s ((hpreds q.1 s).mp (mem_alongPreds.mp hq).1) with hscc | hlt
    · exact Or.inl hscc.symm
    · refine Or.inr ?_
      have hlt : (q.1 : ℕ) < s := hlt
      simp only [rev]
      omega
  · intro s t a b hab
    refine contribution_le fun q hq he => ?_
    obtain ⟨hmem,hval⟩ := (mem_alongPreds).mp hq
    have hb : (q.1,transferStmt s b) ∈ alongPreds preds transferStmt s b := (mem_alongPreds).mpr ⟨hmem,rfl⟩
    rw [hval,← he]
    exact (h.mono s hab).trans (le_contribution hb)
  · intro s q hq
    rw [(mem_alongPreds.mp hq).2]
    exact h.bot s

variable [WellFoundedGT L] (h0 : 0 < n) (hn : n ≤ 2 ^ 23) (hj : JoinContract joinAndIsIncluded)
variable (hd : (init.map Prod.fst).Nodup)
include h0 hn hj hd

theorem simpleForward_spec {transferStmt : Fin n → L → List (Fin n × L)} (h : ForwardTransfer succs transferStmt) :
    Returns (Solved .forward transferStmt init) (simpleForward connectedComponent joinAndIsIncluded transferStmt init) := by
  obtain ⟨w,hw⟩ : ∃ w, Worklist.create .forward connectedComponent = .ok w := create_ok h0 hn
  obtain ⟨s,hs,hinit⟩ := initial_of_create (L := L) hd hw
  obtain ⟨s',hs',hinit'⟩ := hinit.again hd
  have hl := h.lawful hup
  have hrun := loop_spec hl hj (hinit'.solverInv hl)
  have hdo : doStmt connectedComponent joinAndIsIncluded transferStmt =
      step .forward connectedComponent joinAndIsIncluded transferStmt := by
    funext s ord
    unfold doStmt step
    rw [updateBefore_eq]
  have heq : simpleForward connectedComponent joinAndIsIncluded transferStmt init = fun fuel =>
      loop .forward connectedComponent (step .forward connectedComponent joinAndIsIncluded transferStmt) fuel s' := by
    funext fuel
    simp only [simpleForward,hw,bind,Except.bind,hs,hs',hdo]
  rw [heq]
  exact hrun

theorem simpleBackward_spec {transferStmt : Fin n → L → L} (h : BackwardTransfer transferStmt)
    (hpreds : ∀ s t, s ∈ preds t ↔ t ∈ succs s) :
    Returns (Solved .backward (alongPreds preds transferStmt) init)
      (simpleBackward connectedComponent joinAndIsIncluded preds transferStmt init) := by
  obtain ⟨w,hw⟩ : ∃ w, Worklist.create .backward connectedComponent = .ok w := create_ok h0 hn
  obtain ⟨s,hs,hinit⟩ := initial_of_create (L := L) hd hw
  have hl := h.lawful hup hpreds
  have hrun := loop_spec hl hj (hinit.solverInv hl)
  have hdo : doStmtBackward connectedComponent joinAndIsIncluded preds transferStmt =
      step .backward connectedComponent joinAndIsIncluded (alongPreds preds transferStmt) := by
    funext s ord
    unfold doStmtBackward step alongPreds
    rw [List.foldlM_map]
    congr 1
  have heq : simpleBackward connectedComponent joinAndIsIncluded preds transferStmt init = fun fuel =>
      loop .backward connectedComponent (step .backward connectedComponent joinAndIsIncluded (alongPreds preds transferStmt))
        fuel s := by
    funext fuel
    simp only [simpleBackward,hw,bind,Except.bind,hs,hdo]
  rw [heq]
  exact hrun

/-- On the numbered statements of a function, of which there is one at least and `2 ^ 23` at most, both solvers return the
least assignment above the initial values that is closed under the transfer along the edges. No assertion of the worklist
fails, and in none of its histories is a statement lost. That the components are contiguous is not used. -/
theorem solvers_return_least (hpreds : ∀ s t, s ∈ preds t ↔ t ∈ succs s) :
    (∀ transferStmt, ForwardTransfer succs transferStmt → Returns (Solved .forward transferStmt init)
      (simpleForward connectedComponent joinAndIsIncluded transferStmt init)) ∧
    (∀ transferStmt, BackwardTransfer transferStmt → Returns
      (fun s => (∀ i, s.w.inWorklist .backward i = false) ∧
        IsLeast {σ | (∀ p ∈ init, p.2 ≤ σ p.1) ∧ ∀ s, ∀ p ∈ preds s, transferStmt s (σ s) ≤ σ p} s.store)
      (simpleBackward connectedComponent joinAndIsIncluded preds transferStmt init)) ∧
    ∀ dir hist (w : Worklist n), Worklist.Reach dir connectedComponent hist w →
      (∃ r, w.extract dir connectedComponent = .ok r) ∧
      ∀ w', w.extract dir connectedComponent = .ok (none,w') → ∀ i, .inserted i ∈ hist →
        ∃ pre post, hist = pre ++ .extracted i :: post ∧ .inserted i ∉ post := by
  refine ⟨fun transferStmt h => simpleForward_spec hup h0 hn hj hd h,?_,?_⟩
  · intro transferStmt h
    have hsets : Solutions (alongPreds preds transferStmt) init =
        {σ | (∀ p ∈ init, p.2 ≤ σ p.1) ∧ ∀ s, ∀ p ∈ preds s, transferStmt s (σ s) ≤ σ p} := by
      ext σ
      refine and_congr_right fun _ => ⟨?_,?_⟩
      · intro hc s p hp
        exact hc s (p,_) (mem_alongPreds.mpr ⟨hp,rfl⟩)
      · intro hc s q hq
        obtain ⟨hmem,hval⟩ := (mem_alongPreds).mp hq
        rw [hval]
        exact hc s q.1 hmem
    have hrun := simpleBackward_spec hup h0 hn hj hd h hpreds
    unfold Solved at hrun
    rwa [hsets] at hrun
  · intro dir hist w hreach
    exact hreach.no_loss

end Solvers

theorem solvers_return_least_loop : ∃ N s, Solved .forward (fun i a => [(1 - i,a)]) [(0,true)] s ∧
    ∀ fuel, simpleForward (n := 2) (fun _ => 0) (fun a b => (a || b,decide (a ≤ b))) (fun i a => [(1 - i,a)]) [(0,true)] fuel =
      .ok (if N ≤ fuel then some s else none) := by
  have hj : JoinContract fun a b : Bool => (a || b,decide (a ≤ b)) := by
    intro a b
    exact ⟨rfl,decide_eq_true_iff⟩
  have hup : ∀ s : Fin 2, ∀ t ∈ [1 - s], (0 : ℤ) = 0 ∨ s < t := fun _ _ _ => Or.inl rfl
  have hd : ([((0 : Fin 2),true)].map Prod.fst).Nodup := by decide
  have hpreds : ∀ s t : Fin 2, s ∈ [1 - t] ↔ t ∈ [1 - s] := by decide
  refine (solvers_return_least hup (by decide) (by decide) hj hd hpreds).1 _ ⟨?_,?_,?_⟩
  · intro s a p hp
    rw [List.mem_singleton] at hp
    rw [hp]
    exact List.mem_singleton_self _
  · decide
  · decide

-- one statement more than the bit vector can hold
theorem simpleForward_too_large : ¬ Returns (Solved .forward (fun _ _ => []) [])
    (simpleForward (n := 8388609) (fun i => i) (fun _ _ => ((),true)) (fun _ _ => []) []) := by
  have herror : ∀ fuel, simpleForward (n := 8388609) (fun i => i) (fun _ _ => ((),true)) (fun _ _ => []) [] fuel =
      .error .invalidArgument := by
    intro fuel
    unfold simpleForward Worklist.create
    rw [if_pos (by norm_num)]
    rfl
  rintro ⟨N,s,_,hrun⟩
  have h := hrun 0
  rw [herror] at h
  cases h

end FramaC.Dataflows
