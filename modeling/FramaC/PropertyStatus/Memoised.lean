import FramaC.PropertyStatus.Unmemoised

/-! # Consolidation returns the status that the table determines

The memoised computation simulates the one that recomputes everything. The properties on the stack
of calls are visited and not memoised, and are above those that remain to be consolidated.
-/
set_option linter.unusedSectionVars false

namespace FramaC.PropertyStatus
open Properties Emitters ProgramProperties Simulation
variable {P E : Type} [DecidableEq P] [ProgramProperties P] [DecidableEq E] [Emitters E]
variable {T : StatusTable P E} {rank : P → ℕ}

section Reach
variable {A A' : P → Prop} [DecidablePred A] [DecidablePred A'] {M : P → Option (Consolidated P E)} {V : P → Bool}

theorem current_of_ne {p q : P} (hA : ∀ q, A' q ↔ A q ∨ q = p) (hq : q ≠ p) (e : Emission P E) :
    current T rank A' q e = current T rank A q e := by
  have h : A' q ↔ A q := by
    rw [hA q]
    exact or_iff_left hq
  unfold current
  by_cases ha : A q
  · rw [if_pos ha,if_pos (h.mpr ha)]
  · rw [if_neg ha,if_neg fun hc => ha (h.mp hc)]

theorem Evolves.congr {T' : StatusTable P E} (h : Evolves T rank A T') (hA : ∀ q, A' q ↔ A q) :
    Evolves T rank A' T' := by
  refine ⟨?_,h.bound,h.unbound⟩
  intro q l₀ hq
  obtain ⟨l,hl,hf⟩ := h.entries q l₀ hq
  refine ⟨l,hl,hf.imp ?_⟩
  intro x₀ x hx
  refine ⟨?_,hx.status⟩
  rw [hx.emission]
  unfold current
  by_cases ha : A q
  · rw [if_pos ha,if_pos ((hA q).mpr ha)]
  · rw [if_neg ha,if_neg fun hc => ha ((hA q).mp hc)]

theorem TableInv.extend {st st' : State P E} (h : TableInv T rank A M V st) {p : P} (hA : ∀ q, A' q ↔ A q ∨ q = p)
    (hm : st'.memo = M) (hv : st'.visited = V) (hne : ∀ q, q ≠ p → st'.table q = st.table q)
    (hsome : (st'.table p).isSome = (st.table p).isSome)
    (hp : ∀ l₀, entriesOf T p = some l₀ → ∀ l, entriesOf st.table p = some l →
      List.Forall₂ (EntryEvolves T rank A p) l₀ l →
      ∃ l', entriesOf st'.table p = some l' ∧ List.Forall₂ (EntryEvolves T rank A' p) l₀ l') :
    TableInv T rank A' M V st' := by
  refine ⟨⟨?_,?_,?_⟩,hm,hv⟩
  · intro q l₀ hq
    obtain ⟨l,hl,hf⟩ := h.evolves.entries q l₀ hq
    by_cases hqp : q = p
    · subst hqp
      exact hp l₀ hq l hl hf
    · refine ⟨l,?_,?_⟩
      · unfold entriesOf at hl ⊢
        rw [hne q hqp]
        exact hl
      · apply hf.imp
        intro x₀ x hx
        exact ⟨by rw [hx.emission,current_of_ne hA hqp],hx.status⟩
  · intro q hq
    have hb := h.evolves.bound q hq
    by_cases hqp : q = p
    · rw [hqp,hsome,← hqp]
      exact hb
    · rw [hne q hqp]
      exact hb
  · intro q hq
    have hu := h.evolves.unbound q hq
    by_cases hqp : q = p
    · subst hqp
      rw [hu] at hsome
      exact Option.not_isSome_iff_eq_none.mp (by rw [hsome]; simp)
    · rw [hne q hqp]
      exact hu

theorem TableInv.extend_self {st : State P E} (h : TableInv T rank A M V st) {p : P} (hA : ∀ q, A' q ↔ A q ∨ q = p)
    (hnot : ¬A p) (haug : ∀ e, augment T rank p e = e) : TableInv T rank A' M V st := by
  apply h.extend hA h.memo h.visited (fun _ _ => rfl) rfl
  intro l₀ _ l hl hf
  refine ⟨l,hl,hf.imp ?_⟩
  intro x₀ x hx
  refine ⟨?_,hx.status⟩
  rw [hx.emission]
  simp [current,hnot,haug]

theorem TableInv.addReachability {st : State P E} (h : TableInv T rank A M V st) {p : P}
    (hA : ∀ q, A' q ↔ A q ∨ q = p) (hnot : ¬A p) (hr : isReachable p = false)
    (hu : isUnreachable (localOf T rank (ipReachablePpt p)) = true) :
    TableInv T rank A' M V
      { st with table := Function.update st.table p ((st.table p).map (List.map (addHypothesis (ipReachablePpt p)))) } := by
  have hA' : A' p := (hA p).mpr (Or.inr rfl)
  refine h.extend hA ?_ ?_ ?_ ?_ ?_
  · exact h.memo
  · exact h.visited
  · intro q hq
    simp [hq]
  · simp
  · intro l₀ hl₀ l hl hf
    cases hs : st.table p with
    | none =>
      have hnil : l = [] := by
        unfold entriesOf at hl
        simp only [hs] at hl
        split at hl
        · rw [← Option.some.inj hl]
          unfold kernelEntries
          rw [if_neg]
          intro ha
          rw [isReachable_of_isAlwaysReachable ha] at hr
          cases hr
        · cases hl
      subst hnil
      obtain rfl := List.forall₂_nil_right_iff.mp hf
      exact ⟨[],by simpa [entriesOf,hs] using hl,List.Forall₂.nil⟩
    | some l' =>
      rw [entriesOf_of_some hs] at hl
      obtain rfl := Option.some.inj hl
      refine ⟨l'.map (addHypothesis (ipReachablePpt p)),entriesOf_of_some (by simp),?_⟩
      apply forall₂_map_right hf
      intro x₀ x _ hx
      have hx1 : x.1 = x₀.1 := by
        rw [hx.emission]
        simp [current,hnot]
      have hcur : current T rank A' p x₀.1 = augment T rank p x₀.1 := by simp [current,hA']
      constructor
      · rw [hcur]
        unfold addHypothesis augment
        rw [hx1]
        by_cases hm : ipReachablePpt p ∈ x₀.1.properties
        · simp [hm,hx1]
        · simp [hm,hr,hu]
      · have hst : (addHypothesis (ipReachablePpt p) x).2 = x.2 := by
          unfold addHypothesis
          split <;> rfl
        rw [hst]
        exact hx.status

theorem consolidateReachable_simulates (hN : NodupEmitters T) (hT : Ranked T rank) {fuel : ℕ}
    (hf : ∀ q, rank q < fuel) {p : P} (hA : ∀ q, A' q ↔ A q ∨ q = p) (hnot : ¬A p) :
    Simulates (TableInv T rank A M V) (TableInv T rank A' M V) (fun _ _ => True) (checkReachable T rank p)
      (consolidateReachable fuel p) := by
  unfold checkReachable consolidateReachable
  cases hr : isReachable p with
  | true =>
    refine Simulates.pure trivial fun st h => ?_
    exact h.extend_self hA hnot (augment_of_isReachable hr)
  | false =>
    have haug : isUnreachable (localOf T rank (ipReachablePpt p)) = false → ∀ e, augment T rank p e = e := by
      intro h e
      simp [augment,h]
    apply Simulates.bind (getStatus_false_simulates hN hT (hf (ipReachablePpt p)))
    intro s s' hs hss
    have hpure : isUnreachable (some s) = false → Simulates (TableInv T rank A M V) (TableInv T rank A' M V)
        (fun _ _ => True) (some ()) (pure ()) := by
      intro h
      refine Simulates.pure trivial fun st hi => ?_
      exact hi.extend_self hA hnot (haug (by rw [hs]; exact h))
    obtain rfl | ⟨rfl,hs'⟩ := hss
    · cases s with
      | neverTried => exact hpure rfl
      | inconsistent valid invalid => exact hpure rfl
      | best s l =>
        cases s with
        | true => exact hpure rfl
        | dontKnow => exact hpure rfl
        | falseIfReachable => exact Simulates.none _ fun _ _ => rfl
        | falseAndReachable =>
          intro st hi
          exact ⟨(),_,rfl,trivial,hi.addReachability hA hnot hr (by rw [hs]; rfl)⟩
    · obtain rfl | ⟨l,rfl⟩ := hs'
      · exact hpure rfl
      · exact hpure rfl

end Reach

/-- The states between two calls, under a stack of calls. -/
structure MemoInv (T : StatusTable P E) (rank : P → ℕ) (stack : P → Prop) (st : State P E) : Prop where
  evolves : Evolves T rank (fun p => (st.memo p).isSome = true ∨ st.visited p = true) st.table
  memo : ∀ q c, st.memo q = some c → consolidatedOf T rank q = some c
  visited : ∀ q, st.visited q = true → (st.memo q).isSome = true ∨ stack q
  stacked : ∀ q, stack q → st.visited q = true

section Emitters
variable {I : State P E → Prop} {f : P → Option (Consolidated P E)} {g : P → Run P E (Consolidated P E)}

theorem consolidatedHyps_simulates {l : List P} (h : ∀ q ∈ l, Simulates I I Eq (f q) (g q)) :
    Simulates I I Eq (hypsOf f l) (consolidatedHyps g l) := by
  apply Simulates.foldlM (List.forall₂_same.mpr fun q _ => rfl) _ rfl
  rintro a _ q _ hq rfl rfl
  apply Simulates.bind (h q hq)
  rintro s _ _ rfl
  exact Simulates.lift fun _ h => h

theorem consolidatedEmitters_simulates {l : List (Emission P E)}
    (h : ∀ e ∈ l, ∀ q ∈ e.properties, Simulates I I Eq (f q) (g q)) :
    Simulates I I Eq (emittersOf f l) (consolidatedEmitters g l) := by
  unfold emittersOf consolidatedEmitters
  apply Simulates.bind (J := I) (R := Eq)
  · apply Simulates.foldlM (List.forall₂_same.mpr fun e _ => rfl) _ rfl
    rintro a _ e _ he rfl rfl
    apply Simulates.bind (consolidatedHyps_simulates (h e he))
    rintro r _ _ rfl
    apply Simulates.bind (Simulates.lift fun _ h => h)
    rintro hyps _ _ rfl
    exact Simulates.lift fun _ h => h
  · rintro s _ _ rfl
    exact Simulates.pure rfl fun _ h => h

end Emitters

theorem TableInv.memoInv {stack : P → Prop} {st st' : State P E} (h : MemoInv T rank stack st) {p : P}
    (hi : TableInv T rank (fun q => (st.memo q).isSome = true ∨ Function.update st.visited p true q = true) st.memo
      (Function.update st.visited p true) st') : MemoInv T rank (fun q => stack q ∨ q = p) st' := by
  constructor
  · rw [hi.memo,hi.visited]
    exact hi.evolves
  · rw [hi.memo]
    exact h.memo
  · intro q hq
    rw [hi.visited] at hq
    rw [hi.memo]
    by_cases hqp : q = p
    · exact Or.inr (Or.inr hqp)
    · rw [Function.update_of_ne hqp] at hq
      obtain hm | hs := h.visited q hq
      · exact Or.inl hm
      · exact Or.inr (Or.inl hs)
  · intro q hq
    rw [hi.visited]
    by_cases hqp : q = p
    · simp [hqp]
    · rw [Function.update_of_ne hqp]
      exact h.stacked q (hq.resolve_right hqp)

theorem consolidate_simulates (hN : NodupEmitters T) (hT : Acyclic T rank) {fuel : ℕ} (hf : ∀ q, rank q < fuel)
    {stack : P → Prop} {st : State P E} (hst : MemoInv T rank stack st) {p : P} (hm : st.memo p = none)
    (hv : st.visited p = false) {g : P → Run P E (Consolidated P E)}
    (hg : ∀ q, rank q < rank p → Simulates (MemoInv T rank fun q => stack q ∨ q = p)
      (MemoInv T rank fun q => stack q ∨ q = p) Eq (consolidatedOf T rank q) (g q)) :
    Simulates (fun s => s = { st with visited := Function.update st.visited p true })
      (MemoInv T rank fun q => stack q ∨ q = p) Eq (consolidatedOf T rank p) (consolidate g fuel p) := by
  rw [consolidatedOf_eq hT]
  have hA : ∀ q, ((st.memo q).isSome = true ∨ Function.update st.visited p true q = true) ↔
      ((st.memo q).isSome = true ∨ st.visited q = true) ∨ q = p := by
    intro q
    by_cases hqp : q = p
    · simp [hqp]
    · simp [hqp]
  have hpre : ∀ s, s = { st with visited := Function.update st.visited p true } →
      TableInv T rank (fun q => (st.memo q).isSome = true ∨ st.visited q = true) st.memo
        (Function.update st.visited p true) s := by
    rintro _ rfl
    exact ⟨hst.evolves,rfl,rfl⟩
  have hreach := consolidateReachable_simulates (M := st.memo) (V := Function.update st.visited p true) hN hT.ranked hf
    hA (by simp [hm,hv])
  unfold consolidate
  apply Simulates.bind (hreach.weaken hpre (fun _ _ _ h => h) fun _ h => h)
  intro _ _ _ _
  apply Simulates.bind (getStatus_simulates hN hT.ranked fuel p (hf p))
  intro status status' hs hss
  have hcur : status' = status.mapEmissions (augment T rank p) := by
    rw [hss]
    congr 1
    funext e
    simp [current]
  subst hcur
  have hpost : ∀ s, TableInv T rank (fun q => (st.memo q).isSome = true ∨ Function.update st.visited p true q = true)
      st.memo (Function.update st.visited p true) s → MemoInv T rank (fun q => stack q ∨ q = p) s :=
    fun s h => TableInv.memoInv hst h
  unfold mergeOf
  split
  · exact Simulates.pure rfl hpost
  · split
    · apply Simulates.bind
      · apply Simulates.weaken (consolidatedEmitters_simulates _) hpost (fun _ _ _ h => h) fun _ h => h
        intro e he q hq
        exact hg q (hT.below hs e he q hq)
      · rintro hyps _ _ rfl
        exact Simulates.lift fun _ h => h
    · exact Simulates.pure rfl hpost

theorem MemoInv.store {stack : P → Prop} {p : P} {st : State P E} (h : MemoInv T rank (fun q => stack q ∨ q = p) st)
    {c : Consolidated P E} (hc : consolidatedOf T rank p = some c) :
    MemoInv T rank stack { st with memo := Function.update st.memo p (some c) } := by
  have hv : st.visited p = true := h.stacked p (Or.inr rfl)
  constructor
  · apply h.evolves.congr
    intro q
    by_cases hqp : q = p
    · simp [hqp,hv]
    · simp [hqp]
  · intro q d hd
    by_cases hqp : q = p
    · subst hqp
      simp only [Function.update_self] at hd
      rw [hc,← hd]
    · simp only [Function.update_of_ne hqp] at hd
      exact h.memo q d hd
  · intro q hq
    by_cases hqp : q = p
    · simp [hqp]
    · simp only [Function.update_of_ne hqp]
      obtain hm | hs := h.visited q hq
      · exact Or.inl hm
      · exact Or.inr (hs.resolve_right hqp)
  · intro q hq
    exact h.stacked q (Or.inl hq)

theorem memoConsolidated_simulates (hN : NodupEmitters T) (hT : Acyclic T rank) {fuel : ℕ} (hf : ∀ q, rank q < fuel) :
    ∀ depth (stack : P → Prop) p, rank p < depth → (∀ q, stack q → rank p < rank q) →
      Simulates (MemoInv T rank stack) (MemoInv T rank stack) Eq (consolidatedOf T rank p)
        (memoConsolidated fuel depth p) := by
  intro depth
  induction depth with
  | zero => intro stack p hp; exact absurd hp (Nat.not_lt_zero _)
  | succ depth ih =>
    intro stack p hp hstack
    unfold memoConsolidated
    apply Simulates.read
    intro st hst
    cases hm : st.memo p with
    | some c =>
      rw [hst.memo p c hm]
      exact Simulates.pure rfl fun _ h => h ▸ hst
    | none =>
      -- a property on the stack is above this one, hence this is no cycle
      have hv : st.visited p = false := by
        apply Bool.eq_false_iff.mpr
        intro hv
        obtain hs | hs := hst.visited p hv
        · simp [hm] at hs
        · exact absurd (hstack p hs) (Nat.lt_irrefl _)
      have hrec : ∀ q, rank q < rank p → Simulates (MemoInv T rank fun q => stack q ∨ q = p)
          (MemoInv T rank fun q => stack q ∨ q = p) Eq (consolidatedOf T rank q) (memoConsolidated fuel depth q) := by
        intro q hq
        apply ih _ q (by omega)
        intro r hr
        obtain hr | rfl := hr
        · exact hq.trans (hstack r hr)
        · exact hq
      have hcons := consolidate_simulates hN hT hf hst hm hv hrec
      simp only [hv,Bool.false_eq_true,if_false]
      refine Simulates.update (J := fun s => s = { st with visited := Function.update st.visited p true }) ?_ ?_
      · rintro _ rfl
        rfl
      · apply Simulates.andThen hcons
        rintro c _ hc rfl
        exact Simulates.update (fun st h => h.store hc) (Simulates.pure rfl fun _ h => h)

theorem consolidationGet_simulates (hN : NodupEmitters T) (hT : Acyclic T rank) {fuel : ℕ} (hf : ∀ q, rank q < fuel)
    (p : P) :
    Simulates (MemoInv T rank fun _ => False) (MemoInv T rank fun _ => False) Eq (consolidatedOf T rank p)
      (consolidationGet fuel p) := by
  unfold consolidationGet
  apply Simulates.andThen (memoConsolidated_simulates hN hT hf fuel _ p (hf p) fun _ h => h.elim)
  rintro c _ hc rfl
  refine Simulates.update (J := MemoInv T rank fun _ => False) ?_ (Simulates.pure rfl fun _ h => h)
  intro st h
  refine ⟨?_,h.memo,fun _ hq => absurd hq (by simp),fun _ hq => hq.elim⟩
  apply h.evolves.congr
  intro q
  constructor
  · intro hq
    exact Or.inl (hq.resolve_right (by simp))
  · intro hq
    obtain hm | hv := hq
    · exact Or.inl hm
    · exact Or.inl ((h.visited q hv).resolve_right id)

end FramaC.PropertyStatus
