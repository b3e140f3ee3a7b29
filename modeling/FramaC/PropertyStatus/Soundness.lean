import FramaC.PropertyStatus.Memoised

/-! # What a consolidated validity rests on

A property is consolidated as valid only when an emitter that proves it has all its hypotheses
valid, considered valid or dead; the same holds of invalidity.
-/
set_option linter.unusedSectionVars false

namespace FramaC.PropertyStatus
open Properties Emitters ProgramProperties Simulation
variable {P E : Type} [DecidableEq P] [ProgramProperties P] [DecidableEq E] [Emitters E]

def isAccepted : Consolidated P E → Bool
  | .consideredValid => true
  | .valid _ => true
  | .invalidButDead _ => true
  | .validButDead _ => true
  | .unknownButDead _ => true
  | _ => false

def isValidConj : Consolidated P E → Bool
  | .neverTried => true
  | .valid _ => true
  | _ => false

theorem hypothesesConjunction_valid {issues : Issues P E} {h : P} {s₁ s : Consolidated P E}
    {r : Consolidated P E × Issues P E} (hr : hypothesesConjunction issues h s₁ (reduceHypothesisStatus h s) = some r)
    (hv : isValidConj r.1 = true) : (∃ set, r.1 = .valid set) ∧ (isValidConj s₁ = true ∨ ∃ m, s₁ = .validButDead m) ∧
      isAccepted s = true := by
  cases s₁ <;> cases s <;> simp [hypothesesConjunction,reduceHypothesisStatus] at hr <;>
    grind [isValidConj,isAccepted]

theorem hypothesesConjunction_not_dead {issues : Issues P E} {h : P} {s₁ s₂ : Consolidated P E}
    {r : Consolidated P E × Issues P E} (hr : hypothesesConjunction issues h s₁ s₂ = some r) (m : Pending P E) :
    r.1 ≠ .validButDead m := by
  cases s₁ <;> cases s₂ <;> simp [hypothesesConjunction] at hr <;> grind

section
variable {f : P → Option (Consolidated P E)}

theorem foldlM_hyps_valid {l : List P} {acc r : Consolidated P E × Issues P E}
    (h : l.foldlM (fun acc h => (f h).bind fun s =>
      hypothesesConjunction acc.2 h acc.1 (reduceHypothesisStatus h s)) acc = some r)
    (hacc : ∀ m, acc.1 ≠ .validButDead m) (hv : isValidConj r.1 = true) :
    isValidConj acc.1 = true ∧ ∀ q ∈ l, ∃ c, f q = some c ∧ isAccepted c = true := by
  induction l generalizing acc with
  | nil =>
    obtain rfl := Option.some.inj h
    exact ⟨hv,by simp⟩
  | cons q l ih =>
    rw [List.foldlM_cons] at h
    obtain ⟨acc',ha,h⟩ := Option.bind_eq_some_iff.mp h
    obtain ⟨c,hc,ha⟩ := Option.bind_eq_some_iff.mp ha
    obtain ⟨hv',hl⟩ := ih h (hypothesesConjunction_not_dead ha)
    obtain ⟨-,hacc',hok⟩ := hypothesesConjunction_valid ha hv'
    constructor
    · obtain hacc' | ⟨m,hm⟩ := hacc'
      · exact hacc'
      · exact absurd hm (hacc m)
    · intro x hx
      rcases List.mem_cons.mp hx with rfl | hx
      · exact ⟨c,hc,hok⟩
      · exact hl x hx

theorem hypsOf_valid {l : List P} {r : Consolidated P E × Issues P E} (h : hypsOf f l = some r) {set : List E}
    (hs : hypsStatus r.1 = some (.valid set)) : ∀ q ∈ l, ∃ c, f q = some c ∧ isAccepted c = true := by
  have hv : isValidConj r.1 = true := by
    cases hr : r.1 <;> simp [hr,hypsStatus] at hs <;> rfl
  exact (foldlM_hyps_valid h (by simp) hv).2

theorem chooseBestEmitter_valid {e : E} {issues : Issues P E} {old s : Consolidated P E} {set : List E}
    (h : chooseBestEmitter e issues old s = some (.valid set)) : (∃ set', old = .valid set') ∨ ∃ set', s = .valid set' := by
  cases old <;> cases s <;> simp [chooseBestEmitter] at h <;> grind

theorem chooseBestEmitter_tried {e : E} {issues : Issues P E} {old s : Consolidated P E}
    (h : chooseBestEmitter e issues old s = some .neverTried) : False := by
  cases old <;> cases s <;> simp [chooseBestEmitter] at h

theorem foldlM_choose_valid {l : List (Emission P E)} {acc : Consolidated P E} {set : List E}
    (h : l.foldlM (chooseOf f) acc = some (.valid set)) :
    (∃ set', acc = .valid set') ∨ ∃ e ∈ l, ∀ q ∈ e.properties, ∃ c, f q = some c ∧ isAccepted c = true := by
  induction l generalizing acc with
  | nil =>
    obtain rfl := Option.some.inj h
    exact Or.inl ⟨set,rfl⟩
  | cons e l ih =>
    rw [List.foldlM_cons] at h
    obtain ⟨acc',ha,h⟩ := Option.bind_eq_some_iff.mp h
    obtain ⟨set',rfl⟩ | ⟨e',he',hall⟩ := ih h
    · obtain ⟨r,hr,ha⟩ := Option.bind_eq_some_iff.mp ha
      obtain ⟨hyps,hh,ha⟩ := Option.bind_eq_some_iff.mp ha
      obtain hold | ⟨set'',rfl⟩ := chooseBestEmitter_valid ha
      · exact Or.inl hold
      · exact Or.inr ⟨e,List.mem_cons_self,hypsOf_valid hr hh⟩
    · exact Or.inr ⟨e',List.mem_cons_of_mem e he',hall⟩

theorem foldlM_choose_tried {l : List (Emission P E)} {acc : Consolidated P E}
    (h : l.foldlM (chooseOf f) acc = some .neverTried) : l = [] := by
  induction l generalizing acc with
  | nil => rfl
  | cons e l ih =>
    rw [List.foldlM_cons] at h
    obtain ⟨acc',ha,h⟩ := Option.bind_eq_some_iff.mp h
    obtain rfl := ih h
    obtain rfl := Option.some.inj h
    obtain ⟨r,-,ha⟩ := Option.bind_eq_some_iff.mp ha
    obtain ⟨hyps,-,ha⟩ := Option.bind_eq_some_iff.mp ha
    exact absurd ha chooseBestEmitter_tried

theorem emittersOf_valid {l : List (Emission P E)} (hl : l ≠ []) {set : List E}
    (h : emittersOf f l = some (.valid set)) :
    ∃ e ∈ l, ∀ q ∈ e.properties, ∃ c, f q = some c ∧ isAccepted c = true := by
  obtain ⟨s,hs,h⟩ := Option.bind_eq_some_iff.mp h
  cases s with
  | neverTried => exact absurd (foldlM_choose_tried hs) hl
  | valid set' =>
    obtain ⟨_,hc⟩ | he := foldlM_choose_valid hs
    · cases hc
    · exact he
  | _ => simp [emittersStatus] at h

theorem merge_valid {p : P} {hyps : Consolidated P E} {status : Local P E} {set : List E}
    (h : mergeHypothesesAndLocalStatus p hyps status = some (.valid set)) :
    (∃ set', hyps = .valid set') ∧ ∃ l, status = .best .true l := by
  cases status with
  | neverTried => cases hyps <;> simp [mergeHypothesesAndLocalStatus] at h
  | best s l => cases s <;> cases hyps <;> simp [mergeHypothesesAndLocalStatus] at h ⊢
  | inconsistent valid invalid => 
    cases hyps <;> simp [mergeHypothesesAndLocalStatus] at h
    grind

theorem merge_invalid {p : P} {hyps : Consolidated P E} {status : Local P E} {set : List E}
    (h : mergeHypothesesAndLocalStatus p hyps status = some (.invalid set)) :
    (∃ set', hyps = .valid set') ∧ ∃ s l, (s = .falseIfReachable ∨ s = .falseAndReachable) ∧ status = .best s l := by
  cases status with
  | neverTried => cases hyps <;> simp [mergeHypothesesAndLocalStatus] at h
  | best s l => cases s <;> cases hyps <;> simp [mergeHypothesesAndLocalStatus] at h ⊢
  | inconsistent valid invalid => 
    cases hyps <;> simp [mergeHypothesesAndLocalStatus] at h
    grind

theorem mergeOf_sound {p : P} {status : Local P E} {c : Consolidated P E} (h : mergeOf f p status = some c)
    (hne : ∀ s l, status = .best s l → l ≠ []) :
    ((∃ set, c = .valid set) → ∃ l, status = .best .true l ∧
      ∃ e ∈ l, ∀ q ∈ e.properties, ∃ c, f q = some c ∧ isAccepted c = true) ∧
    ((∃ set, c = .invalid set) → ∃ s l, (s = .falseIfReachable ∨ s = .falseAndReachable) ∧ status = .best s l ∧
      ∃ e ∈ l, ∀ q ∈ e.properties, ∃ c, f q = some c ∧ isAccepted c = true) := by
  unfold mergeOf at h
  split at h
  · obtain rfl := Option.some.inj h
    simp
  · split at h
    · obtain ⟨hyps,hh,h⟩ := Option.bind_eq_some_iff.mp h
      constructor
      · rintro ⟨set,rfl⟩
        obtain ⟨⟨set',rfl⟩,l,rfl⟩ := merge_valid h
        exact ⟨l,rfl,emittersOf_valid (hne _ l rfl) hh⟩
      · rintro ⟨set,rfl⟩
        obtain ⟨⟨set',rfl⟩,s,l,hs,rfl⟩ := merge_invalid h
        exact ⟨s,l,hs,rfl,emittersOf_valid (hne _ l rfl) hh⟩
    · obtain rfl := Option.some.inj h
      simp

end

theorem strengthen_nonempty {e : Emission P E} {s s' : Emitted} {acc : Local P E} {l : List (Emission P E)}
    (hacc : ∀ s l, acc = .best s l → l ≠ []) (h : strengthen e s acc = some (.best s' l)) : l ≠ [] := by
  cases acc with
  | neverTried => simp [strengthen] at h; simp [← h.2]
  | best s₀ l₀ =>
    have hl₀ := hacc s₀ l₀ rfl
    cases s₀ <;> cases s <;> simp [strengthen,checkStrongestEmitted] at h <;> grind
  | inconsistent valid invalid => cases s <;> simp [strengthen] at h

theorem foldlM_nonempty {f : P → Option (Local P E)} {l : List (Entry P E)} {acc r : Local P E}
    (hacc : ∀ s l, acc = .best s l → l ≠ []) (h : l.foldlM (addStatusOf f) acc = some r) :
    ∀ s l, r = .best s l → l ≠ [] := by
  induction l generalizing acc with
  | nil =>
    obtain rfl := Option.some.inj h
    exact hacc
  | cons x l ih =>
    rw [List.foldlM_cons] at h
    obtain ⟨acc',ha,h⟩ := Option.bind_eq_some_iff.mp h
    refine ih ?_ h
    obtain ⟨⟨s,tried⟩,-,ha⟩ := Option.bind_eq_some_iff.mp ha
    cases tried with
    | true =>
      rintro s' l' rfl
      exact strengthen_nonempty hacc ha
    | false =>
      obtain rfl := Option.some.inj ha
      exact hacc

theorem localOf_nonempty {T : StatusTable P E} {rank : P → ℕ} (hT : Ranked T rank) {p : P} {status : Local P E}
    (h : localOf T rank p = some status) : ∀ s l, status = .best s l → l ≠ [] := by
  rw [localOf_eq hT] at h
  obtain ⟨l,-,h⟩ := Option.bind_eq_some_iff.mp h
  exact foldlM_nonempty (by simp) h

/-- The states after some properties were consolidated. -/
inductive AfterGets (fuel : ℕ) (T : StatusTable P E) : State P E → Prop
  | init : AfterGets fuel T ⟨T,fun _ => none,fun _ => false⟩
  | get {st st' : State P E} {p : P} {c : Consolidated P E} : AfterGets fuel T st →
      consolidationGet fuel p st = some (c,st') → AfterGets fuel T st'

section
variable {T : StatusTable P E} {rank : P → ℕ} {fuel : ℕ}

theorem memoInv_init : MemoInv T rank (fun _ => False) ⟨T,fun _ => none,fun _ => false⟩ := by
  refine ⟨⟨?_,fun _ h => h,?_⟩,by simp,by simp,by simp⟩
  · intro p l hl
    refine ⟨l,hl,List.forall₂_same.mpr fun x _ => ⟨?_,Or.inl rfl⟩⟩
    simp [current]
  · intro p hp
    cases hT : T p with
    | none => exact hT
    | some l => simp [entriesOf,hT] at hp

theorem consolidationGet_eq (hN : NodupEmitters T) (hT : Acyclic T rank) (hf : ∀ q, rank q < fuel) {st st' : State P E}
    (hst : MemoInv T rank (fun _ => False) st) {p : P} {c : Consolidated P E}
    (h : consolidationGet fuel p st = some (c,st')) :
    consolidatedOf T rank p = some c ∧ MemoInv T rank (fun _ => False) st' := by
  have hs := consolidationGet_simulates hN hT hf p st hst
  cases hc : consolidatedOf T rank p with
  | none =>
    simp only [hc] at hs
    rw [hs] at h
    cases h
  | some c' =>
    simp only [hc] at hs
    obtain ⟨_,st'',hrun,rfl,hi⟩ := hs
    rw [hrun] at h
    obtain ⟨rfl,rfl⟩ := Prod.mk.inj (Option.some.inj h)
    exact ⟨rfl,hi⟩

theorem AfterGets.memoInv (hN : NodupEmitters T) (hT : Acyclic T rank) (hf : ∀ q, rank q < fuel) {st : State P E}
    (h : AfterGets fuel T st) : MemoInv T rank (fun _ => False) st := by
  induction h with
  | init => exact memoInv_init
  | get _ hg ih => exact (consolidationGet_eq hN hT hf ih hg).2

theorem current_properties_subset {A : P → Prop} [DecidablePred A] (p : P) (e : Emission P E) :
    (current T rank A p e).properties ⊆ (augment T rank p e).properties := by
  unfold current
  split
  · exact List.Subset.refl _
  · unfold augment
    split
    · exact List.subset_cons_self _ _
    · exact List.Subset.refl _

theorem accepted_in (hN : NodupEmitters T) (hT : Acyclic T rank) (hf : ∀ q, rank q < fuel) {st : State P E}
    (hst : MemoInv T rank (fun _ => False) st) {p : P} {s : Emitted} {l : List (Emission P E)}
    (hl : localOf T rank p = some (.best s l)) (hne : l ≠ [])
    (he : ∃ e ∈ l.map (augment T rank p), ∀ q ∈ e.properties, ∃ c, consolidatedOf T rank q = some c ∧ isAccepted c = true) :
    ∃ l' st', getStatus fuel true p st = some (.best s l',st') ∧ l' ≠ [] ∧ ∃ e ∈ l', ∀ q ∈ e.properties,
      ∃ c st', consolidationGet fuel q st = some (c,st') ∧ isAccepted c = true := by
  have hs := getStatus_simulates hN hT.ranked fuel p (hf p) st ⟨hst.evolves,rfl,rfl⟩
  rw [hl] at hs
  obtain ⟨_,st',hrun,rfl,-⟩ := hs
  refine ⟨_,st',hrun,by simpa using hne,?_⟩
  obtain ⟨e',he',hall⟩ := he
  obtain ⟨e,he,rfl⟩ := List.mem_map.mp he'
  refine ⟨_,List.mem_map_of_mem he,?_⟩
  intro q hq
  obtain ⟨c,hc,hok⟩ := hall q (current_properties_subset p e hq)
  have hg := consolidationGet_simulates hN hT hf q st hst
  rw [hc] at hg
  obtain ⟨_,st'',hrun',rfl,-⟩ := hg
  exact ⟨_,st'',hrun',hok⟩

/-- A property is consolidated as valid only when it is locally true for an emitter whose hypotheses are
all consolidated as valid, considered valid or dead; and as invalid only when it is locally false for
such an emitter. -/
theorem consolidated_sound (hN : NodupEmitters T) (hT : Acyclic T rank) (hf : ∀ q, rank q < fuel)
    {st st' : State P E} (hst : AfterGets fuel T st) {p : P} {c : Consolidated P E}
    (hg : consolidationGet fuel p st = some (c,st')) :
    ((∃ set, c = .valid set) → ∃ l st'', getStatus fuel true p st' = some (.best .true l,st'') ∧ l ≠ [] ∧
      ∃ e ∈ l, ∀ q ∈ e.properties, ∃ c st'', consolidationGet fuel q st' = some (c,st'') ∧ isAccepted c = true) ∧
    ((∃ set, c = .invalid set) → ∃ s l st'', (s = .falseIfReachable ∨ s = .falseAndReachable) ∧
      getStatus fuel true p st' = some (.best s l,st'') ∧ l ≠ [] ∧
      ∃ e ∈ l, ∀ q ∈ e.properties, ∃ c st'', consolidationGet fuel q st' = some (c,st'') ∧ isAccepted c = true) := by
  obtain ⟨hc,hi⟩ := consolidationGet_eq hN hT hf (hst.memoInv hN hT hf) hg
  rw [consolidatedOf_eq hT] at hc
  obtain ⟨-,-,hc⟩ := Option.bind_eq_some_iff.mp hc
  obtain ⟨status,hs,hc⟩ := Option.bind_eq_some_iff.mp hc
  have hne := localOf_nonempty hT.ranked hs
  have hsound := mergeOf_sound hc (by
    intro s l hl
    cases status with
    | best s₀ l₀ =>
      obtain ⟨-,rfl⟩ := Local.best.inj hl
      simpa using hne s₀ l₀ rfl
    | _ => cases hl)
  constructor
  · intro hv
    obtain ⟨l,hl,he⟩ := hsound.1 hv
    cases status with
    | best s₀ l₀ =>
      obtain ⟨rfl,rfl⟩ := Local.best.inj hl
      exact accepted_in hN hT hf hi hs (hne _ l₀ rfl) he
    | _ => cases hl
  · intro hv
    obtain ⟨s,l,hfalse,hl,he⟩ := hsound.2 hv
    cases status with
    | best s₀ l₀ =>
      obtain ⟨rfl,rfl⟩ := Local.best.inj hl
      obtain ⟨l',st'',hrun⟩ := accepted_in hN hT hf hi hs (hne _ l₀ rfl) he
      exact ⟨s₀,l',st'',hfalse,hrun⟩
    | _ => cases hl

end

instance : ProgramProperties Annot where
  isPostOfDeclaration _ := false
  isReachable_ipReachablePpt _ := rfl

/-- The goal is proved under the hypothesis, and the hypothesis without any. -/
def provedTable : StatusTable Annot Prover
  | .goal => some [(⟨.wp,[.hyp],false⟩,.true)]
  | .hyp => some [(⟨.eva,[],false⟩,.true)]
  | .reach => none

def annotRank : Annot → ℕ
  | .goal => 1
  | _ => 0

theorem provedTable_nodup : NodupEmitters provedTable := by
  intro p l hl
  cases p <;> simp [provedTable] at hl <;> subst hl <;> simp

theorem provedTable_acyclic : Acyclic provedTable annotRank := by
  constructor
  · intro p l hl x hx h hh
    cases p with
    | goal =>
      obtain rfl := Option.some.inj hl
      obtain rfl := List.mem_singleton.mp hx
      obtain rfl := List.mem_singleton.mp hh
      decide
    | hyp =>
      obtain rfl := Option.some.inj hl
      obtain rfl := List.mem_singleton.mp hx
      cases hh
    | reach =>
      obtain rfl := Option.some.inj hl
      cases hx
  · intro p _ _ hu
    cases p <;> exact absurd hu (by decide)

theorem annotRank_lt (q : Annot) : annotRank q < 2 := by
  cases q <;> decide

theorem consolidated_sound_goal :
    ∃ (set : List Prover) (st : State Annot Prover),
      consolidationGet 2 Annot.goal ⟨provedTable,fun _ => none,fun _ => false⟩ = some (.valid set,st) ∧
      ∃ l st'', getStatus 2 true Annot.goal st = some (.best .true l,st'') ∧ l ≠ [] ∧
        ∃ e ∈ l, ∀ q ∈ e.properties, ∃ c st'', consolidationGet 2 q st = some (c,st'') ∧ isAccepted c = true := by
  refine ⟨_,_,rfl,?_⟩
  exact (consolidated_sound provedTable_nodup provedTable_acyclic annotRank_lt AfterGets.init rfl).1 ⟨_,rfl⟩

end FramaC.PropertyStatus
