import FramaC.PropertyStatus.Soundness

/-! # The constructor of a consolidated status

What constructor consolidation returns, as a function of the constructors of the hypotheses. The
hypotheses of an emitter are good, bad or unsure; choosing the best emitter is an error once good
and bad hypotheses were seen.
-/
set_option linter.unusedSectionVars false

namespace FramaC.PropertyStatus
open Properties Emitters ProgramProperties Simulation
variable {P E : Type} [DecidableEq P] [ProgramProperties P] [DecidableEq E] [Emitters E]

inductive Verdict
  | neverTried
  | consideredValid
  | valid
  | validUnderHyp
  | unknown
  | invalid
  | invalidUnderHyp
  | invalidButDead
  | validButDead
  | unknownButDead
  | inconsistent
  deriving DecidableEq, Repr

def Consolidated.verdict : Consolidated P E → Verdict
  | .neverTried => .neverTried
  | .consideredValid => .consideredValid
  | .valid _ => .valid
  | .validUnderHyp _ => .validUnderHyp
  | .unknown _ => .unknown
  | .invalid _ => .invalid
  | .invalidUnderHyp _ => .invalidUnderHyp
  | .invalidButDead _ => .invalidButDead
  | .validButDead _ => .validButDead
  | .unknownButDead _ => .unknownButDead
  | .inconsistent _ => .inconsistent

/-- What a conjunction of hypotheses comes to. -/
inductive Hyps
  | good
  | unsure
  | bad
  deriving DecidableEq, Repr

def Hyps.and : Hyps → Hyps → Hyps
  | .bad,_ => .bad
  | _,.bad => .bad
  | .unsure,_ => .unsure
  | _,.unsure => .unsure
  | .good,.good => .good

def Verdict.asHyp : Verdict → Hyps
  | .consideredValid => .good
  | .valid => .good
  | .invalidButDead => .good
  | .validButDead => .good
  | .unknownButDead => .good
  | .invalid => .bad
  | _ => .unsure

def hypsVerdict (v : P → Verdict) (l : List P) : Hyps := l.foldl (fun acc h => acc.and (v h).asHyp) .good

instance : RightCommutative Hyps.and where
  right_comm := by
    intro a b c
    cases a <;> cases b <;> cases c <;> rfl

theorem hypsVerdict_perm {v : P → Verdict} {l l' : List P} (h : l.Perm l') : hypsVerdict v l = hypsVerdict v l' := by
  refine List.Perm.foldl_eq' h ?_ _
  intro x _ y _ z
  exact RightCommutative.right_comm z _ _

def Issues.Nonempty (m : Issues P E) : Prop := ∀ x ∈ m, x.2 ≠ ∅

def Pending.Nonempty (m : Pending P E) : Prop := ∀ x ∈ m, Issues.Nonempty x.2

def Consolidated.Nonempty : Consolidated P E → Prop
  | .validUnderHyp m => Pending.Nonempty m
  | .unknown m => Pending.Nonempty m
  | .invalidUnderHyp m => Pending.Nonempty m
  | .invalidButDead m => Pending.Nonempty m
  | .validButDead m => Pending.Nonempty m
  | .unknownButDead m => Pending.Nonempty m
  | _ => True

theorem mem_add {V : Type} {m : EmitterMap E V} {e : E} {v : V} {x : E × V} (h : x ∈ m.add e v) : x = (e,v) ∨ x ∈ m := by
  rcases List.mem_cons.mp h with h | h
  · exact Or.inl h
  · exact Or.inr (List.mem_filter.mp h).1

theorem Issues.Nonempty.add {m : Issues P E} (h : m.Nonempty) {e : E} {ps : Finset P} (hps : ps ≠ ∅) :
    Issues.Nonempty (EmitterMap.add e ps m) := by
  intro x hx
  obtain rfl | hx := mem_add hx
  · exact hps
  · exact h x hx

theorem Pending.Nonempty.add {m : Pending P E} (h : m.Nonempty) {e : E} {i : Issues P E} (hi : i.Nonempty) :
    Pending.Nonempty (EmitterMap.add e i m) := by
  intro x hx
  obtain rfl | hx := mem_add hx
  · exact hi
  · exact h x hx

theorem mergeProperty_nonempty {e : E} {p : P} {m : Issues P E} (h : m.Nonempty) : (mergeProperty e p m).Nonempty := by
  unfold mergeProperty
  split
  · exact h.add (Finset.insert_ne_empty _ _)
  · exact h.add (Finset.singleton_ne_empty _)

theorem mergeProperties_total {e : E} {ps : Finset P} {m : Issues P E} (h : m.Nonempty) (hps : ps ≠ ∅) :
    ∃ m', mergeProperties e ps m = some m' ∧ m'.Nonempty := by
  unfold mergeProperties
  split
  · rename_i ps₂ _
    refine ⟨_,rfl,h.add ?_⟩
    obtain ⟨x,hx⟩ := Finset.nonempty_iff_ne_empty.mpr hps
    exact Finset.ne_empty_of_mem (Finset.mem_union_left ps₂ hx)
  · rw [if_neg hps]
    exact ⟨_,rfl,h.add hps⟩

theorem foldlM_total {α β : Type} {Q : α → Prop} {f : α → β → Option α} {l : List β}
    (h : ∀ a, ∀ x ∈ l, Q a → ∃ a', f a x = some a' ∧ Q a') {a : α} (ha : Q a) : ∃ a', l.foldlM f a = some a' ∧ Q a' := by
  induction l generalizing a with
  | nil => exact ⟨a,rfl,ha⟩
  | cons x l ih =>
    obtain ⟨b,hb,hqb⟩ := h a x List.mem_cons_self ha
    obtain ⟨c,hc,hqc⟩ := ih (fun a y hy => h a y (List.mem_cons_of_mem x hy)) hqb
    refine ⟨c,?_,hqc⟩
    rw [List.foldlM_cons,hb]
    exact hc

theorem flattenMap_total {i : Issues P E} {m : Pending P E} (hi : i.Nonempty) (hm : m.Nonempty) :
    ∃ i', flattenMap i m = some i' ∧ i'.Nonempty := by
  apply foldlM_total _ hi
  intro acc x hx hacc
  apply foldlM_total _ hacc
  intro acc y hy hacc
  exact mergeProperties_total hacc (hm x hx y hy)

theorem flattenSet_nonempty {i : Issues P E} {h : P} {l : List E} (hi : i.Nonempty) : (flattenSet i h l).Nonempty := by
  unfold flattenSet
  induction l generalizing i with
  | nil => exact hi
  | cons e l ih => exact ih (mergeProperty_nonempty hi)

theorem kernelIssue_nonempty (p : P) : (kernelIssue p : Issues P E).Nonempty := by
  intro x hx
  obtain rfl := List.mem_singleton.mp hx
  exact Finset.singleton_ne_empty p

def Conj (first : Bool) (k : Hyps) (r : Consolidated P E × Issues P E) : Prop :=
  r.2.Nonempty ∧
  match first,k with
  | true,_ => k = .good ∧ r = (.neverTried,[])
  | false,.good => r = (.valid [],[])
  | false,.bad => r.1 = .invalid []
  | false,.unsure => r.1 = .unknown []

theorem reduceHypothesisStatus_cases (h : P) {c : Consolidated P E} (hc : c.Nonempty) :
    match c.verdict.asHyp with
    | .good => reduceHypothesisStatus h c = .valid [] ∨ ∃ m, reduceHypothesisStatus h c = .validButDead m
    | .bad => ∃ s, reduceHypothesisStatus h c = .invalid s
    | .unsure => ∃ m, reduceHypothesisStatus h c = .unknown m ∧ m.Nonempty := by
  have hk : Pending.Nonempty (EmitterMap.singleton kernel (kernelIssue h) : Pending P E) := by
    intro x hx
    obtain rfl := List.mem_singleton.mp hx
    exact kernelIssue_nonempty h
  cases c with
  | neverTried => exact ⟨_,rfl,hk⟩
  | inconsistent m => exact ⟨_,rfl,hk⟩
  | consideredValid => exact Or.inl rfl
  | valid s => exact Or.inl rfl
  | validUnderHyp m => exact ⟨m,rfl,hc⟩
  | unknown m => exact ⟨m,rfl,hc⟩
  | invalid s => exact ⟨s,rfl⟩
  | invalidUnderHyp m => exact ⟨m,rfl,hc⟩
  | invalidButDead m => exact Or.inr ⟨m,rfl⟩
  | validButDead m => exact Or.inr ⟨m,rfl⟩
  | unknownButDead m => exact Or.inr ⟨m,rfl⟩

theorem Issues.nonempty_nil : Issues.Nonempty ([] : Issues P E) := by simp [Issues.Nonempty]

theorem hypothesesConjunction_conj {first : Bool} {k : Hyps} {r : Consolidated P E × Issues P E} (hr : Conj first k r)
    (h : P) {c : Consolidated P E} (hc : c.Nonempty) :
    ∃ r', hypothesesConjunction r.2 h r.1 (reduceHypothesisStatus h c) = some r' ∧
      Conj false (k.and c.verdict.asHyp) r' := by
  obtain ⟨hne,hr⟩ := hr
  have hred := reduceHypothesisStatus_cases h hc
  obtain ⟨s,issues⟩ := r
  cases hh : c.verdict.asHyp with
  | good =>
    simp only [hh] at hred
    cases first with
    | true =>
      obtain ⟨rfl,hr⟩ := hr
      obtain ⟨rfl,rfl⟩ := Prod.mk.inj hr
      rcases hred with h₁ | ⟨m,h₁⟩ <;> rw [h₁] <;> exact ⟨_,rfl,hne,rfl⟩
    | false =>
      cases k with
      | good =>
        obtain ⟨rfl,rfl⟩ := Prod.mk.inj hr
        rcases hred with h₁ | ⟨m,h₁⟩ <;> rw [h₁] <;> exact ⟨_,rfl,hne,rfl⟩
      | bad =>
        simp only at hr
        subst hr
        rcases hred with h₁ | ⟨m,h₁⟩ <;> rw [h₁] <;> exact ⟨_,rfl,hne,rfl⟩
      | unsure =>
        simp only at hr
        subst hr
        rcases hred with h₁ | ⟨m,h₁⟩ <;> rw [h₁] <;> exact ⟨_,rfl,hne,rfl⟩
  | bad =>
    simp only [hh] at hred
    obtain ⟨set,h₁⟩ := hred
    rw [h₁]
    have hset : Issues.Nonempty (flattenSet [] h set : Issues P E) := flattenSet_nonempty Issues.nonempty_nil
    cases first with
    | true =>
      obtain ⟨rfl,hr⟩ := hr
      obtain ⟨rfl,rfl⟩ := Prod.mk.inj hr
      exact ⟨_,rfl,hset,rfl⟩
    | false =>
      cases k with
      | good =>
        obtain ⟨rfl,rfl⟩ := Prod.mk.inj hr
        exact ⟨_,rfl,hset,rfl⟩
      | bad =>
        simp only at hr
        subst hr
        exact ⟨_,rfl,flattenSet_nonempty hne,rfl⟩
      | unsure =>
        simp only at hr
        subst hr
        exact ⟨_,rfl,hset,rfl⟩
  | unsure =>
    simp only [hh] at hred
    obtain ⟨m,h₁,hm⟩ := hred
    rw [h₁]
    obtain ⟨i,hi,hin⟩ := flattenMap_total hne hm
    simp only at hi
    cases first with
    | true =>
      obtain ⟨rfl,hr⟩ := hr
      obtain ⟨rfl,rfl⟩ := Prod.mk.inj hr
      exact ⟨(.unknown [],i),by simp only [hypothesesConjunction,if_true,hi]; rfl,hin,rfl⟩
    | false =>
      cases k with
      | good =>
        obtain ⟨rfl,rfl⟩ := Prod.mk.inj hr
        exact ⟨(.unknown [],i),by simp only [hypothesesConjunction,hi]; rfl,hin,rfl⟩
      | bad =>
        simp only at hr
        subst hr
        exact ⟨_,rfl,hne,rfl⟩
      | unsure =>
        simp only at hr
        subst hr
        exact ⟨(.unknown [],i),by simp only [hypothesesConjunction,if_true,hi]; rfl,hin,rfl⟩

theorem hypsOf_conj {f : P → Option (Consolidated P E)} {v : P → Verdict} {l : List P}
    (hf : ∀ q ∈ l, ∃ c, f q = some c ∧ c.verdict = v q ∧ c.Nonempty) :
    ∃ r, hypsOf f l = some r ∧ Conj (decide (l = [])) (hypsVerdict v l) r := by
  have hstep : ∀ (l : List P) (first : Bool) (k : Hyps) (r : Consolidated P E × Issues P E), Conj first k r →
      (∀ q ∈ l, ∃ c, f q = some c ∧ c.verdict = v q ∧ c.Nonempty) →
      ∃ r', l.foldlM (fun acc h => (f h).bind fun s =>
        hypothesesConjunction acc.2 h acc.1 (reduceHypothesisStatus h s)) r = some r' ∧
        Conj (first && decide (l = [])) (l.foldl (fun acc h => acc.and (v h).asHyp) k) r' := by
    intro l
    induction l with
    | nil =>
      intro first k r hr _
      exact ⟨r,rfl,by simpa using hr⟩
    | cons q l ih =>
      intro first k r hr hf
      obtain ⟨c,hc,hv,hn⟩ := hf q List.mem_cons_self
      obtain ⟨r₁,h₁,hr₁⟩ := hypothesesConjunction_conj hr q hn
      rw [hv] at hr₁
      obtain ⟨r₂,h₂,hr₂⟩ := ih false _ r₁ hr₁ fun x hx => hf x (List.mem_cons_of_mem q hx)
      refine ⟨r₂,?_,by simpa using hr₂⟩
      rw [List.foldlM_cons,hc]
      simp only [Option.bind_some,h₁]
      exact h₂
  have h := hstep l true .good (.neverTried,[]) ⟨Issues.nonempty_nil,rfl,rfl⟩ hf
  rw [Bool.true_and] at h
  exact h

inductive Choice
  | none
  | good
  | unsure
  | bad
  | conflict
  deriving DecidableEq, Repr

def Choice.add : Choice → Hyps → Option Choice
  | .none,.good => some .good
  | .none,.unsure => some .unsure
  | .none,.bad => some .bad
  | .good,.good => some .good
  | .good,.unsure => some .good
  | .good,.bad => some .conflict
  | .unsure,.good => some .good
  | .unsure,.unsure => some .unsure
  | .unsure,.bad => some .bad
  | .bad,.good => some .conflict
  | .bad,.unsure => some .bad
  | .bad,.bad => some .bad
  | .conflict,_ => Option.none

/-- The consolidated status of the emitters seen so far; a valid one lists those with good hypotheses. -/
def Chosen (k : Choice) (good : List E) (c : Consolidated P E) : Prop :=
  match k with
  | .none => c = .neverTried ∧ good = []
  | .good => ∃ set, c = .valid set ∧ ∀ e, e ∈ set ↔ e ∈ good
  | .unsure => ∃ m, c = .unknown m ∧ Pending.Nonempty m ∧ good = []
  | .bad => ∃ m, c = .invalidButDead m ∧ Pending.Nonempty m ∧ good = []
  | .conflict => ∃ msg, c = .inconsistent msg

theorem singleton_nonempty {e : E} {i : Issues P E} (hi : i.Nonempty) :
    Pending.Nonempty (EmitterMap.singleton e i : Pending P E) := by
  intro x hx
  obtain rfl := List.mem_singleton.mp hx
  exact hi

theorem mem_addEmitter {e x : E} {l : List E} : x ∈ addEmitter e l ↔ x = e ∨ x ∈ l := by
  unfold addEmitter
  split
  · rename_i h
    constructor
    · exact Or.inr
    · intro hx
      obtain rfl | hx := hx
      · exact h
      · exact hx
  · exact List.mem_cons

theorem hypsStatus_conj {first : Bool} {k : Hyps} {r : Consolidated P E × Issues P E} (hr : Conj first k r) :
    match k with
    | .good => r.2 = [] ∧ ∃ set, hypsStatus r.1 = some (.valid set)
    | .unsure => ∃ m, hypsStatus r.1 = some (.unknown m)
    | .bad => ∃ set, hypsStatus r.1 = some (.invalid set) := by
  obtain ⟨-,hr⟩ := hr
  obtain ⟨s,issues⟩ := r
  cases first with
  | true =>
    obtain ⟨rfl,hr⟩ := hr
    obtain ⟨rfl,rfl⟩ := Prod.mk.inj hr
    exact ⟨rfl,_,rfl⟩
  | false =>
    cases k with
    | good =>
      obtain ⟨rfl,rfl⟩ := Prod.mk.inj hr
      exact ⟨rfl,_,rfl⟩
    | unsure =>
      simp only at hr
      subst hr
      exact ⟨_,rfl⟩
    | bad =>
      simp only at hr
      subst hr
      exact ⟨_,rfl⟩

theorem chooseBestEmitter_chosen {k : Choice} {good : List E} {c : Consolidated P E} (hc : Chosen k good c) (e : E)
    {first : Bool} {h : Hyps} {r : Consolidated P E × Issues P E} (hr : Conj first h r) :
    match k.add h with
    | some k' => ∃ c', ((hypsStatus r.1).bind fun hyps => chooseBestEmitter e r.2 c hyps) = some c' ∧
        Chosen k' (if h = .good then e :: good else good) c'
    | Option.none => ((hypsStatus r.1).bind fun hyps => chooseBestEmitter e r.2 c hyps) = Option.none := by
  have hs := hypsStatus_conj hr
  have hi := hr.1
  cases h with
  | good =>
    obtain ⟨hnil,set,hs⟩ := hs
    rw [hs,hnil]
    simp only [Option.bind_some,if_true]
    cases k with
    | none =>
      obtain ⟨rfl,rfl⟩ := hc
      exact ⟨_,rfl,_,rfl,fun _ => Iff.rfl⟩
    | good =>
      obtain ⟨set',rfl,hset⟩ := hc
      refine ⟨_,rfl,_,rfl,?_⟩
      intro x
      rw [mem_addEmitter,List.mem_cons,hset]
    | unsure =>
      obtain ⟨m,rfl,-,rfl⟩ := hc
      exact ⟨_,rfl,_,rfl,fun _ => Iff.rfl⟩
    | bad =>
      obtain ⟨m,rfl,-,rfl⟩ := hc
      exact ⟨_,rfl,_,rfl⟩
    | conflict =>
      obtain ⟨msg,rfl⟩ := hc
      rfl
  | unsure =>
    obtain ⟨m₀,hs⟩ := hs
    rw [hs]
    simp only [Option.bind_some,reduceCtorEq,if_false]
    cases k with
    | none =>
      obtain ⟨rfl,rfl⟩ := hc
      exact ⟨_,rfl,_,rfl,singleton_nonempty hi,rfl⟩
    | good =>
      obtain ⟨set',rfl,hset⟩ := hc
      exact ⟨_,rfl,_,rfl,hset⟩
    | unsure =>
      obtain ⟨m,rfl,hm,rfl⟩ := hc
      exact ⟨_,rfl,_,rfl,hm.add hi,rfl⟩
    | bad =>
      obtain ⟨m,rfl,hm,rfl⟩ := hc
      exact ⟨_,rfl,_,rfl,hm,rfl⟩
    | conflict =>
      obtain ⟨msg,rfl⟩ := hc
      rfl
  | bad =>
    obtain ⟨set,hs⟩ := hs
    rw [hs]
    simp only [Option.bind_some,reduceCtorEq,if_false]
    cases k with
    | none =>
      obtain ⟨rfl,rfl⟩ := hc
      exact ⟨_,rfl,_,rfl,singleton_nonempty hi,rfl⟩
    | good =>
      obtain ⟨set',rfl,hset⟩ := hc
      exact ⟨_,rfl,_,rfl⟩
    | unsure =>
      obtain ⟨m,rfl,hm,rfl⟩ := hc
      exact ⟨_,rfl,_,rfl,singleton_nonempty hi,rfl⟩
    | bad =>
      obtain ⟨m,rfl,hm,rfl⟩ := hc
      exact ⟨_,rfl,_,rfl,hm.add hi,rfl⟩
    | conflict =>
      obtain ⟨msg,rfl⟩ := hc
      rfl

def goodEmitters (v : P → Verdict) (l : List (Emission P E)) (acc : List E) : List E :=
  l.foldl (fun acc e => if hypsVerdict v e.properties = .good then e.emitter :: acc else acc) acc

theorem foldlM_chosen {f : P → Option (Consolidated P E)} {v : P → Verdict} {l : List (Emission P E)}
    (hf : ∀ e ∈ l, ∀ q ∈ e.properties, ∃ c, f q = some c ∧ c.verdict = v q ∧ c.Nonempty) {k : Choice} {good : List E}
    {c : Consolidated P E} (hc : Chosen k good c) :
    match (l.map fun e => hypsVerdict v e.properties).foldlM Choice.add k with
    | some k' => ∃ c', l.foldlM (chooseOf f) c = some c' ∧ Chosen k' (goodEmitters v l good) c'
    | Option.none => l.foldlM (chooseOf f) c = Option.none := by
  induction l generalizing k good c with
  | nil => exact ⟨c,rfl,hc⟩
  | cons e l ih =>
    obtain ⟨r,hr,hconj⟩ := hypsOf_conj (hf e List.mem_cons_self)
    have hstep := chooseBestEmitter_chosen hc e.emitter hconj
    have hchoose : chooseOf f c e = (hypsStatus r.1).bind fun hyps => chooseBestEmitter e.emitter r.2 c hyps := by
      unfold chooseOf
      rw [hr]
      rfl
    rw [List.map_cons,List.foldlM_cons,List.foldlM_cons,hchoose]
    cases ha : k.add (hypsVerdict v e.properties) with
    | none =>
      simp only [ha] at hstep
      rw [hstep]
      rfl
    | some k' =>
      simp only [ha] at hstep
      obtain ⟨c',hc',hch⟩ := hstep
      rw [hc']
      exact ih (fun x hx => hf x (List.mem_cons_of_mem e hx)) hch

@[grind =] def Choice.join : Choice → Hyps → Choice
  | .none,.good => .good
  | .none,.unsure => .unsure
  | .none,.bad => .bad
  | .good,.bad => .conflict
  | .good,_ => .good
  | .unsure,.good => .good
  | .unsure,.unsure => .unsure
  | .unsure,.bad => .bad
  | .bad,.good => .conflict
  | .bad,_ => .bad
  | .conflict,_ => .conflict

theorem Choice.add_eq_some {k k' : Choice} {h : Hyps} (ha : k.add h = some k') : k' = k.join h := by
  cases k <;> cases h <;> simp [Choice.add] at ha <;> exact ha.symm

theorem foldlM_choice {hs : List Hyps} {k k' : Choice} (h : hs.foldlM Choice.add k = some k') :
    k' = hs.foldl Choice.join k := by
  induction hs generalizing k with
  | nil => exact (Option.some.inj h).symm
  | cons x hs ih =>
    rw [List.foldlM_cons] at h
    obtain ⟨k₁,h₁,h⟩ := Option.bind_eq_some_iff.mp h
    rw [Choice.add_eq_some h₁] at h
    exact ih h

def classes (v : P → Verdict) (l : List (Emission P E)) : List Hyps := l.map fun e => hypsVerdict v e.properties

def choiceOf (v : P → Verdict) (l : List (Emission P E)) : Choice := (classes v l).foldl Choice.join .none

def mergeVerdict (s : Emitted) : Choice → Verdict
  | .conflict => .inconsistent
  | .bad =>
    match s with
    | .true => .validButDead
    | .dontKnow => .unknownButDead
    | _ => .invalidButDead
  | .unsure =>
    match s with
    | .true => .validUnderHyp
    | .dontKnow => .unknown
    | _ => .invalidUnderHyp
  | _ =>
    match s with
    | .true => .valid
    | .dontKnow => .unknown
    | _ => .invalid

def hasGood (v : P → Verdict) (l : List (Emission P E)) : Bool := (classes v l).contains .good

def mergeInconsistent (v : P → Verdict) (valid invalid : List (Emission P E)) : Choice → Verdict
  | .conflict => .inconsistent
  | .bad => .unknownButDead
  | .unsure => .unknown
  | _ =>
    if hasGood v valid then
      if hasGood v invalid then .inconsistent else .validButDead
    else .invalidButDead

/-- The constructor, from the local status and the constructors of the hypotheses. -/
def verdictOf (v : P → Verdict) (p : P) (status : Local P E) : Verdict :=
  match status with
  | .neverTried => if isNotVerifiableButValid p status then .consideredValid else .neverTried
  | .best s l => mergeVerdict s (choiceOf v l)
  | .inconsistent valid invalid => mergeInconsistent v valid invalid (choiceOf v (valid ++ invalid))

theorem mem_goodEmitters {v : P → Verdict} {l : List (Emission P E)} {acc : List E} {x : E} :
    x ∈ goodEmitters v l acc ↔
      (∃ e ∈ l, hypsVerdict v e.properties = .good ∧ e.emitter = x) ∨ x ∈ acc := by
  induction l generalizing acc with
  | nil => simp [goodEmitters]
  | cons e l ih =>
    unfold goodEmitters at ih ⊢
    rw [List.foldl_cons,ih]
    by_cases hg : hypsVerdict v e.properties = .good
    · simp only [hg,if_true,List.mem_cons,exists_eq_or_imp,true_and]
      rw [@eq_comm E x e.emitter,or_left_comm,or_assoc]
    · simp [hg]

theorem validEmitters_foldl (p : P) (set : List E) (l : List (Emission P E)) {acc : Pending P E} (h : acc.Nonempty) :
    Pending.Nonempty (l.foldl (fun acc ep => if ep.emitter ∈ set then acc.add ep.emitter (kernelIssue p) else acc) acc) ∧
    (l.foldl (fun acc ep => if ep.emitter ∈ set then acc.add ep.emitter (kernelIssue p) else acc) acc = [] ↔
      acc = [] ∧ ∀ e ∈ l, e.emitter ∉ set) := by
  induction l generalizing acc with
  | nil => simpa using h
  | cons e l ih =>
    rw [List.foldl_cons]
    by_cases hm : e.emitter ∈ set
    · rw [if_pos hm]
      obtain ⟨h₁,h₂⟩ := ih (h.add (kernelIssue_nonempty p))
      refine ⟨h₁,h₂.trans ?_⟩
      simp [EmitterMap.add,hm]
    · rw [if_neg hm]
      obtain ⟨h₁,h₂⟩ := ih h
      refine ⟨h₁,h₂.trans ?_⟩
      simp [hm]

theorem validEmitters_spec (p : P) (set : List E) (l : List (Emission P E)) :
    Pending.Nonempty (validEmitters p set l) ∧ (validEmitters p set l = [] ↔ ∀ e ∈ l, e.emitter ∉ set) := by
  have hnil : Pending.Nonempty ([] : Pending P E) := by simp [Pending.Nonempty]
  obtain ⟨h₁,h₂⟩ := validEmitters_foldl p set l hnil
  exact ⟨h₁,h₂.trans (by simp)⟩

theorem issuesWithoutEmitter_nonempty {m : Pending P E} (hm : m.Nonempty) : (issuesWithoutEmitter m).Nonempty := by
  have hin : ∀ (l : Issues P E) (acc : Issues P E), acc.Nonempty → l.Nonempty →
      Issues.Nonempty (l.foldl (fun acc y => EmitterMap.add y.1 y.2 acc) acc) := by
    intro l
    induction l with
    | nil => exact fun acc h _ => h
    | cons y l ih =>
      intro acc h hl
      exact ih _ (h.add (hl y List.mem_cons_self)) fun x hx => hl x (List.mem_cons_of_mem y hx)
  have hout : ∀ (l : Pending P E) (acc : Issues P E), acc.Nonempty → l.Nonempty →
      Issues.Nonempty (l.foldl (fun acc x => x.2.foldl (fun acc y => EmitterMap.add y.1 y.2 acc) acc) acc) := by
    intro l
    induction l with
    | nil => exact fun acc h _ => h
    | cons x l ih =>
      intro acc h hl
      exact ih _ (hin _ _ h (hl x List.mem_cons_self)) fun y hy => hl y (List.mem_cons_of_mem x hy)
  exact hout m [] Issues.nonempty_nil hm

theorem foldl_add_nonempty {α : Type} {l : List α} {g : α → E} {i : α → Issues P E} (hi : ∀ x ∈ l, (i x).Nonempty)
    {acc : Pending P E} (h : acc.Nonempty) :
    Pending.Nonempty (l.foldl (fun acc x => EmitterMap.add (g x) (i x) acc) acc) := by
  induction l generalizing acc with
  | nil => exact h
  | cons x l ih => exact ih (fun y hy => hi y (List.mem_cons_of_mem x hy)) (h.add (hi x List.mem_cons_self))

theorem merge_best {p : P} {s : Emitted} {l : List (Emission P E)} {k : Choice} (hk : k ≠ .none) {good : List E}
    {c : Consolidated P E} (hc : Chosen k good c) :
    ∃ c', mergeHypothesesAndLocalStatus p c (.best s l) = some c' ∧ c'.verdict = mergeVerdict s k ∧ c'.Nonempty := by
  have hnil : Pending.Nonempty ([] : Pending P E) := by simp [Pending.Nonempty]
  cases k with
  | none => exact absurd rfl hk
  | good =>
    obtain ⟨set,rfl,-⟩ := hc
    cases s with
    | dontKnow =>
      refine ⟨_,rfl,rfl,foldl_add_nonempty (fun e _ => ?_) hnil⟩
      intro x hx
      obtain rfl := List.mem_singleton.mp hx
      exact Finset.singleton_ne_empty p
    | _ => exact ⟨_,rfl,rfl,trivial⟩
  | unsure =>
    obtain ⟨m,rfl,hm,-⟩ := hc
    cases s with
    | dontKnow =>
      refine ⟨_,rfl,rfl,foldl_add_nonempty (fun e _ => ?_) hnil⟩
      exact mergeProperty_nonempty (issuesWithoutEmitter_nonempty hm)
    | _ => exact ⟨_,rfl,rfl,hm⟩
  | bad =>
    obtain ⟨m,rfl,hm,-⟩ := hc
    cases s <;> exact ⟨_,rfl,rfl,hm⟩
  | conflict =>
    obtain ⟨msg,rfl⟩ := hc
    cases s <;> exact ⟨_,rfl,rfl,trivial⟩

theorem validEmitters_eq_nil {v : P → Verdict} {p : P} {set : List E} {l l' : List (Emission P E)}
    (hset : ∀ e, e ∈ set ↔ e ∈ goodEmitters v l []) (hl : (l.map fun e => e.emitter).Nodup) (hsub : l' ⊆ l) :
    validEmitters p set l' = [] ↔ hasGood v l' = false := by
  rw [(validEmitters_spec p set l').2]
  unfold hasGood classes
  rw [← Bool.not_eq_true,List.contains_iff_mem,List.mem_map]
  constructor
  · intro h hc
    obtain ⟨e,he,hg⟩ := hc
    exact h e he ((hset _).mpr (mem_goodEmitters.mpr (Or.inl ⟨e,hsub he,hg,rfl⟩)))
  · intro h e he hm
    obtain ⟨e',he',hg,hem⟩ | hn := (mem_goodEmitters).mp ((hset _).mp hm)
    · obtain rfl := List.inj_on_of_nodup_map hl he' (hsub he) hem
      exact h ⟨e',he,hg⟩
    · cases hn

theorem merge_inconsistent {v : P → Verdict} {p : P} {valid invalid : List (Emission P E)} {k : Choice} (hk : k ≠ .none)
    (hgood : k = .good → hasGood v (valid ++ invalid) = true) {c : Consolidated P E}
    (hc : Chosen k (goodEmitters v (valid ++ invalid) []) c)
    (hl : ((valid ++ invalid).map fun e => e.emitter).Nodup) :
    ∃ c', mergeHypothesesAndLocalStatus p c (.inconsistent valid invalid) = some c' ∧
      c'.verdict = mergeInconsistent v valid invalid k ∧ c'.Nonempty := by
  cases k with
  | none => exact absurd rfl hk
  | good =>
    obtain ⟨set,rfl,hset⟩ := hc
    have hv := validEmitters_eq_nil (p := p) hset hl (List.subset_append_left valid invalid)
    have hi := validEmitters_eq_nil (p := p) hset hl (List.subset_append_right valid invalid)
    have hany : hasGood v valid = false → hasGood v invalid = true := by
      intro h
      have hg := hgood rfl
      unfold hasGood classes at h hg ⊢
      rw [List.map_append,List.contains_append,h,Bool.false_or] at hg
      exact hg
    unfold mergeHypothesesAndLocalStatus mergeInconsistent
    cases hgv : hasGood v valid with
    | false =>
      have hni : validEmitters p set invalid ≠ [] := by
        rw [ne_eq,hi,hany hgv]
        decide
      simp only [hv.mpr hgv,if_true,if_neg hni]
      exact ⟨_,rfl,rfl,(validEmitters_spec p set invalid).1⟩
    | true =>
      have hnv : validEmitters p set valid ≠ [] := by
        rw [ne_eq,hv,hgv]
        decide
      simp only [if_neg hnv]
      cases hgi : hasGood v invalid with
      | false =>
        simp only [hi.mpr hgi,if_true]
        exact ⟨_,rfl,rfl,(validEmitters_spec p set valid).1⟩
      | true =>
        have hni : validEmitters p set invalid ≠ [] := by
          rw [ne_eq,hi,hgi]
          decide
        simp only [if_neg hni]
        exact ⟨_,rfl,rfl,trivial⟩
  | unsure =>
    obtain ⟨m,rfl,hm,-⟩ := hc
    exact ⟨_,rfl,rfl,hm⟩
  | bad =>
    obtain ⟨m,rfl,hm,-⟩ := hc
    exact ⟨_,rfl,rfl,hm⟩
  | conflict =>
    obtain ⟨msg,rfl⟩ := hc
    exact ⟨_,rfl,rfl,trivial⟩

theorem foldl_join_ne_none {hs : List Hyps} {k : Choice} (h : hs ≠ [] ∨ k ≠ .none) : hs.foldl Choice.join k ≠ .none := by
  induction hs generalizing k with
  | nil => exact h.resolve_left fun hc => hc rfl
  | cons x hs ih =>
    apply ih
    right
    cases k <;> cases x <;> simp [Choice.join]

theorem foldl_join_good {hs : List Hyps} {k : Choice} (h : hs.foldl Choice.join k = .good) :
    k = .good ∨ hs.contains .good = true := by
  induction hs generalizing k with
  | nil => exact Or.inl h
  | cons x hs ih =>
    obtain hk | hc := ih h
    · cases k <;> cases x <;> simp_all [Choice.join]
    · right
      simp only [List.contains_cons,hc,Bool.or_true]

theorem emittersStatus_chosen {k : Choice} (hk : k ≠ .none) {good : List E} {c : Consolidated P E}
    (hc : Chosen k good c) : emittersStatus c = c := by
  cases k with
  | none => exact absurd rfl hk
  | good => obtain ⟨set,rfl,-⟩ := hc; rfl
  | unsure => obtain ⟨m,rfl,-⟩ := hc; rfl
  | bad => obtain ⟨m,rfl,-⟩ := hc; rfl
  | conflict => obtain ⟨msg,rfl⟩ := hc; rfl

theorem mergeOf_tried {f : P → Option (Consolidated P E)} {p : P} {status : Local P E} (h : isTried status = true) :
    mergeOf f p status = ((bestEmitters status).foldlM (chooseOf f) .neverTried).bind fun c =>
      mergeHypothesesAndLocalStatus p (emittersStatus c) status := by
  have hn : isNotVerifiableButValid p status = false := by
    cases status <;> first | rfl | cases h
  unfold mergeOf emittersOf
  rw [hn,h]
  cases (bestEmitters status).foldlM (chooseOf f) .neverTried <;> rfl

theorem mergeOf_verdict {f : P → Option (Consolidated P E)} {v : P → Verdict} (p : P) (status : Local P E)
    (hf : ∀ e ∈ bestEmitters status, ∀ q ∈ e.properties, ∃ c, f q = some c ∧ c.verdict = v q ∧ c.Nonempty)
    (hl : ((bestEmitters status).map fun e => e.emitter).Nodup) (hne : isTried status = true → bestEmitters status ≠ []) :
    match (classes v (bestEmitters status)).foldlM Choice.add .none with
    | some _ => ∃ c, mergeOf f p status = some c ∧ c.verdict = verdictOf v p status ∧ c.Nonempty
    | Option.none => mergeOf f p status = Option.none := by
  cases ht : isTried status with
  | false =>
    cases status with
    | neverTried =>
      cases hn : isNotVerifiableButValid p (Local.neverTried : Local P E) with
      | true => exact ⟨.consideredValid,by simp [mergeOf,hn],by simp [verdictOf,hn]; rfl,trivial⟩
      | false => exact ⟨.neverTried,by simp [mergeOf,hn,isTried],by simp [verdictOf,hn]; rfl,trivial⟩
    | best s l => cases ht
    | inconsistent valid invalid => cases ht
  | true =>
    have hch := foldlM_chosen hf (show Chosen (P := P) .none ([] : List E) .neverTried from ⟨rfl,rfl⟩)
    rw [mergeOf_tried ht]
    change match (classes v (bestEmitters status)).foldlM Choice.add .none with
      | some k' => _
      | Option.none => _ at hch
    cases hk : (classes v (bestEmitters status)).foldlM Choice.add .none with
    | none =>
      simp only [hk] at hch
      rw [hch]
      rfl
    | some k =>
      simp only [hk] at hch
      obtain ⟨c,hc,hchosen⟩ := hch
      have hkj := foldlM_choice hk
      have hk0 : k ≠ .none := by
        rw [hkj]
        apply foldl_join_ne_none
        left
        simpa [classes] using hne ht
      rw [hc,Option.bind_some,emittersStatus_chosen hk0 hchosen]
      cases status with
      | neverTried => cases ht
      | best s l =>
        have hverdict : verdictOf v p (.best s l : Local P E) = mergeVerdict s k := by
          rw [hkj]
          rfl
        rw [hverdict]
        exact merge_best hk0 hchosen
      | inconsistent valid invalid =>
        have hverdict : verdictOf v p (.inconsistent valid invalid : Local P E) = mergeInconsistent v valid invalid k := by
          rw [hkj]
          rfl
        rw [hverdict]
        apply merge_inconsistent hk0 _ hchosen hl
        intro hkg
        rw [hkg] at hkj
        exact (foldl_join_good hkj.symm).resolve_left (by decide)

end FramaC.PropertyStatus
