import FramaC.PropertyStatus.Consolidation
import FramaC.Lib.Simulation

/-! # Consolidation without its tables

What consolidation computes is a function of the emitted statuses: the statuses of the logical
consequences that are registered on the way, the properties that are registered, the reachability
hypotheses that are added and the memoised results do not change it.
-/
set_option linter.unusedSectionVars false

namespace FramaC.PropertyStatus
open Properties Emitters ProgramProperties Simulation
variable {P E : Type} [DecidableEq P] [ProgramProperties P] [DecidableEq E] [Emitters E]

abbrev StatusTable (P E : Type) := P → Option (List (Entry P E))

def entriesOf (T : StatusTable P E) (ppt : P) : Option (List (Entry P E)) :=
  match T ppt with
  | some l => some l
  | none => if isAutoRegistered ppt then some (kernelEntries ppt) else none

def statusOfEntry (f : P → Option (Local P E)) (x : Entry P E) : Option (Emitted × Bool) :=
  if x.1.logicalConsequence && decide (x.2 = .dontKnow) then
    ((consequenceHyps x.1).foldlM (fun s p => (f p).bind fun status => some (conjunction s (localStatus p status)))
      Emitted.true).bind fun newS =>
    if newS = .dontKnow then
      ((consequenceHyps x.1).anyM fun p => (f p).bind fun status => some (isTried status)).bind fun tried =>
      some (newS,tried)
    else some (newS,true)
  else some (x.2,true)

def addStatusOf (f : P → Option (Local P E)) (acc : Local P E) (x : Entry P E) : Option (Local P E) :=
  (statusOfEntry f x).bind fun r => if r.2 then strengthen x.1 r.1 acc else some acc

def statusOf (T : StatusTable P E) : ℕ → P → Option (Local P E)
  | 0,_ => none
  | n + 1,ppt => (entriesOf T ppt).bind fun l => l.foldlM (addStatusOf (statusOf T n)) .neverTried

def Ranked (T : StatusTable P E) (rank : P → ℕ) : Prop :=
  ∀ p l, entriesOf T p = some l → ∀ x ∈ l, ∀ h ∈ x.1.properties, rank h < rank p

theorem foldlM_congr {α β : Type} {f g : α → β → Option α} {l : List β} (h : ∀ a, ∀ x ∈ l, f a x = g a x) (a : α) :
    l.foldlM f a = l.foldlM g a := by
  induction l generalizing a with
  | nil => rfl
  | cons x l ih =>
    rw [List.foldlM_cons,List.foldlM_cons,h a x List.mem_cons_self]
    apply congrArg
    funext b
    exact ih (fun a y hy => h a y (List.mem_cons_of_mem x hy)) b

theorem anyM_congr {β : Type} {f g : β → Option Bool} {l : List β} (h : ∀ x ∈ l, f x = g x) : l.anyM f = l.anyM g := by
  induction l with
  | nil => rfl
  | cons x l ih =>
    unfold List.anyM
    rw [h x List.mem_cons_self,ih fun y hy => h y (List.mem_cons_of_mem x hy)]

theorem statusOfEntry_congr {f g : P → Option (Local P E)} {x : Entry P E}
    (h : ∀ p ∈ consequenceHyps x.1, f p = g p) : statusOfEntry f x = statusOfEntry g x := by
  have hf : ∀ s, (consequenceHyps x.1).foldlM
      (fun s p => (f p).bind fun status => some (conjunction s (localStatus p status))) s =
      (consequenceHyps x.1).foldlM
        (fun s p => (g p).bind fun status => some (conjunction s (localStatus p status))) s := by
    apply foldlM_congr
    intro s p hp
    rw [h p hp]
  have ha : (consequenceHyps x.1).anyM (fun p => (f p).bind fun status => some (isTried status)) =
      (consequenceHyps x.1).anyM fun p => (g p).bind fun status => some (isTried status) := by
    apply anyM_congr
    intro p hp
    rw [h p hp]
  unfold statusOfEntry
  rw [hf,ha]

theorem mem_of_mem_consequenceHyps {e : Emission P E} {p : P} (h : p ∈ consequenceHyps e) : p ∈ e.properties :=
  (List.mem_filter.mp h).1

theorem statusOf_fuel {T : StatusTable P E} {rank : P → ℕ} (hT : Ranked T rank) :
    ∀ n m p, rank p < n → rank p < m → statusOf T n p = statusOf T m p := by
  intro n
  induction n with
  | zero => intro m p hn; exact absurd hn (Nat.not_lt_zero _)
  | succ n ih =>
    intro m p hn hm
    obtain ⟨m,rfl⟩ : ∃ m', m = m' + 1 := ⟨m - 1,by omega⟩
    simp only [statusOf]
    cases he : entriesOf T p with
    | none => rfl
    | some l =>
      simp only [Option.bind_some]
      apply foldlM_congr
      intro acc x hx
      have hs : statusOfEntry (statusOf T n) x = statusOfEntry (statusOf T m) x := by
        apply statusOfEntry_congr
        intro q hq
        have hlt := hT p l he x hx q (mem_of_mem_consequenceHyps hq)
        exact ih m q (by omega) (by omega)
      unfold addStatusOf
      rw [hs]

def localOf (T : StatusTable P E) (rank : P → ℕ) (p : P) : Option (Local P E) := statusOf T (rank p + 1) p

theorem localOf_eq {T : StatusTable P E} {rank : P → ℕ} (hT : Ranked T rank) (p : P) :
    localOf T rank p =
      (entriesOf T p).bind fun l => l.foldlM (addStatusOf (localOf T rank)) .neverTried := by
  change (entriesOf T p).bind (fun l => l.foldlM (addStatusOf (statusOf T (rank p))) .neverTried) = _
  cases he : entriesOf T p with
  | none => rfl
  | some l =>
    simp only [Option.bind_some]
    apply foldlM_congr
    intro acc x hx
    have hs : statusOfEntry (statusOf T (rank p)) x = statusOfEntry (localOf T rank) x := by
      apply statusOfEntry_congr
      intro q hq
      have hlt := hT p l he x hx q (mem_of_mem_consequenceHyps hq)
      exact statusOf_fuel hT _ _ q hlt (Nat.lt_succ_self _)
    unfold addStatusOf
    rw [hs]

def isUnreachable : Option (Local P E) → Bool
  | some (.best .falseAndReachable _) => true
  | _ => false

def augment (T : StatusTable P E) (rank : P → ℕ) (p : P) (e : Emission P E) : Emission P E :=
  if isReachable p = false ∧ isUnreachable (localOf T rank (ipReachablePpt p)) = true ∧
      ipReachablePpt p ∉ e.properties then
    { e with properties := ipReachablePpt p :: e.properties }
  else e

section Evolution
variable (T : StatusTable P E) (rank : P → ℕ) (A : P → Prop) [DecidablePred A]

/-- The emitter as it is in a table where some properties are consolidated. -/
def current (p : P) (e : Emission P E) : Emission P E := if A p then augment T rank p e else e

/-- A consequence may have got its status. -/
structure EntryEvolves (p : P) (x₀ x : Entry P E) : Prop where
  emission : x.1 = current T rank A p x₀.1
  status : x.2 = x₀.2 ∨ statusOfEntry (localOf T rank) x₀ = some (x.2,true) ∧ x.2 ≠ .dontKnow

/-- The tables that consolidation reaches. -/
structure Evolves (T' : StatusTable P E) : Prop where
  entries : ∀ p l₀, entriesOf T p = some l₀ →
    ∃ l, entriesOf T' p = some l ∧ List.Forall₂ (EntryEvolves T rank A p) l₀ l
  bound : ∀ p, (T p).isSome = true → (T' p).isSome = true
  unbound : ∀ p, entriesOf T p = none → T' p = none

end Evolution

/-- `Hashtbl` binds an emitter once. -/
def NodupEmitters (T : StatusTable P E) : Prop :=
  ∀ p l, T p = some l → (l.map fun x => x.1.emitter).Nodup

def Local.mapEmissions (f : Emission P E → Emission P E) : Local P E → Local P E
  | .neverTried => .neverTried
  | .best s l => .best s (l.map f)
  | .inconsistent valid invalid => .inconsistent (valid.map f) (invalid.map f)

@[simp] theorem isTried_mapEmissions (f : Emission P E → Emission P E) (s : Local P E) :
    isTried (s.mapEmissions f) = isTried s := by cases s <;> rfl

@[simp] theorem isNotVerifiableButValid_mapEmissions (f : Emission P E → Emission P E) (p : P) (s : Local P E) :
    isNotVerifiableButValid p (s.mapEmissions f) = isNotVerifiableButValid p s := by cases s <;> rfl

@[simp] theorem localStatus_mapEmissions (f : Emission P E → Emission P E) (p : P) (s : Local P E) :
    localStatus p (s.mapEmissions f) = localStatus p s := by
  unfold localStatus
  rw [isNotVerifiableButValid_mapEmissions]
  cases s <;> rfl

theorem strengthen_mapEmissions (f : Emission P E → Emission P E) (e : Emission P E) (s : Emitted) (acc : Local P E) :
    strengthen (f e) s (acc.mapEmissions f) = (strengthen e s acc).map (Local.mapEmissions f) := by
  cases acc with
  | neverTried => rfl
  | best s₀ l => cases s₀ <;> cases s <;> rfl
  | inconsistent valid invalid => cases s <;> rfl

section
variable {T : StatusTable P E} {rank : P → ℕ} {A : P → Prop} [DecidablePred A]

theorem augment_emitter (p : P) (e : Emission P E) : (augment T rank p e).emitter = e.emitter := by
  unfold augment
  split <;> rfl

theorem augment_logicalConsequence (p : P) (e : Emission P E) :
    (augment T rank p e).logicalConsequence = e.logicalConsequence := by
  unfold augment
  split <;> rfl

theorem augment_consequenceHyps (p : P) (e : Emission P E) :
    consequenceHyps (augment T rank p e) = consequenceHyps e := by
  unfold augment
  split
  · simp [consequenceHyps,isReachable_ipReachablePpt]
  · rfl

theorem augment_of_isReachable {p : P} (h : isReachable p = true) (e : Emission P E) : augment T rank p e = e := by
  simp [augment,h]

@[simp] theorem current_emitter (p : P) (e : Emission P E) : (current T rank A p e).emitter = e.emitter := by
  unfold current
  split
  · exact augment_emitter p e
  · rfl

@[simp] theorem current_logicalConsequence (p : P) (e : Emission P E) :
    (current T rank A p e).logicalConsequence = e.logicalConsequence := by
  unfold current
  split
  · exact augment_logicalConsequence p e
  · rfl

@[simp] theorem current_consequenceHyps (p : P) (e : Emission P E) :
    consequenceHyps (current T rank A p e) = consequenceHyps e := by
  unfold current
  split
  · exact augment_consequenceHyps p e
  · rfl

theorem EntryEvolves.refl_kernelEntries (p : P) :
    List.Forall₂ (EntryEvolves T rank A p) (kernelEntries p) (kernelEntries p) := by
  unfold kernelEntries
  split
  · rename_i h
    have hr := isReachable_of_isAlwaysReachable h
    refine List.Forall₂.cons ⟨?_,Or.inl rfl⟩ List.Forall₂.nil
    unfold current
    split
    · exact (augment_of_isReachable hr _).symm
    · rfl
  · exact List.Forall₂.nil

/-- The states with an evolved table, and these memoised results. -/
structure TableInv (T : StatusTable P E) (rank : P → ℕ) (A : P → Prop) [DecidablePred A]
    (M : P → Option (Consolidated P E)) (V : P → Bool) (st : State P E) : Prop where
  evolves : Evolves T rank A st.table
  memo : st.memo = M
  visited : st.visited = V

variable {M : P → Option (Consolidated P E)} {V : P → Bool}

theorem nodup_entriesOf (hN : NodupEmitters T) {p : P} {l : List (Entry P E)} (h : entriesOf T p = some l) :
    (l.map fun x => x.1.emitter).Nodup := by
  unfold entriesOf at h
  cases ht : T p with
  | some l' =>
    simp only [ht] at h
    obtain rfl := Option.some.inj h
    exact hN p l' ht
  | none =>
    simp only [ht] at h
    split at h
    · obtain rfl := Option.some.inj h
      unfold kernelEntries
      split <;> simp
    · cases h

theorem entriesOf_of_some {p : P} {l : List (Entry P E)} (h : T p = some l) : entriesOf T p = some l := by
  simp [entriesOf,h]

theorem entriesOf_update {T' : StatusTable P E} {p q : P} {o : Option (List (Entry P E))} (h : q ≠ p) :
    entriesOf (Function.update T' p o) q = entriesOf T' q := by
  simp [entriesOf,h]

theorem Evolves.update {T' : StatusTable P E} (h : Evolves T rank A T') {p : P} {l l' : List (Entry P E)}
    (hl : T' p = some l)
    (hp : ∀ l₀, List.Forall₂ (EntryEvolves T rank A p) l₀ l → entriesOf T p = some l₀ →
      List.Forall₂ (EntryEvolves T rank A p) l₀ l') :
    Evolves T rank A (Function.update T' p (some l')) := by
  constructor
  · intro q l₀ hq
    obtain ⟨lq,hlq,hf⟩ := h.entries q l₀ hq
    by_cases hqp : q = p
    · subst hqp
      rw [entriesOf_of_some hl] at hlq
      obtain rfl := Option.some.inj hlq
      exact ⟨l',entriesOf_of_some (by simp),hp l₀ hf hq⟩
    · exact ⟨lq,by rw [entriesOf_update hqp]; exact hlq,hf⟩
  · intro q hq
    by_cases hqp : q = p
    · simp [hqp]
    · simpa [hqp] using h.bound q hq
  · intro q hq
    by_cases hqp : q = p
    · subst hqp
      rw [h.unbound q hq] at hl
      cases hl
    · simpa [hqp] using h.unbound q hq

theorem forall₂_map_right {α β : Type} {R S : α → β → Prop} {g : β → β} {l₀ : List α} {l : List β}
    (hf : List.Forall₂ R l₀ l) (h : ∀ a b, a ∈ l₀ → R a b → S a (g b)) : List.Forall₂ S l₀ (l.map g) := by
  induction hf with
  | nil => exact List.Forall₂.nil
  | cons hr _ ih =>
    apply List.Forall₂.cons (h _ _ List.mem_cons_self hr)
    exact ih fun a b ha => h a b (List.mem_cons_of_mem _ ha)

theorem TableInv.replaceStatus (hN : NodupEmitters T) {st : State P E} (h : TableInv T rank A M V st) {p : P}
    {l₀ : List (Entry P E)} (he : entriesOf T p = some l₀) {x₀ : Entry P E} (hx : x₀ ∈ l₀) {s : Emitted}
    (hs : statusOfEntry (localOf T rank) x₀ = some (s,true)) (hd : s ≠ .dontKnow) :
    TableInv T rank A M V (replaceStatus p (current T rank A p x₀.1) s st) := by
  refine ⟨?_,h.memo,h.visited⟩
  simp only [PropertyStatus.replaceStatus]
  cases hl : st.table p with
  | none =>
    rw [Option.map_none,← hl,Function.update_eq_self]
    exact h.evolves
  | some l =>
    apply h.evolves.update hl
    intro l₀' hf he'
    rw [he] at he'
    obtain rfl := Option.some.inj he'
    apply forall₂_map_right hf
    intro y₀ y hy₀ hy
    by_cases hem : y.1.emitter = (current T rank A p x₀.1).emitter
    · -- the emitters of the property are distinct
      have hyx : y₀ = x₀ := by
        rw [hy.emission,current_emitter,current_emitter] at hem
        exact List.inj_on_of_nodup_map (nodup_entriesOf hN he) hy₀ hx hem
      rw [if_pos hem,hyx]
      exact ⟨rfl,Or.inr ⟨hs,hd⟩⟩
    · rw [if_neg hem]
      exact hy

theorem TableInv.setEntries {st : State P E} (h : TableInv T rank A M V st) {p : P} (hn : st.table p = none)
    (ha : isAutoRegistered p = true) : TableInv T rank A M V (setEntries p (kernelEntries p) st) := by
  refine ⟨?_,h.memo,h.visited⟩
  have hview : ∀ q, entriesOf (Function.update st.table p (some (kernelEntries p))) q = entriesOf st.table q := by
    intro q
    by_cases hq : q = p
    · subst hq
      simp [entriesOf,hn,ha]
    · exact entriesOf_update hq
  constructor
  · intro q l₀ hq
    obtain ⟨l,hl,hf⟩ := h.evolves.entries q l₀ hq
    exact ⟨l,(hview q).trans hl,hf⟩
  · intro q hq
    by_cases hqp : q = p
    · simp [PropertyStatus.setEntries,hqp]
    · simpa [PropertyStatus.setEntries,hqp] using h.evolves.bound q hq
  · intro q hq
    by_cases hqp : q = p
    · subst hqp
      unfold entriesOf at hq
      cases hT : T q with
      | none => simp [hT,ha] at hq
      | some l => simp [hT] at hq
    · simpa [PropertyStatus.setEntries,hqp] using h.evolves.unbound q hq

/-- The result of `get_status`: the local status, with the current emitters. -/
def currentLocal (T : StatusTable P E) (rank : P → ℕ) (A : P → Prop) [DecidablePred A] (p : P)
    (s s' : Local P E) : Prop := s' = s.mapEmissions (current T rank A p)

theorem emitterStatus_simulates (hN : NodupEmitters T) {p : P} {l₀ : List (Entry P E)}
    (he : entriesOf T p = some l₀) {x₀ x : Entry P E} (hx : x₀ ∈ l₀) (hev : EntryEvolves T rank A p x₀ x)
    {get : P → Run P E (Local P E)}
    (hget : ∀ q ∈ x₀.1.properties, Simulates (TableInv T rank A M V) (TableInv T rank A M V)
      (currentLocal T rank A q) (localOf T rank q) (get q)) :
    Simulates (TableInv T rank A M V) (TableInv T rank A M V) Eq (statusOfEntry (localOf T rank) x₀)
      (emitterStatus get p x) := by
  have hlog : x.1.logicalConsequence = x₀.1.logicalConsequence := by rw [hev.emission,current_logicalConsequence]
  have hhyps : consequenceHyps x.1 = consequenceHyps x₀.1 := by rw [hev.emission,current_consequenceHyps]
  have hget' : ∀ q ∈ consequenceHyps x₀.1, Simulates (TableInv T rank A M V) (TableInv T rank A M V)
      (currentLocal T rank A q) (localOf T rank q) (get q) :=
    fun q hq => hget q (mem_of_mem_consequenceHyps hq)
  unfold emitterStatus
  obtain hst | ⟨hst,hd⟩ := hev.status
  · by_cases hc : (x₀.1.logicalConsequence && decide (x₀.2 = .dontKnow)) = true
    · rw [hlog,hst,if_pos hc,hhyps]
      -- the conjunction of the statuses of the hypotheses
      have hfold : Simulates (TableInv T rank A M V) (TableInv T rank A M V) Eq
          ((consequenceHyps x₀.1).foldlM (fun s p => (localOf T rank p).bind fun status =>
            some (conjunction s (localStatus p status))) Emitted.true)
          ((consequenceHyps x₀.1).foldlM (fun s p => get p >>= fun status =>
            pure (conjunction s (localStatus p status))) Emitted.true) := by
        apply Simulates.foldlM (List.forall₂_same.mpr fun q _ => rfl) _ rfl
        rintro a b q _ hq rfl rfl
        apply Simulates.bind (hget' q hq)
        intro s s' _ hs
        refine Simulates.pure ?_ fun _ h => h
        rw [hs,localStatus_mapEmissions]
      have hany : Simulates (TableInv T rank A M V) (TableInv T rank A M V) Eq
          ((consequenceHyps x₀.1).anyM fun p => (localOf T rank p).bind fun status => some (isTried status))
          ((consequenceHyps x₀.1).anyM fun p => get p >>= fun status => pure (isTried status)) := by
        apply Simulates.anyM
        intro q hq
        apply Simulates.bind (hget' q hq)
        intro s s' _ hs
        refine Simulates.pure ?_ fun _ h => h
        rw [hs,isTried_mapEmissions]
      have hentry : statusOfEntry (localOf T rank) x₀ = ((consequenceHyps x₀.1).foldlM
          (fun s p => (localOf T rank p).bind fun status => some (conjunction s (localStatus p status)))
            Emitted.true).bind fun newS =>
          if newS = .dontKnow then
            ((consequenceHyps x₀.1).anyM fun p => (localOf T rank p).bind fun status =>
              some (isTried status)).bind fun tried => some (newS,tried)
          else some (newS,true) := by
        unfold statusOfEntry
        rw [if_pos hc]
      rw [hentry]
      apply Simulates.bind hfold
      rintro s s' hs rfl
      by_cases hd : s = .dontKnow
      · rw [if_pos hd,if_pos hd]
        apply Simulates.bind hany
        rintro a b _ rfl
        exact Simulates.pure rfl fun _ h => h
      · rw [if_neg hd,if_neg hd]
        have hres : statusOfEntry (localOf T rank) x₀ = some (s,true) := by
          rw [hentry,hs,Option.bind_some,if_neg hd]
        rw [hev.emission]
        exact Simulates.update (fun st h => h.replaceStatus hN he hx hres hd) (Simulates.pure rfl fun _ h => h)
    · rw [hlog,hst,if_neg hc]
      unfold statusOfEntry
      rw [if_neg hc]
      exact Simulates.pure rfl fun _ h => h
  · rw [hst,if_neg (by simp [hd])]
    exact Simulates.pure rfl fun _ h => h

theorem foldlM_addStatus_simulates (hN : NodupEmitters T) {p : P} {l₀ l : List (Entry P E)}
    (he : entriesOf T p = some l₀) (hev : List.Forall₂ (EntryEvolves T rank A p) l₀ l)
    {get : P → Run P E (Local P E)}
    (hget : ∀ x ∈ l₀, ∀ q ∈ x.1.properties, Simulates (TableInv T rank A M V) (TableInv T rank A M V)
      (currentLocal T rank A q) (localOf T rank q) (get q)) :
    Simulates (TableInv T rank A M V) (TableInv T rank A M V) (currentLocal T rank A p)
      (l₀.foldlM (addStatusOf (localOf T rank)) .neverTried) (l.foldlM (addStatus get p) .neverTried) := by
  refine Simulates.foldlM hev ?_ (show currentLocal T rank A p .neverTried .neverTried from rfl)
  intro acc acc' x₀ x hx hxev hacc
  unfold addStatusOf addStatus
  apply Simulates.bind (emitterStatus_simulates hN he hx hxev (hget x₀ hx))
  rintro ⟨s,tried⟩ _ _ rfl
  cases tried with
  | false => exact Simulates.pure hacc fun _ h => h
  | true =>
    simp only [if_true]
    have hst : strengthen x.1 s acc' = (strengthen x₀.1 s acc).map (Local.mapEmissions (current T rank A p)) := by
      rw [hxev.emission,hacc]
      exact strengthen_mapEmissions _ _ _ _
    rw [hst]
    intro st hi
    cases strengthen x₀.1 s acc with
    | none => rfl
    | some r => exact ⟨_,st,rfl,rfl,hi⟩

theorem Evolves.table_none {T' : StatusTable P E} (h : Evolves T rank A T') {p : P} (hn : T' p = none) :
    T p = none := by
  cases ht : T p with
  | none => rfl
  | some l =>
    have hb := h.bound p (by simp [ht])
    simp [hn] at hb

theorem boundEntries_simulates (hN : NodupEmitters T) (hT : Ranked T rank) {p : P} {get : P → Run P E (Local P E)}
    (hget : ∀ l₀, entriesOf T p = some l₀ → ∀ x ∈ l₀, ∀ q ∈ x.1.properties,
      Simulates (TableInv T rank A M V) (TableInv T rank A M V) (currentLocal T rank A q) (localOf T rank q) (get q))
    {st : State P E} (hst : TableInv T rank A M V st) {l : List (Entry P E)} (hl : st.table p = some l) :
    Simulates (fun s => s = st) (TableInv T rank A M V) (currentLocal T rank A p) (localOf T rank p)
      (l.foldlM (addStatus get p) .neverTried) := by
  rw [localOf_eq hT]
  cases he : entriesOf T p with
  | none =>
    have := hst.evolves.unbound p he
    rw [hl] at this
    cases this
  | some l₀ =>
    obtain ⟨l',hl',hev⟩ := hst.evolves.entries p l₀ he
    rw [entriesOf_of_some hl] at hl'
    obtain rfl := Option.some.inj hl'
    apply (foldlM_addStatus_simulates hN he hev (hget l₀ he)).weaken _ (fun _ _ _ h => h) fun _ h => h
    rintro _ rfl
    exact hst

theorem localOf_unregistered (hT : Ranked T rank) {p : P} (hn : T p = none) :
    localOf T rank p = if isAutoRegistered p then
      (kernelEntries p).foldlM (addStatusOf (localOf T rank)) .neverTried else none := by
  rw [localOf_eq hT]
  by_cases ha : isAutoRegistered p = true
  · simp [entriesOf,hn,ha]
  · simp [entriesOf,hn,ha]

theorem getStatus_simulates (hN : NodupEmitters T) (hT : Ranked T rank) :
    ∀ n p, rank p < n → Simulates (TableInv T rank A M V) (TableInv T rank A M V) (currentLocal T rank A p)
      (localOf T rank p) (getStatus n true p) := by
  intro n
  induction n with
  | zero => intro p hp; exact absurd hp (Nat.not_lt_zero _)
  | succ n ih =>
    intro p hp
    have hget : ∀ l₀, entriesOf T p = some l₀ → ∀ x ∈ l₀, ∀ q ∈ x.1.properties,
        Simulates (TableInv T rank A M V) (TableInv T rank A M V) (currentLocal T rank A q) (localOf T rank q)
          (getStatus n true q) := by
      intro l₀ he x hx q hq
      have := hT p l₀ he x hx q hq
      exact ih q (by omega)
    unfold getStatus
    apply Simulates.read
    intro st hst
    cases hl : st.table p with
    | some l =>
      exact boundEntries_simulates hN hT hget hst hl
    | none =>
      have hTn := hst.evolves.table_none hl
      by_cases ha : isAutoRegistered p = true
      · have he : entriesOf T p = some (kernelEntries p) := by simp [entriesOf,hTn,ha]
        simp only [ha,if_true]
        apply Simulates.update (J := TableInv T rank A M V)
        · rintro _ rfl
          exact hst.setEntries hl ha
        · rw [localOf_unregistered hT hTn,if_pos ha]
          by_cases hr : isAlwaysReachable p = true
          · rw [if_pos hr]
            exact foldlM_addStatus_simulates hN he (EntryEvolves.refl_kernelEntries p) (hget _ he)
          · rw [if_neg hr]
            have hk : (kernelEntries p : List (Entry P E)) = [] := by simp [kernelEntries,hr]
            rw [hk]
            exact Simulates.pure rfl fun _ h => h
      · rw [localOf_unregistered hT hTn,if_neg ha]
        simp only [ha]
        exact Simulates.none _ fun _ _ => rfl

def unregisteredLocal (T : StatusTable P E) (rank : P → ℕ) (A : P → Prop) [DecidablePred A] (p : P)
    (s s' : Local P E) : Prop :=
  currentLocal T rank A p s s' ∨ s' = .neverTried ∧ (s = .neverTried ∨ ∃ l, s = .best .true l)

theorem getStatus_false_simulates (hN : NodupEmitters T) (hT : Ranked T rank) {n : ℕ} {p : P} (hp : rank p < n) :
    Simulates (TableInv T rank A M V) (TableInv T rank A M V) (unregisteredLocal T rank A p) (localOf T rank p)
      (getStatus n false p) := by
  obtain ⟨n,rfl⟩ : ∃ m, n = m + 1 := ⟨n - 1,by omega⟩
  unfold getStatus
  apply Simulates.read
  intro st hst
  cases hl : st.table p with
  | some l =>
    have hget : ∀ l₀, entriesOf T p = some l₀ → ∀ x ∈ l₀, ∀ q ∈ x.1.properties,
        Simulates (TableInv T rank A M V) (TableInv T rank A M V) (currentLocal T rank A q) (localOf T rank q)
          (getStatus n true q) := by
      intro l₀ he x hx q hq
      have := hT p l₀ he x hx q hq
      exact getStatus_simulates hN hT n q (by omega)
    exact (boundEntries_simulates hN hT hget hst hl).weaken (fun _ h => h) (fun _ _ _ h => Or.inl h) fun _ h => h
  | none =>
    rw [localOf_unregistered hT (hst.evolves.table_none hl)]
    by_cases ha : isAutoRegistered p = true
    · simp only [ha,if_true,Bool.false_eq_true,if_false]
      by_cases hr : isAlwaysReachable p = true
      · have hk : (kernelEntries p).foldlM (addStatusOf (localOf T rank)) Local.neverTried =
            some (.best .true [⟨kernel,[],true⟩]) := by
          simp [kernelEntries,hr,addStatusOf,statusOfEntry,strengthen]
        rw [hk]
        exact Simulates.pure (Or.inr ⟨rfl,Or.inr ⟨_,rfl⟩⟩) fun _ h => h ▸ hst
      · have hk : (kernelEntries p : List (Entry P E)) = [] := by simp [kernelEntries,hr]
        rw [hk]
        exact Simulates.pure (Or.inr ⟨rfl,Or.inl rfl⟩) fun _ h => h ▸ hst
    · rw [if_neg ha]
      simp only [ha]
      exact Simulates.none _ fun _ _ => rfl

end

section
variable (f : P → Option (Consolidated P E))

def hypsOf (l : List P) : Option (Consolidated P E × Issues P E) :=
  l.foldlM (fun acc h => (f h).bind fun s => hypothesesConjunction acc.2 h acc.1 (reduceHypothesisStatus h s))
    (.neverTried,[])

def chooseOf (current : Consolidated P E) (e : Emission P E) : Option (Consolidated P E) :=
  (hypsOf f e.properties).bind fun r =>
    (hypsStatus r.1).bind fun hyps => chooseBestEmitter e.emitter r.2 current hyps

def emittersOf (l : List (Emission P E)) : Option (Consolidated P E) :=
  (l.foldlM (chooseOf f) .neverTried).bind fun status => some (emittersStatus status)

/-- The status of a property, from its local status and those of its hypotheses. -/
def mergeOf (ppt : P) (status : Local P E) : Option (Consolidated P E) :=
  if isNotVerifiableButValid ppt status then some .consideredValid
  else if isTried status then
    (emittersOf f (bestEmitters status)).bind fun hyps => mergeHypothesesAndLocalStatus ppt hyps status
  else some .neverTried

end

/-- Reachability is proved to be valid or invalid, not to depend on itself. -/
def reachableOf (status : Local P E) : Option Unit :=
  match status with
  | .best .falseIfReachable _ => none
  | _ => some ()

def checkReachable (T : StatusTable P E) (rank : P → ℕ) (ppt : P) : Option Unit :=
  if isReachable ppt then some () else (localOf T rank (ipReachablePpt ppt)).bind reachableOf

def consolidatedAux (T : StatusTable P E) (rank : P → ℕ) : ℕ → P → Option (Consolidated P E)
  | 0,_ => none
  | n + 1,ppt => (checkReachable T rank ppt).bind fun _ => (localOf T rank ppt).bind fun status =>
    mergeOf (consolidatedAux T rank n) ppt (status.mapEmissions (augment T rank ppt))

def consolidatedOf (T : StatusTable P E) (rank : P → ℕ) (p : P) : Option (Consolidated P E) :=
  consolidatedAux T rank (rank p + 1) p

/-- Acyclic dependencies: the hypotheses of a property are below it, and so is its reachability when
consolidation makes it an hypothesis. -/
structure Acyclic (T : StatusTable P E) (rank : P → ℕ) : Prop where
  ranked : Ranked T rank
  reach : ∀ p, (T p).isSome = true → isReachable p = false →
    isUnreachable (localOf T rank (ipReachablePpt p)) = true → rank (ipReachablePpt p) < rank p

theorem hypsOf_congr {f g : P → Option (Consolidated P E)} {l : List P} (h : ∀ p ∈ l, f p = g p) :
    hypsOf f l = hypsOf g l := by
  apply foldlM_congr
  intro acc p hp
  rw [h p hp]

theorem emittersOf_congr {f g : P → Option (Consolidated P E)} {l : List (Emission P E)}
    (h : ∀ e ∈ l, ∀ p ∈ e.properties, f p = g p) : emittersOf f l = emittersOf g l := by
  have hl : l.foldlM (chooseOf f) .neverTried = l.foldlM (chooseOf g) .neverTried := by
    apply foldlM_congr
    intro acc e he
    unfold chooseOf
    rw [hypsOf_congr (h e he)]
  unfold emittersOf
  rw [hl]

theorem mergeOf_congr {f g : P → Option (Consolidated P E)} {p : P} {status : Local P E}
    (h : ∀ e ∈ bestEmitters status, ∀ p ∈ e.properties, f p = g p) : mergeOf f p status = mergeOf g p status := by
  unfold mergeOf
  rw [emittersOf_congr h]

theorem strengthen_bestEmitters {e : Emission P E} {s : Emitted} {acc r : Local P E} (h : strengthen e s acc = some r) :
    ∀ x ∈ bestEmitters r, x = e ∨ x ∈ bestEmitters acc := by
  intro x hx
  cases acc with
  | neverTried =>
    obtain rfl := Option.some.inj h
    exact Or.inl (List.mem_singleton.mp hx)
  | best s₀ l =>
    cases s₀ <;> cases s <;> simp [strengthen,checkStrongestEmitted] at h <;> subst h <;>
      simp [bestEmitters] at hx ⊢ <;> tauto
  | inconsistent valid invalid =>
    cases s <;> simp [strengthen] at h <;> subst h <;> simp [bestEmitters] at hx ⊢ <;> tauto

section
variable {T : StatusTable P E} {rank : P → ℕ}

theorem foldlM_bestEmitters {f : P → Option (Local P E)} {l : List (Entry P E)} {acc r : Local P E}
    (h : l.foldlM (addStatusOf f) acc = some r) :
    ∀ e ∈ bestEmitters r, e ∈ l.map Prod.fst ∨ e ∈ bestEmitters acc := by
  induction l generalizing acc with
  | nil =>
    obtain rfl := Option.some.inj h
    exact fun e he => Or.inr he
  | cons x l ih =>
    rw [List.foldlM_cons] at h
    obtain ⟨acc',ha,h⟩ := Option.bind_eq_some_iff.mp h
    intro e he
    obtain hl | hacc := ih h e he
    · exact Or.inl (List.mem_cons_of_mem _ hl)
    · obtain ⟨⟨s,tried⟩,-,ha⟩ := Option.bind_eq_some_iff.mp ha
      cases tried with
      | true =>
        obtain rfl | hb := strengthen_bestEmitters ha e hacc
        · exact Or.inl List.mem_cons_self
        · exact Or.inr hb
      | false =>
        obtain rfl := Option.some.inj ha
        exact Or.inr hacc

theorem localOf_bestEmitters (hT : Ranked T rank) {p : P} {status : Local P E} (h : localOf T rank p = some status) :
    ∃ l, entriesOf T p = some l ∧ ∀ e ∈ bestEmitters status, ∃ x ∈ l, x.1 = e := by
  rw [localOf_eq hT] at h
  obtain ⟨l,hl,h⟩ := Option.bind_eq_some_iff.mp h
  refine ⟨l,hl,?_⟩
  intro e he
  obtain hm | hn := foldlM_bestEmitters h e he
  · exact List.mem_map.mp hm
  · cases hn

theorem bestEmitters_mapEmissions (f : Emission P E → Emission P E) (s : Local P E) :
    bestEmitters (s.mapEmissions f) = (bestEmitters s).map f := by
  cases s <;> simp [bestEmitters,Local.mapEmissions]

theorem Acyclic.below (hT : Acyclic T rank) {p : P} {status : Local P E} (h : localOf T rank p = some status) :
    ∀ e ∈ bestEmitters (status.mapEmissions (augment T rank p)), ∀ q ∈ e.properties, rank q < rank p := by
  rw [bestEmitters_mapEmissions]
  intro e' he' q hq
  obtain ⟨e,he,rfl⟩ := List.mem_map.mp he'
  obtain ⟨l,hl,hmem⟩ := localOf_bestEmitters hT.ranked h
  obtain ⟨x,hx,rfl⟩ := hmem e he
  have hold : ∀ q ∈ x.1.properties, rank q < rank p := hT.ranked p l hl x hx
  unfold augment at hq
  split at hq
  · rename_i hc
    rcases List.mem_cons.mp hq with rfl | hq
    · cases hTp : T p with
      | some l' => exact hT.reach p (by simp [hTp]) hc.1 hc.2.1
      | none =>
        -- an unregistered property has no emitter, unless it is a reachability
        have hr : isAlwaysReachable p = false := by
          apply Bool.eq_false_iff.mpr
          intro hr
          rw [isReachable_of_isAlwaysReachable hr] at hc
          exact absurd hc.1 (by decide)
        unfold entriesOf at hl
        simp only [hTp] at hl
        split at hl
        · obtain rfl := Option.some.inj hl
          simp [kernelEntries,hr] at hx
        · cases hl
    · exact hold q hq
  · exact hold q hq

theorem consolidatedAux_fuel (hT : Acyclic T rank) :
    ∀ n m p, rank p < n → rank p < m → consolidatedAux T rank n p = consolidatedAux T rank m p := by
  intro n
  induction n with
  | zero => intro m p hn; exact absurd hn (Nat.not_lt_zero _)
  | succ n ih =>
    intro m p hn hm
    obtain ⟨m,rfl⟩ : ∃ m', m = m' + 1 := ⟨m - 1,by omega⟩
    simp only [consolidatedAux]
    apply congrArg
    funext _
    cases hs : localOf T rank p with
    | none => rfl
    | some status =>
      simp only [Option.bind_some]
      apply mergeOf_congr
      intro e he q hq
      have hlt := hT.below hs e he q hq
      exact ih m q (by omega) (by omega)

theorem consolidatedOf_eq (hT : Acyclic T rank) (p : P) :
    consolidatedOf T rank p = (checkReachable T rank p).bind fun _ => (localOf T rank p).bind fun status =>
      mergeOf (consolidatedOf T rank) p (status.mapEmissions (augment T rank p)) := by
  change ((checkReachable T rank p).bind fun _ => (localOf T rank p).bind fun status =>
    mergeOf (consolidatedAux T rank (rank p)) p (status.mapEmissions (augment T rank p))) = _
  apply congrArg
  funext _
  cases hs : localOf T rank p with
  | none => rfl
  | some status =>
    simp only [Option.bind_some]
    apply mergeOf_congr
    intro e he q hq
    exact consolidatedAux_fuel hT _ _ q (hT.below hs e he q hq) (Nat.lt_succ_self _)

end

end FramaC.PropertyStatus
