import FramaC.PropertyStatus.Verdict

/-! # The order of the emitters

Emitters and hypotheses are enumerated in the order of hash tables. The constructor that
consolidation returns depends on that order when an emitter with good hypotheses, one with bad
hypotheses and a third one give the same local status; otherwise it does not.
-/
set_option linter.unusedSectionVars false

namespace FramaC.PropertyStatus
open Properties Emitters ProgramProperties Simulation
variable {P E : Type} [DecidableEq P] [ProgramProperties P] [DecidableEq E] [Emitters E]

def Settled (hs : List Hyps) : Prop := ∀ l₁ x l₂, hs = l₁ ++ x :: l₂ → ¬(Hyps.good ∈ l₁ ∧ Hyps.bad ∈ l₁)

theorem foldl_join_conflict {hs : List Hyps} {k : Choice} :
    hs.foldl Choice.join k = .conflict ↔
      k = .conflict ∨ (k = .good ∨ Hyps.good ∈ hs) ∧ (k = .bad ∨ Hyps.bad ∈ hs) := by
  induction hs generalizing k with
  | nil => cases k <;> simp
  | cons x hs ih =>
    rw [List.foldl_cons,ih]
    cases k <;> cases x <;> simp [Choice.join]

theorem foldlM_append_singleton {hs : List Hyps} {x : Hyps} {k : Choice} :
    (hs ++ [x]).foldlM Choice.add k = (hs.foldlM Choice.add k).bind fun k' => k'.add x := by
  rw [List.foldlM_append]
  cases hs.foldlM Choice.add k with
  | none => rfl
  | some k' =>
    change ([x].foldlM Choice.add k') = k'.add x
    rw [List.foldlM_cons]
    cases k'.add x <;> rfl

theorem settled_append_singleton {hs : List Hyps} {x : Hyps} :
    Settled (hs ++ [x]) ↔ Settled hs ∧ ¬(Hyps.good ∈ hs ∧ Hyps.bad ∈ hs) := by
  constructor
  · intro h
    refine ⟨?_,h hs x [] rfl⟩
    intro l₁ y l₂ hl
    exact h l₁ y (l₂ ++ [x]) (by simp [hl])
  · intro ⟨h,hn⟩ l₁ y l₂ hl
    rcases List.eq_nil_or_concat l₂ with rfl | ⟨l₂',z,rfl⟩
    · obtain ⟨rfl,-⟩ := List.append_inj' hl rfl
      exact hn
    · have hl' : hs ++ [x] = (l₁ ++ y :: l₂') ++ [z] := by simpa using hl
      obtain ⟨rfl,-⟩ := List.append_inj' hl' rfl
      exact h l₁ y l₂' rfl

theorem settled_iff {hs : List Hyps} : Settled hs ↔ (hs.foldlM Choice.add .none).isSome = true := by
  induction hs using List.reverseRecOn with
  | nil => simp [Settled]
  | append_singleton hs x ih =>
    rw [settled_append_singleton,foldlM_append_singleton,ih]
    cases hk : hs.foldlM Choice.add .none with
    | none => simp
    | some k =>
      have hkj := foldlM_choice hk
      have hc : hs.foldl Choice.join .none = .conflict ↔ _ := foldl_join_conflict
      rw [← hkj] at hc
      simp only [reduceCtorEq,false_or] at hc
      rw [← hc,Option.isSome_some,Option.bind_some]
      cases k <;> cases x <;> simp [Choice.add]

/-- The hypotheses are registered, or are registered on their first use. -/
def Closed (T : StatusTable P E) : Prop :=
  ∀ p l, entriesOf T p = some l → ∀ x ∈ l, ∀ h ∈ x.1.properties, (entriesOf T h).isSome = true

omit [DecidableEq P] [ProgramProperties P] [DecidableEq E] [Emitters E] in
theorem strengthen_total (e : Emission P E) (s : Emitted) (acc : Local P E) : ∃ r, strengthen e s acc = some r := by
  cases acc with
  | neverTried => exact ⟨_,rfl⟩
  | best s₀ l => cases s₀ <;> cases s <;> exact ⟨_,rfl⟩
  | inconsistent valid invalid => cases s <;> exact ⟨_,rfl⟩

/-- The status of an entry, from the local statuses of the hypotheses. -/
def resolveWith (g : P → Local P E) (x : Entry P E) : Emitted × Bool :=
  if x.1.logicalConsequence && decide (x.2 = .dontKnow) then
    if (consequenceHyps x.1).foldl (fun s p => conjunction s (localStatus p (g p))) .true = .dontKnow then
      (.dontKnow,(consequenceHyps x.1).any fun p => isTried (g p))
    else ((consequenceHyps x.1).foldl (fun s p => conjunction s (localStatus p (g p))) .true,true)
  else (x.2,true)

theorem statusOfEntry_total {f : P → Option (Local P E)} {g : P → Local P E} {x : Entry P E}
    (h : ∀ p ∈ x.1.properties, f p = some (g p)) : statusOfEntry f x = some (resolveWith g x) := by
  have hc : statusOfEntry f x = statusOfEntry (fun p => some (g p)) x :=
    statusOfEntry_congr fun p hp => h p (mem_of_mem_consequenceHyps hp)
  have hfold : ∀ (l : List P) (s : Emitted), l.foldlM (fun s p => (some (g p)).bind fun status =>
      some (conjunction s (localStatus p status))) s =
      some (l.foldl (fun s p => conjunction s (localStatus p (g p))) s) := by
    intro l
    induction l with
    | nil => exact fun _ => rfl
    | cons p l ih =>
      intro s
      rw [List.foldlM_cons]
      exact ih _
  have hany : ∀ l : List P, l.anyM (fun p => (some (g p)).bind fun status => some (isTried status)) =
      some (l.any fun p => isTried (g p)) := by
    intro l
    induction l with
    | nil => rfl
    | cons p l ih =>
      unfold List.anyM
      rw [List.any_cons]
      cases ht : isTried (g p) with
      | true => simp [ht]
      | false =>
        simp only [Option.bind_some,ht,Bool.false_or]
        exact ih
  rw [hc]
  unfold statusOfEntry resolveWith
  rw [hfold,hany]
  split
  · simp only [Option.bind_some]
    split
    · rename_i hd
      rw [hd]
    · rfl
  · rfl

def localIn (T : StatusTable P E) (rank : P → ℕ) (p : P) : Local P E := (localOf T rank p).getD .neverTried

def resolve (T : StatusTable P E) (rank : P → ℕ) : Entry P E → Emitted × Bool := resolveWith (localIn T rank)

def triedIn (T : StatusTable P E) (rank : P → ℕ) (l : List (Entry P E)) : List (Emission P E × Emitted) :=
  l.filterMap fun x => if (resolve T rank x).2 then some (x.1,(resolve T rank x).1) else none

def triedOf (T : StatusTable P E) (rank : P → ℕ) (p : P) : List (Emission P E × Emitted) :=
  triedIn T rank ((entriesOf T p).getD [])

def strengthenBy (acc : Local P E) (x : Emission P E × Emitted) : Local P E := (strengthen x.1 x.2 acc).getD acc

def localFrom (l : List (Emission P E × Emitted)) : Local P E := l.foldl strengthenBy .neverTried

omit [DecidableEq P] [ProgramProperties P] [DecidableEq E] [Emitters E] in
theorem strengthen_eq (e : Emission P E) (s : Emitted) (acc : Local P E) :
    strengthen e s acc = some (strengthenBy acc (e,s)) := by
  obtain ⟨r,hr⟩ := strengthen_total e s acc
  simp [strengthenBy,hr]

section
variable {T : StatusTable P E} {rank : P → ℕ}

theorem foldlM_addStatusOf {f : P → Option (Local P E)} {l : List (Entry P E)}
    (h : ∀ x ∈ l, statusOfEntry f x = some (resolve T rank x)) (acc : Local P E) :
    l.foldlM (addStatusOf f) acc = some ((triedIn T rank l).foldl strengthenBy acc) := by
  induction l generalizing acc with
  | nil => rfl
  | cons x l ih =>
    have ih := ih fun y hy => h y (List.mem_cons_of_mem x hy)
    rw [List.foldlM_cons]
    unfold addStatusOf
    rw [h x List.mem_cons_self]
    unfold triedIn
    rw [List.filterMap_cons]
    cases ht : (resolve T rank x).2 with
    | true =>
      simp only [Option.bind_some,ht,if_true,List.foldl_cons]
      rw [strengthen_eq]
      exact ih _
    | false =>
      simp only [Option.bind_some,ht,Bool.false_eq_true,if_false]
      exact ih _

theorem localOf_closed (hT : Ranked T rank) (hC : Closed T) :
    ∀ n p, rank p < n → (entriesOf T p).isSome = true → localOf T rank p = some (localFrom (triedOf T rank p)) := by
  intro n
  induction n with
  | zero => intro p hp; exact absurd hp (Nat.not_lt_zero _)
  | succ n ih =>
    intro p hp hs
    obtain ⟨l,hl⟩ := Option.isSome_iff_exists.mp hs
    rw [localOf_eq hT,hl,Option.bind_some]
    unfold triedOf
    rw [hl,Option.getD_some]
    apply foldlM_addStatusOf
    intro x hx
    apply statusOfEntry_total
    intro q hq
    have hlt := hT p l hl x hx q hq
    have hq' := ih q (by omega) (hC p l hl x hx q hq)
    unfold localIn
    rw [hq']
    rfl

theorem localOf_eq_localFrom (hT : Ranked T rank) (hC : Closed T) {p : P} (hs : (entriesOf T p).isSome = true) :
    localOf T rank p = some (localFrom (triedOf T rank p)) := localOf_closed hT hC _ p (Nat.lt_succ_self _) hs

theorem localIn_eq (hT : Ranked T rank) (hC : Closed T) {p : P} (hs : (entriesOf T p).isSome = true) :
    localIn T rank p = localFrom (triedOf T rank p) := by
  unfold localIn
  rw [localOf_eq_localFrom hT hC hs]
  rfl

theorem isAutoRegistered_of_isReachable {p : P} (h : isReachable p = true) : isAutoRegistered p = true := by
  unfold isReachable at h
  unfold isAutoRegistered
  cases hk : kind p <;> simp [hk] at h ⊢

theorem entriesOf_reach (p : P) : (entriesOf T (ipReachablePpt p)).isSome = true := by
  unfold entriesOf
  have ha := isAutoRegistered_of_isReachable (isReachable_ipReachablePpt p)
  cases T (ipReachablePpt p) with
  | some l => rfl
  | none => simp [ha]

/-- What holds of the emitters that an enumeration collects. -/
structure Collected (l : List (Emission P E × Emitted)) (status : Local P E) : Prop where
  mem : ∀ e ∈ bestEmitters status, e ∈ l.map Prod.fst
  nodup : ((bestEmitters status).map fun e => e.emitter).Nodup
  nonempty : isTried status = true → bestEmitters status ≠ []

theorem Collected.strengthenBy {l : List (Emission P E × Emitted)} {status : Local P E} (h : Collected l status)
    {x : Emission P E × Emitted} (hx : ∀ y ∈ l, y.1.emitter ≠ x.1.emitter) :
    Collected (l ++ [x]) (strengthenBy status x) := by
  have hr := strengthen_eq x.1 x.2 status
  have hnew : ∀ e ∈ bestEmitters status, e.emitter ≠ x.1.emitter := by
    intro e he
    obtain ⟨y,hy,rfl⟩ := List.mem_map.mp (h.mem e he)
    exact hx y hy
  constructor
  · intro e he
    rw [List.map_append,List.mem_append]
    obtain rfl | he := strengthen_bestEmitters hr e he
    · exact Or.inr (List.mem_singleton.mpr rfl)
    · exact Or.inl (h.mem e he)
  · obtain ⟨e,s⟩ := x
    have hn := h.nodup
    cases status with
    | neverTried => simp [PropertyStatus.strengthenBy,strengthen,bestEmitters]
    | best s₀ l₀ =>
      simp only [bestEmitters] at hn hnew
      cases s₀ <;> cases s <;> simp [PropertyStatus.strengthenBy,strengthen,checkStrongestEmitted,bestEmitters] <;>
        grind
    | inconsistent valid invalid =>
      simp only [bestEmitters] at hn hnew
      cases s <;> simp [PropertyStatus.strengthenBy,strengthen,bestEmitters] <;> grind
  · intro _
    obtain ⟨e,s⟩ := x
    have hn := h.nonempty
    cases status with
    | neverTried => simp [PropertyStatus.strengthenBy,strengthen,bestEmitters]
    | best s₀ l₀ =>
      have hn := hn rfl
      cases s₀ <;> cases s <;> simp_all [PropertyStatus.strengthenBy,strengthen,checkStrongestEmitted,bestEmitters]
    | inconsistent valid invalid =>
      have hn := hn rfl
      cases s <;> simp_all [PropertyStatus.strengthenBy,strengthen,bestEmitters]

theorem collected_localFrom {l : List (Emission P E × Emitted)} (h : (l.map fun x => x.1.emitter).Nodup) :
    Collected l (localFrom l) := by
  induction l using List.reverseRecOn with
  | nil => exact ⟨by simp [localFrom,bestEmitters],by simp [localFrom,bestEmitters],by simp [localFrom,isTried]⟩
  | append_singleton l x ih =>
    rw [List.map_append,List.nodup_append] at h
    unfold localFrom
    rw [List.foldl_append]
    apply (ih h.1).strengthenBy
    intro y hy
    exact h.2.2 _ (List.mem_map_of_mem hy) _ (List.mem_singleton.mpr rfl)

end

/-- The local status that an enumeration gives, with the hypotheses that consolidation looks at. -/
def augmentedFrom (T : StatusTable P E) (rank : P → ℕ) (p : P) (l : List (Emission P E × Emitted)) : Local P E :=
  (localFrom l).mapEmissions (augment T rank p)

def verdictAux (T : StatusTable P E) (rank : P → ℕ) : ℕ → P → Verdict
  | 0,_ => .neverTried
  | n + 1,p => verdictOf (verdictAux T rank n) p (augmentedFrom T rank p (triedOf T rank p))

def verdict (T : StatusTable P E) (rank : P → ℕ) (p : P) : Verdict := verdictAux T rank (rank p + 1) p

theorem hypsVerdict_congr {v v' : P → Verdict} {l : List P} (h : ∀ q ∈ l, v q = v' q) : hypsVerdict v l = hypsVerdict v' l := by
  unfold hypsVerdict
  have hfold : ∀ k : Hyps, l.foldl (fun acc q => acc.and (v q).asHyp) k = l.foldl (fun acc q => acc.and (v' q).asHyp) k := by
    induction l with
    | nil => exact fun _ => rfl
    | cons q l ih =>
      intro k
      rw [List.foldl_cons,List.foldl_cons,h q List.mem_cons_self]
      exact ih (fun x hx => h x (List.mem_cons_of_mem q hx)) _
  exact hfold _

theorem verdictOf_mapEmissions {v v' : P → Verdict} {f g : Emission P E → Emission P E} {p : P} {status : Local P E}
    (h : ∀ e ∈ bestEmitters status, hypsVerdict v (f e).properties = hypsVerdict v' (g e).properties) :
    verdictOf v p (status.mapEmissions f) = verdictOf v' p (status.mapEmissions g) := by
  have hc : ∀ l, l ⊆ bestEmitters status → classes v (l.map f) = classes v' (l.map g) := by
    intro l hl
    unfold classes
    rw [List.map_map,List.map_map]
    exact List.map_congr_left fun e he => h e (hl he)
  cases status with
  | neverTried => rfl
  | best s l =>
    simp only [Local.mapEmissions,verdictOf,choiceOf]
    rw [hc l (List.Subset.refl _)]
  | inconsistent valid invalid =>
    have hv := hc valid (List.subset_append_left _ _)
    have hi := hc invalid (List.subset_append_right _ _)
    have hall := hc (valid ++ invalid) (List.Subset.refl _)
    rw [List.map_append,List.map_append] at hall
    simp only [Local.mapEmissions,verdictOf,choiceOf,hall]
    unfold mergeInconsistent hasGood
    rw [hv,hi]

section
variable {T : StatusTable P E} {rank : P → ℕ}

theorem triedOf_below (hT : Acyclic T rank) (hC : Closed T) {p : P} (hs : (entriesOf T p).isSome = true)
    {l : List (Emission P E × Emitted)} (hl : l.Perm (triedOf T rank p)) {e : Emission P E} (he : e ∈ l.map Prod.fst) :
    ∀ q ∈ (augment T rank p e).properties, rank q < rank p ∧ (entriesOf T q).isSome = true := by
  obtain ⟨es,hes⟩ := Option.isSome_iff_exists.mp hs
  obtain ⟨y,hy,rfl⟩ := List.mem_map.mp he
  have hy := hl.mem_iff.mp hy
  unfold triedOf triedIn at hy
  rw [hes,Option.getD_some] at hy
  obtain ⟨x,hx,hxy⟩ := List.mem_filterMap.mp hy
  have hfst : x.1 = y.1 := by
    split at hxy
    · rw [← Option.some.inj hxy]
    · cases hxy
  intro q hq
  have hold : q ∈ y.1.properties → rank q < rank p ∧ (entriesOf T q).isSome = true := by
    intro hq
    rw [← hfst] at hq
    exact ⟨hT.ranked p es hes x hx q hq,hC p es hes x hx q hq⟩
  unfold augment at hq
  split at hq
  · rename_i hc
    rcases List.mem_cons.mp hq with rfl | hq
    · refine ⟨?_,entriesOf_reach p⟩
      cases hTp : T p with
      | some l' => exact hT.reach p (by simp [hTp]) hc.1 hc.2.1
      | none =>
        have hr : isAlwaysReachable p = false := by
          apply Bool.eq_false_iff.mpr
          intro hr
          rw [isReachable_of_isAlwaysReachable hr] at hc
          exact absurd hc.1 (by decide)
        unfold entriesOf at hes
        simp only [hTp] at hes
        split at hes
        · obtain rfl := Option.some.inj hes
          simp [kernelEntries,hr] at hx
        · cases hes
    · exact hold hq
  · exact hold hq

theorem triedIn_sublist (l : List (Entry P E)) :
    ((triedIn T rank l).map fun x => x.1.emitter).Sublist (l.map fun x => x.1.emitter) := by
  induction l with
  | nil => exact List.Sublist.slnil
  | cons x l ih =>
    unfold triedIn at ih ⊢
    rw [List.filterMap_cons,List.map_cons]
    cases ht : (resolve T rank x).2 with
    | true => simpa [ht] using ih
    | false => simpa [ht] using ih.cons _

theorem nodup_triedOf (hN : NodupEmitters T) (p : P) : ((triedOf T rank p).map fun x => x.1.emitter).Nodup := by
  unfold triedOf
  cases hl : entriesOf T p with
  | none => simp [triedIn]
  | some l =>
    rw [Option.getD_some]
    exact (nodup_entriesOf hN hl).sublist (triedIn_sublist l)

theorem collected_perm (hN : NodupEmitters T) {p : P} {l : List (Emission P E × Emitted)}
    (hl : l.Perm (triedOf T rank p)) : Collected l (localFrom l) :=
  collected_localFrom ((hl.map fun x => x.1.emitter).nodup_iff.mpr (nodup_triedOf hN p))

theorem verdictAux_fuel (hN : NodupEmitters T) (hT : Acyclic T rank) (hC : Closed T) :
    ∀ n m p, (entriesOf T p).isSome = true → rank p < n → rank p < m → verdictAux T rank n p = verdictAux T rank m p := by
  intro n
  induction n with
  | zero => intro m p _ hn; exact absurd hn (Nat.not_lt_zero _)
  | succ n ih =>
    intro m p hs hn hm
    obtain ⟨m,rfl⟩ : ∃ m', m = m' + 1 := ⟨m - 1,by omega⟩
    simp only [verdictAux]
    apply verdictOf_mapEmissions
    intro e he
    apply hypsVerdict_congr
    intro q hq
    obtain ⟨hlt,hq'⟩ := triedOf_below hT hC hs (List.Perm.refl _)
      ((collected_perm hN (List.Perm.refl _)).mem e he) q hq
    exact ih m q hq' (by omega) (by omega)

theorem verdict_eq (hN : NodupEmitters T) (hT : Acyclic T rank) (hC : Closed T) {p : P}
    (hs : (entriesOf T p).isSome = true) :
    verdict T rank p = verdictOf (verdict T rank) p (augmentedFrom T rank p (triedOf T rank p)) := by
  change verdictOf (verdictAux T rank (rank p)) p (augmentedFrom T rank p (triedOf T rank p)) = _
  apply verdictOf_mapEmissions
  intro e he
  apply hypsVerdict_congr
  intro q hq
  obtain ⟨hlt,hq'⟩ := triedOf_below hT hC hs (List.Perm.refl _) ((collected_perm hN (List.Perm.refl _)).mem e he) q hq
  exact verdictAux_fuel hN hT hC _ _ q hq' hlt (Nat.lt_succ_self _)

def ReachDecided (T : StatusTable P E) (rank : P → ℕ) (p : P) : Prop :=
  isReachable p = false → ∀ l, localOf T rank (ipReachablePpt p) ≠ some (.best .falseIfReachable l)

theorem checkReachable_iff (hT : Ranked T rank) (hC : Closed T) (p : P) :
    ReachDecided T rank p ↔ checkReachable T rank p = some () := by
  unfold ReachDecided checkReachable
  cases hr : isReachable p with
  | true => simp
  | false =>
    rw [localOf_eq_localFrom hT hC (entriesOf_reach p)]
    simp only [Option.bind_some,Bool.false_eq_true,if_false,true_implies]
    cases localFrom (triedOf T rank (ipReachablePpt p)) with
    | neverTried => simp [reachableOf]
    | inconsistent valid invalid => simp [reachableOf]
    | best s l => cases s <;> simp [reachableOf]

/-- The verdicts on the hypotheses of the emitters that an enumeration collects. -/
def classesFrom (T : StatusTable P E) (rank : P → ℕ) (p : P) (l : List (Emission P E × Emitted)) : List Hyps :=
  classes (verdict T rank) (bestEmitters (augmentedFrom T rank p l))

theorem consolidatedOf_step (hN : NodupEmitters T) (hT : Acyclic T rank) (hC : Closed T) {p : P}
    (hs : (entriesOf T p).isSome = true)
    (hbelow : ∀ q, rank q < rank p → (entriesOf T q).isSome = true →
      ∃ c, consolidatedOf T rank q = some c ∧ c.verdict = verdict T rank q ∧ c.Nonempty)
    (hr : ReachDecided T rank p) :
    (Settled (classesFrom T rank p (triedOf T rank p)) →
      ∃ c, consolidatedOf T rank p = some c ∧ c.verdict = verdict T rank p ∧ c.Nonempty) ∧
    (¬Settled (classesFrom T rank p (triedOf T rank p)) → consolidatedOf T rank p = none) := by
  have hcol := collected_perm hN (List.Perm.refl (triedOf T rank p))
  have heq : consolidatedOf T rank p =
      mergeOf (consolidatedOf T rank) p (augmentedFrom T rank p (triedOf T rank p)) := by
    rw [consolidatedOf_eq hT,(checkReachable_iff hT.ranked hC p).mp hr,localOf_eq_localFrom hT.ranked hC hs]
    rfl
  have hbest : bestEmitters (augmentedFrom T rank p (triedOf T rank p)) =
      (bestEmitters (localFrom (triedOf T rank p))).map (augment T rank p) := bestEmitters_mapEmissions _ _
  have hmerge := mergeOf_verdict (f := consolidatedOf T rank) (v := verdict T rank) p
    (augmentedFrom T rank p (triedOf T rank p)) (by
      intro e' he' q hq
      rw [hbest] at he'
      obtain ⟨e,he,rfl⟩ := List.mem_map.mp he'
      obtain ⟨hlt,hq'⟩ := triedOf_below hT hC hs (List.Perm.refl _) (hcol.mem e he) q hq
      exact hbelow q hlt hq') (by
      rw [hbest,List.map_map]
      have hem : (fun e : Emission P E => e.emitter) ∘ augment T rank p = fun e => e.emitter := by
        funext e
        exact augment_emitter p e
      rw [hem]
      exact hcol.nodup) (by
      intro ht
      rw [hbest]
      unfold augmentedFrom at ht
      rw [isTried_mapEmissions] at ht
      simpa using hcol.nonempty ht)
  have hclasses : classes (verdict T rank) (bestEmitters (augmentedFrom T rank p (triedOf T rank p))) =
      classesFrom T rank p (triedOf T rank p) := rfl
  rw [hclasses] at hmerge
  rw [settled_iff,heq,verdict_eq hN hT hC hs]
  cases hk : (classesFrom T rank p (triedOf T rank p)).foldlM Choice.add .none with
  | none =>
    simp only [hk] at hmerge
    exact ⟨fun h => by simp at h,fun _ => hmerge⟩
  | some k =>
    simp only [hk] at hmerge
    exact ⟨fun _ => hmerge,fun h => absurd rfl h⟩

theorem consolidatedOf_verdict (hN : NodupEmitters T) (hT : Acyclic T rank) (hC : Closed T)
    (hok : ∀ p, (entriesOf T p).isSome = true →
      ReachDecided T rank p ∧ Settled (classesFrom T rank p (triedOf T rank p))) :
    ∀ n p, rank p < n → (entriesOf T p).isSome = true →
      ∃ c, consolidatedOf T rank p = some c ∧ c.verdict = verdict T rank p ∧ c.Nonempty := by
  intro n
  induction n with
  | zero => intro p hp; exact absurd hp (Nat.not_lt_zero _)
  | succ n ih =>
    intro p hp hs
    obtain ⟨hr,hset⟩ := hok p hs
    exact (consolidatedOf_step hN hT hC hs (fun q hq hqs => ih q (by omega) hqs) hr).1 hset

end

/-- The same emitters with the same statuses and hypotheses, enumerated in another order. -/
structure Reordered (T T' : StatusTable P E) (π : P → Emission P E → Emission P E) : Prop where
  emitter : ∀ p e, (π p e).emitter = e.emitter
  consequence : ∀ p e, (π p e).logicalConsequence = e.logicalConsequence
  properties : ∀ p e, (π p e).properties.Perm e.properties
  table : ∀ p, T p = none ∧ T' p = none ∨
    ∃ l l', T p = some l ∧ T' p = some l' ∧ l'.Perm (l.map fun x => (π p x.1,x.2))

inductive LocalKind
  | neverTried
  | best (s : Emitted)
  | inconsistent
  deriving DecidableEq

def Local.kind : Local P E → LocalKind
  | .neverTried => .neverTried
  | .best s _ => .best s
  | .inconsistent _ _ => .inconsistent

def LocalKind.join : LocalKind → Emitted → LocalKind
  | .neverTried,s => .best s
  | .inconsistent,_ => .inconsistent
  | .best s₀,s =>
    match s₀,s with
    | .true,.falseIfReachable => .inconsistent
    | .true,.falseAndReachable => .inconsistent
    | .falseIfReachable,.true => .inconsistent
    | .falseAndReachable,.true => .inconsistent
    | .dontKnow,s => .best s
    | s₀,.dontKnow => .best s₀
    | .falseIfReachable,s => .best s
    | s₀,_ => .best s₀

theorem LocalKind.join_right_comm (k : LocalKind) (a b : Emitted) : (k.join a).join b = (k.join b).join a := by
  cases k with
  | best s => cases s <;> cases a <;> cases b <;> rfl
  | neverTried => cases a <;> cases b <;> rfl
  | inconsistent => rfl

omit [DecidableEq P] [ProgramProperties P] [DecidableEq E] [Emitters E] in
theorem strengthenBy_kind (status : Local P E) (x : Emission P E × Emitted) :
    (strengthenBy status x).kind = status.kind.join x.2 := by
  obtain ⟨e,s⟩ := x
  cases status with
  | neverTried => rfl
  | best s₀ l => cases s₀ <;> cases s <;> rfl
  | inconsistent valid invalid => cases s <;> rfl

omit [DecidableEq P] [ProgramProperties P] [DecidableEq E] [Emitters E] in
theorem localFrom_kind (l : List (Emission P E × Emitted)) :
    (localFrom l).kind = (l.map Prod.snd).foldl LocalKind.join .neverTried := by
  induction l using List.reverseRecOn with
  | nil => rfl
  | append_singleton l x ih =>
    unfold localFrom at ih ⊢
    rw [List.foldl_append,List.map_append,List.foldl_append]
    change (strengthenBy _ x).kind = LocalKind.join _ x.2
    rw [strengthenBy_kind,ih]

theorem localFrom_map (f : Emission P E → Emission P E) (l : List (Emission P E × Emitted)) :
    localFrom (l.map fun x => (f x.1,x.2)) = (localFrom l).mapEmissions f := by
  induction l using List.reverseRecOn with
  | nil => rfl
  | append_singleton l x ih =>
    unfold localFrom at ih ⊢
    rw [List.map_append,List.foldl_append,List.foldl_append,ih]
    change (strengthen (f x.1) x.2 _).getD _ = ((strengthen x.1 x.2 _).getD _).mapEmissions f
    rw [strengthen_mapEmissions,strengthen_eq]
    rfl

theorem localStatus_eq_of_kind {p : P} {s s' : Local P E} (h : s.kind = s'.kind) : localStatus p s = localStatus p s' := by
  cases s <;> cases s' <;> simp [Local.kind] at h <;> first | rfl | (subst h; rfl)

theorem isTried_eq_of_kind {s s' : Local P E} (h : s.kind = s'.kind) : isTried s = isTried s' := by
  cases s <;> cases s' <;> simp [Local.kind] at h <;> rfl

theorem exists_perm_map {α β : Type} {g : α → β} {l : List β} {m : List α} (h : l.Perm (m.map g)) :
    ∃ m' : List α, m'.Perm m ∧ l = m'.map g := by
  generalize hn : m.map g = n at h
  induction h generalizing m with
  | nil => exact ⟨[],by simpa using hn,rfl⟩
  | cons x _ ih =>
    cases m with
    | nil => cases hn
    | cons a m =>
      obtain ⟨rfl,hm⟩ := List.cons.inj hn
      obtain ⟨m',hp,rfl⟩ := ih hm
      exact ⟨a :: m',hp.cons a,rfl⟩
  | swap x y l =>
    cases m with
    | nil => cases hn
    | cons a m =>
      cases m with
      | nil => cases hn
      | cons b m =>
        obtain ⟨rfl,hm⟩ := List.cons.inj hn
        obtain ⟨rfl,rfl⟩ := List.cons.inj hm
        exact ⟨b :: a :: m,List.Perm.swap _ _ _,rfl⟩
  | trans _ _ ih₁ ih₂ =>
    obtain ⟨m₂,hp₂,rfl⟩ := ih₂ hn
    obtain ⟨m₁,hp₁,rfl⟩ := ih₁ rfl
    exact ⟨m₁,hp₁.trans hp₂,rfl⟩

section
variable {T T' : StatusTable P E} {π : P → Emission P E → Emission P E} {rank : P → ℕ}

theorem Reordered.entries (h : Reordered T T' π) (p : P) : entriesOf T p = none ∧ entriesOf T' p = none ∨
    ∃ l l', entriesOf T p = some l ∧ entriesOf T' p = some l' ∧ l'.Perm (l.map fun x => (π p x.1,x.2)) := by
  obtain ⟨hT,hT'⟩ | ⟨l,l',hl,hl',hp⟩ := h.table p
  · by_cases ha : isAutoRegistered p = true
    · refine Or.inr ⟨kernelEntries p,kernelEntries p,by simp [entriesOf,hT,ha],by simp [entriesOf,hT',ha],?_⟩
      unfold kernelEntries
      split
      · have hπ : π p (⟨kernel,[],true⟩ : Emission P E) = ⟨kernel,[],true⟩ := by
          have h₁ := h.emitter p (⟨kernel,[],true⟩ : Emission P E)
          have h₂ := h.consequence p (⟨kernel,[],true⟩ : Emission P E)
          have h₃ := (h.properties p (⟨kernel,[],true⟩ : Emission P E)).eq_nil
          cases hπ : π p (⟨kernel,[],true⟩ : Emission P E)
          simp_all
        simp [hπ]
      · exact List.Perm.refl _
    · exact Or.inl ⟨by simp [entriesOf,hT,ha],by simp [entriesOf,hT',ha]⟩
  · exact Or.inr ⟨l,l',entriesOf_of_some hl,entriesOf_of_some hl',hp⟩

theorem Reordered.isSome (h : Reordered T T' π) (p : P) : (entriesOf T' p).isSome = (entriesOf T p).isSome := by
  obtain ⟨h₁,h₂⟩ | ⟨l,l',h₁,h₂,-⟩ := h.entries p
  · rw [h₁,h₂]
  · rw [h₁,h₂]
    rfl

theorem Reordered.ranked (h : Reordered T T' π) (hT : Ranked T rank) : Ranked T' rank := by
  intro p l' hl' x hx q hq
  obtain ⟨-,h₂⟩ | ⟨l,l'',h₁,h₂,hp⟩ := h.entries p
  · rw [h₂] at hl'
    cases hl'
  · rw [h₂] at hl'
    obtain rfl := Option.some.inj hl'
    obtain ⟨y,hy,rfl⟩ := List.mem_map.mp (hp.mem_iff.mp hx)
    exact hT p l h₁ y hy q ((h.properties p y.1).mem_iff.mp hq)

theorem Reordered.closed (h : Reordered T T' π) (hC : Closed T) : Closed T' := by
  intro p l' hl' x hx q hq
  obtain ⟨-,h₂⟩ | ⟨l,l'',h₁,h₂,hp⟩ := h.entries p
  · rw [h₂] at hl'
    cases hl'
  · rw [h₂] at hl'
    obtain rfl := Option.some.inj hl'
    obtain ⟨y,hy,rfl⟩ := List.mem_map.mp (hp.mem_iff.mp hx)
    rw [h.isSome q]
    exact hC p l h₁ y hy q ((h.properties p y.1).mem_iff.mp hq)

theorem Reordered.nodup (h : Reordered T T' π) (hN : NodupEmitters T) : NodupEmitters T' := by
  intro p l' hl'
  obtain ⟨-,h₂⟩ | ⟨l,l'',h₁,h₂,hp⟩ := h.table p
  · rw [h₂] at hl'
    cases hl'
  · rw [h₂] at hl'
    obtain rfl := Option.some.inj hl'
    have hm := hp.map fun x => x.1.emitter
    rw [List.map_map] at hm
    rw [hm.nodup_iff]
    have he : ((fun x : Entry P E => x.1.emitter) ∘ fun x : Entry P E => (π p x.1,x.2)) = fun x => x.1.emitter := by
      funext x
      exact h.emitter p x.1
    rw [he]
    exact hN p l h₁

theorem conjunction_right_comm (a b c : Emitted) : conjunction (conjunction a b) c = conjunction (conjunction a c) b := by
  cases a <;> cases b <;> cases c <;> rfl

theorem Reordered.resolve (h : Reordered T T' π) {p : P} {x : Entry P E}
    (hk : ∀ q ∈ x.1.properties, (localIn T' rank q).kind = (localIn T rank q).kind) :
    resolve T' rank (π p x.1,x.2) = resolve T rank x := by
  have hperm : (consequenceHyps (π p x.1)).Perm (consequenceHyps x.1) := (h.properties p x.1).filter _
  have hfold : (consequenceHyps (π p x.1)).foldl (fun s q => conjunction s (localStatus q (localIn T' rank q))) .true =
      (consequenceHyps x.1).foldl (fun s q => conjunction s (localStatus q (localIn T rank q))) .true := by
    refine (List.Perm.foldl_eq' hperm (fun x _ y _ z => conjunction_right_comm z _ _) _).trans ?_
    have hcongr : ∀ (l : List P) (s : Emitted), (∀ q ∈ l, q ∈ x.1.properties) →
        l.foldl (fun s q => conjunction s (localStatus q (localIn T' rank q))) s =
        l.foldl (fun s q => conjunction s (localStatus q (localIn T rank q))) s := by
      intro l
      induction l with
      | nil => exact fun _ _ => rfl
      | cons q l ih =>
        intro s hl
        rw [List.foldl_cons,List.foldl_cons,localStatus_eq_of_kind (hk q (hl q List.mem_cons_self))]
        exact ih _ fun y hy => hl y (List.mem_cons_of_mem q hy)
    exact hcongr _ _ fun q => mem_of_mem_consequenceHyps
  have hany : (consequenceHyps (π p x.1)).any (fun q => isTried (localIn T' rank q)) =
      (consequenceHyps x.1).any fun q => isTried (localIn T rank q) := by
    rw [hperm.any_eq,Bool.eq_iff_iff,List.any_eq_true,List.any_eq_true]
    apply exists_congr
    intro q
    apply and_congr_right
    intro hq
    rw [isTried_eq_of_kind (hk q (mem_of_mem_consequenceHyps hq))]
  unfold PropertyStatus.resolve resolveWith
  rw [hfold,hany,h.consequence]

theorem Reordered.triedOf_perm (h : Reordered T T' π) (rank : P → ℕ) {p : P}
    (hk : ∀ l, entriesOf T p = some l → ∀ x ∈ l, ∀ q ∈ x.1.properties,
      (localIn T' rank q).kind = (localIn T rank q).kind) :
    (triedOf T' rank p).Perm ((triedOf T rank p).map fun x => (π p x.1,x.2)) := by
  unfold triedOf
  obtain ⟨h₁,h₂⟩ | ⟨l,l',h₁,h₂,hp⟩ := h.entries p
  · rw [h₁,h₂]
    exact List.Perm.refl _
  · rw [h₁,h₂,Option.getD_some,Option.getD_some]
    have hk := hk l h₁
    have hmap : triedIn T' rank (l.map fun x => (π p x.1,x.2)) = (triedIn T rank l).map fun x => (π p x.1,x.2) := by
      unfold triedIn
      rw [List.filterMap_map,List.map_filterMap]
      apply List.filterMap_congr
      intro x hx
      simp only [Function.comp_apply]
      rw [h.resolve (hk x hx)]
      cases (PropertyStatus.resolve T rank x).2 <;> rfl
    rw [← hmap]
    exact hp.filterMap _

theorem Reordered.localIn_kind (h : Reordered T T' π) (hT : Ranked T rank) (hC : Closed T) :
    ∀ n p, rank p < n → (entriesOf T p).isSome = true → (localIn T' rank p).kind = (localIn T rank p).kind := by
  intro n
  induction n with
  | zero => intro p hp; exact absurd hp (Nat.not_lt_zero _)
  | succ n ih =>
    intro p hp hs
    have hperm := h.triedOf_perm rank (p := p) (by
      intro l hl x hx q hq
      have hlt := hT p l hl x hx q hq
      exact ih q (by omega) (hC p l hl x hx q hq))
    rw [localIn_eq hT hC hs,localIn_eq (h.ranked hT) (h.closed hC) (by rw [h.isSome p]; exact hs),localFrom_kind,
      localFrom_kind]
    have hsnd := hperm.map Prod.snd
    rw [List.map_map] at hsnd
    refine List.Perm.foldl_eq' hsnd (fun x _ y _ z => LocalKind.join_right_comm z _ _) _

theorem Reordered.kind_eq (h : Reordered T T' π) (hT : Ranked T rank) (hC : Closed T) {p : P}
    (hs : (entriesOf T p).isSome = true) : (localIn T' rank p).kind = (localIn T rank p).kind :=
  h.localIn_kind hT hC _ p (Nat.lt_succ_self _) hs

theorem Reordered.tried_perm (h : Reordered T T' π) (hT : Ranked T rank) (hC : Closed T) (p : P) :
    (triedOf T' rank p).Perm ((triedOf T rank p).map fun x => (π p x.1,x.2)) :=
  h.triedOf_perm rank fun l hl x hx q hq => h.kind_eq hT hC (hC p l hl x hx q hq)

theorem isUnreachable_eq (hT : Ranked T rank) (hC : Closed T) (p : P) :
    isUnreachable (localOf T rank (ipReachablePpt p)) =
      decide ((localIn T rank (ipReachablePpt p)).kind = .best .falseAndReachable) := by
  rw [localIn_eq hT hC (entriesOf_reach p),localOf_eq_localFrom hT hC (entriesOf_reach p)]
  cases localFrom (triedOf T rank (ipReachablePpt p)) with
  | neverTried => rfl
  | best s l => cases s <;> rfl
  | inconsistent valid invalid => rfl

theorem reachDecided_iff (hT : Ranked T rank) (hC : Closed T) (p : P) :
    ReachDecided T rank p ↔
      (isReachable p = false → (localIn T rank (ipReachablePpt p)).kind ≠ .best .falseIfReachable) := by
  unfold ReachDecided
  rw [localIn_eq hT hC (entriesOf_reach p),localOf_eq_localFrom hT hC (entriesOf_reach p)]
  cases localFrom (triedOf T rank (ipReachablePpt p)) with
  | neverTried => simp [Local.kind]
  | best s l => cases s <;> simp [Local.kind]
  | inconsistent valid invalid => simp [Local.kind]

theorem Reordered.unreachable (h : Reordered T T' π) (hT : Ranked T rank) (hC : Closed T) (p : P) :
    isUnreachable (localOf T' rank (ipReachablePpt p)) = isUnreachable (localOf T rank (ipReachablePpt p)) := by
  rw [isUnreachable_eq hT hC,isUnreachable_eq (h.ranked hT) (h.closed hC),h.kind_eq hT hC (entriesOf_reach p)]

theorem Reordered.reachDecided (h : Reordered T T' π) (hT : Ranked T rank) (hC : Closed T) (p : P) :
    ReachDecided T' rank p ↔ ReachDecided T rank p := by
  rw [reachDecided_iff hT hC,reachDecided_iff (h.ranked hT) (h.closed hC),h.kind_eq hT hC (entriesOf_reach p)]

theorem Reordered.acyclic (h : Reordered T T' π) (hT : Acyclic T rank) (hC : Closed T) : Acyclic T' rank := by
  refine ⟨h.ranked hT.ranked,?_⟩
  intro p hp hr hu
  rw [h.unreachable hT.ranked hC] at hu
  apply hT.reach p _ hr hu
  obtain ⟨-,h₂⟩ | ⟨l,l',h₁,-,-⟩ := h.table p
  · rw [h₂] at hp
    cases hp
  · rw [h₁]
    rfl

theorem Reordered.augment_perm (h : Reordered T T' π) (hT : Ranked T rank) (hC : Closed T) (p : P) (e : Emission P E) :
    (augment T' rank p (π p e)).properties.Perm (augment T rank p e).properties := by
  unfold augment
  simp only [h.unreachable hT hC,(h.properties p e).mem_iff]
  split
  · exact (h.properties p e).cons _
  · exact h.properties p e

theorem mapEmissions_comp (f g : Emission P E → Emission P E) (s : Local P E) :
    (s.mapEmissions f).mapEmissions g = s.mapEmissions (g ∘ f) := by
  cases s <;> simp [Local.mapEmissions]

theorem Reordered.enumerates (h : Reordered T T' π) (hN : NodupEmitters T) (hT : Acyclic T rank) (hC : Closed T) {p : P}
    (hs : (entriesOf T p).isSome = true)
    (hbelow : ∀ q, rank q < rank p → (entriesOf T q).isSome = true → verdict T' rank q = verdict T rank q)
    {l : List (Emission P E × Emitted)} (hl : l.Perm (triedOf T rank p))
    (hl' : triedOf T' rank p = l.map fun x => (π p x.1,x.2)) :
    classesFrom T' rank p (triedOf T' rank p) = classesFrom T rank p l ∧
      verdict T' rank p = verdictOf (verdict T rank) p (augmentedFrom T rank p l) := by
  have hcol := collected_perm hN hl
  have haug : augmentedFrom T' rank p (triedOf T' rank p) = (localFrom l).mapEmissions (augment T' rank p ∘ π p) := by
    unfold augmentedFrom
    rw [hl',localFrom_map,mapEmissions_comp]
  have hclass : ∀ e ∈ bestEmitters (localFrom l), hypsVerdict (verdict T' rank) ((augment T' rank p ∘ π p) e).properties =
      hypsVerdict (verdict T rank) (augment T rank p e).properties := by
    intro e he
    refine (hypsVerdict_perm (h.augment_perm hT.ranked hC p e)).trans ?_
    apply hypsVerdict_congr
    intro q hq
    obtain ⟨hlt,hqs⟩ := triedOf_below hT hC hs hl (hcol.mem e he) q hq
    exact hbelow q hlt hqs
  constructor
  · unfold classesFrom
    rw [haug]
    unfold augmentedFrom classes
    rw [bestEmitters_mapEmissions,bestEmitters_mapEmissions,List.map_map,List.map_map]
    exact List.map_congr_left hclass
  · rw [verdict_eq (h.nodup hN) (h.acyclic hT hC) (h.closed hC) (by rw [h.isSome p]; exact hs),haug]
    exact verdictOf_mapEmissions hclass

end

/-- In no enumeration of the emitters of a property is a choice made after good and bad hypotheses, or
does the local status keep other emitters that change the constructor; and no reachability is false
under itself. -/
def NoConflict (T : StatusTable P E) (rank : P → ℕ) : Prop :=
  ∀ p, (entriesOf T p).isSome = true →
    ReachDecided T rank p ∧ ∀ l : List (Emission P E × Emitted), l.Perm (triedOf T rank p) →
      Settled (classesFrom T rank p l) ∧
        verdictOf (verdict T rank) p (augmentedFrom T rank p l) = verdict T rank p

/-- In whatever order, and after whatever calls, `get` returns the same constructor. -/
def OrderFree (fuel : ℕ) (T : StatusTable P E) : Prop :=
  ∃ κ : P → Verdict, ∀ (T' : StatusTable P E) (π : P → Emission P E → Emission P E), Reordered T T' π →
    ∀ st, AfterGets fuel T' st → ∀ p, (entriesOf T p).isSome = true →
      ∃ c st', consolidationGet fuel p st = some (c,st') ∧ c.verdict = κ p

section
variable {T T' : StatusTable P E} {π : P → Emission P E → Emission P E} {rank : P → ℕ} {fuel : ℕ}

theorem NoConflict.reordered (hok : NoConflict T rank) (h : Reordered T T' π) (hN : NodupEmitters T)
    (hT : Acyclic T rank) (hC : Closed T) :
    ∀ n p, rank p < n → (entriesOf T p).isSome = true →
      Settled (classesFrom T' rank p (triedOf T' rank p)) ∧ verdict T' rank p = verdict T rank p := by
  intro n
  induction n with
  | zero => intro p hp; exact absurd hp (Nat.not_lt_zero _)
  | succ n ih =>
    intro p hp hs
    obtain ⟨l,hl,hl'⟩ := exists_perm_map (h.tried_perm hT.ranked hC p)
    obtain ⟨hclass,hverdict⟩ := h.enumerates hN hT hC hs (fun q hq hqs => (ih q (by omega) hqs).2) hl hl'
    obtain ⟨-,hall⟩ := hok p hs
    obtain ⟨hset,hv⟩ := hall l hl
    exact ⟨by rw [hclass]; exact hset,hverdict.trans hv⟩

theorem NoConflict.orderFree (hok : NoConflict T rank) (hN : NodupEmitters T) (hT : Acyclic T rank) (hC : Closed T)
    (hf : ∀ q, rank q < fuel) : OrderFree fuel T := by
  refine ⟨verdict T rank,?_⟩
  intro T' π h st hst p hs
  have hN' := h.nodup hN
  have hT' := h.acyclic hT hC
  have hC' := h.closed hC
  have hs' : (entriesOf T' p).isSome = true := by rw [h.isSome p]; exact hs
  obtain ⟨c,hc,hv,-⟩ := consolidatedOf_verdict hN' hT' hC' (by
    intro q hq
    rw [h.isSome q] at hq
    exact ⟨(h.reachDecided hT.ranked hC q).mpr (hok q hq).1,
      (hok.reordered h hN hT hC _ q (Nat.lt_succ_self _) hq).1⟩) _ p (Nat.lt_succ_self _) hs'
  have hg := consolidationGet_simulates hN' hT' hf p st (hst.memoInv hN' hT' hf)
  rw [hc] at hg
  obtain ⟨_,st',hrun,rfl,-⟩ := hg
  exact ⟨c,st',hrun,hv.trans (hok.reordered h hN hT hC _ p (Nat.lt_succ_self _) hs).2⟩

theorem triedIn_eq (l : List (Entry P E)) :
    triedIn T rank l = (l.filter fun x => (resolve T rank x).2).map fun x => (x.1,(resolve T rank x).1) := by
  unfold triedIn
  induction l with
  | nil => rfl
  | cons x l ih =>
    rw [List.filterMap_cons,List.filter_cons]
    cases ht : (resolve T rank x).2 with
    | true => simp [ih]
    | false => simp [ih]

theorem exists_entries {es : List (Entry P E)} {l : List (Emission P E × Emitted)} (h : l.Perm (triedIn T rank es)) :
    ∃ es' : List (Entry P E), es'.Perm es ∧ triedIn T rank es' = l := by
  rw [triedIn_eq] at h
  obtain ⟨m,hm,rfl⟩ := exists_perm_map h
  refine ⟨m ++ es.filter fun x => !(resolve T rank x).2,?_,?_⟩
  · exact (hm.append_right _).trans (List.filter_append_perm _ es)
  · rw [triedIn_eq,List.filter_append]
    have h₁ : m.filter (fun x => (resolve T rank x).2) = m := by
      apply List.filter_eq_self.mpr
      intro x hx
      exact (List.mem_filter.mp (hm.mem_iff.mp hx)).2
    have h₂ : (es.filter fun x => !(resolve T rank x).2).filter (fun x => (resolve T rank x).2) = [] := by
      rw [List.filter_filter]
      apply List.filter_eq_nil_iff.mpr
      intro x _
      simp
    rw [h₁,h₂,List.append_nil]

theorem Reordered.refl (T : StatusTable P E) : Reordered T T fun _ e => e := by
  refine ⟨fun _ _ => rfl,fun _ _ => rfl,fun _ _ => List.Perm.refl _,?_⟩
  intro p
  cases hp : T p with
  | none => exact Or.inl ⟨rfl,rfl⟩
  | some l => exact Or.inr ⟨l,l,rfl,rfl,by simp⟩

theorem exists_reordered (hT : Ranked T rank) (hC : Closed T) {p : P} (hs : (entriesOf T p).isSome = true)
    {l : List (Emission P E × Emitted)} (hl : l.Perm (triedOf T rank p)) :
    ∃ T', Reordered T T' (fun _ e => e) ∧ triedOf T' rank p = l := by
  cases hp : T p with
  | none =>
    refine ⟨T,Reordered.refl T,?_⟩
    have hlen : (triedOf T rank p).length ≤ 1 := by
      unfold triedOf triedIn
      refine (List.length_filterMap_le _ _).trans ?_
      unfold entriesOf
      rw [hp]
      by_cases ha : isAutoRegistered p = true
      · simp only [ha,if_true,Option.getD_some]
        unfold kernelEntries
        split <;> simp
      · simp [ha]
    cases ht : triedOf T rank p with
    | nil =>
      rw [ht] at hl
      exact hl.eq_nil.symm
    | cons x t =>
      rw [ht] at hl hlen
      obtain rfl : t = [] := by simpa using hlen
      exact (List.perm_singleton.mp hl).symm
  | some es =>
    have htried : triedOf T rank p = triedIn T rank es := by
      unfold triedOf
      rw [entriesOf_of_some hp]
      rfl
    rw [htried] at hl
    obtain ⟨es',hes,hl'⟩ := exists_entries hl
    have hre : Reordered T (Function.update T p (some es')) fun _ e => e := by
      refine ⟨fun _ _ => rfl,fun _ _ => rfl,fun _ _ => List.Perm.refl _,?_⟩
      intro q
      by_cases hq : q = p
      · subst hq
        exact Or.inr ⟨es,es',hp,by simp,by simpa using hes⟩
      · rw [Function.update_of_ne hq]
        exact (Reordered.refl T).table q
    refine ⟨_,hre,?_⟩
    have hnew : triedOf (Function.update T p (some es')) rank p = triedIn (Function.update T p (some es')) rank es' := by
      unfold triedOf
      rw [entriesOf_of_some (show Function.update T p (some es') p = some es' by simp)]
      rfl
    rw [hnew,← hl']
    unfold triedIn
    apply List.filterMap_congr
    intro x hx
    have hr : resolve (Function.update T p (some es')) rank (x.1,x.2) = resolve T rank x :=
      hre.resolve (p := p) fun q hq => hre.kind_eq hT hC (hC p es (entriesOf_of_some hp) x (hes.mem_iff.mp hx) q hq)
    change resolve (Function.update T p (some es')) rank x = resolve T rank x at hr
    rw [hr]

theorem OrderFree.consolidated {κ : P → Verdict}
    (hκ : ∀ (T' : StatusTable P E) (π : P → Emission P E → Emission P E), Reordered T T' π →
      ∀ st, AfterGets fuel T' st → ∀ p, (entriesOf T p).isSome = true →
        ∃ c st', consolidationGet fuel p st = some (c,st') ∧ c.verdict = κ p)
    (hN : NodupEmitters T) (hT : Acyclic T rank) (hC : Closed T) (hf : ∀ q, rank q < fuel) (h : Reordered T T' π) :
    ∀ n p, rank p < n → (entriesOf T p).isSome = true → ReachDecided T' rank p ∧
      Settled (classesFrom T' rank p (triedOf T' rank p)) ∧ verdict T' rank p = κ p ∧
      ∃ c, consolidatedOf T' rank p = some c ∧ c.verdict = verdict T' rank p ∧ c.Nonempty := by
  have hN' := h.nodup hN
  have hT' := h.acyclic hT hC
  have hC' := h.closed hC
  intro n
  induction n with
  | zero => intro p hp; exact absurd hp (Nat.not_lt_zero _)
  | succ n ih =>
    intro p hp hs
    have hs' : (entriesOf T' p).isSome = true := by rw [h.isSome p]; exact hs
    obtain ⟨c,st',hrun,hv⟩ := hκ T' π h _ AfterGets.init p hs
    obtain ⟨hc,-⟩ := consolidationGet_eq hN' hT' hf memoInv_init hrun
    have hr : ReachDecided T' rank p := by
      rw [checkReachable_iff hT'.ranked hC']
      rw [consolidatedOf_eq hT'] at hc
      obtain ⟨_,hreach,-⟩ := Option.bind_eq_some_iff.mp hc
      exact hreach
    have hstep := consolidatedOf_step hN' hT' hC' hs' (by
      intro q hq hqs
      rw [h.isSome q] at hqs
      exact (ih q (by omega) hqs).2.2.2) hr
    have hset : Settled (classesFrom T' rank p (triedOf T' rank p)) := by
      by_contra hn
      rw [hstep.2 hn] at hc
      cases hc
    obtain ⟨c',hc',hv',hn'⟩ := hstep.1 hset
    rw [hc] at hc'
    obtain rfl := Option.some.inj hc'
    exact ⟨hr,hset,hv'.symm.trans hv,c,hc,hv',hn'⟩

end

theorem provedTable_closed : Closed provedTable := by
  intro p l hl x hx h hh
  cases h <;> rfl

theorem provedTable_tried (p : Annot) : (triedOf provedTable annotRank p).length ≤ 1 := by
  cases p <;> decide

/-- Three provers prove the goal; one uses a hypothesis that is proved to be false. -/
def conflictTable : StatusTable Annot Prover
  | .goal => some [(⟨.kernel,[],false⟩,.true),(⟨.wp,[.hyp],false⟩,.true),(⟨.eva,[],false⟩,.true)]
  | .hyp => some [(⟨.eva,[],false⟩,.falseAndReachable)]
  | .reach => none

end FramaC.PropertyStatus
