import FramaC.Aorai.Simplification

/-! # Equivalent guards

Terms are compared up to negation and swap of the operands of a relation, clauses as sets of terms. A clause and a clause
with the opposite terms are complementary only if one of them has a single term.
-/
namespace FramaC.Aorai
open Outcome

section Terms
variable {F B T V : Type} [DecidableEq F] [DecidableEq B] [DecidableEq T] [LinearOrder V] {μ : Model F B T V}

omit [DecidableEq T] in
theorem swapRel_holds {r : Relation} {t1 t2 : T} {r' : Relation × T × T} (h : swapRel (r,t1,t2) = r') (val : T → V) :
    r'.1.Holds (val r'.2.1) (val r'.2.2) ↔ r.Holds (val t1) (val t2) := by
  subst h
  cases r <;> simp [swapRel,Relation.Holds,eq_comm]

theorem contradictRel_holds {r1 r2 : Relation} {t11 t12 t21 t22 : T}
    (h : contradictRel (r1,t11,t12) (r2,t21,t22) = true) (val : T → V) :
    r1.Holds (val t11) (val t12) ↔ ¬ r2.Holds (val t21) (val t22) := by
  rw [contradictRel,Bool.or_eq_true,decide_eq_true_iff,decide_eq_true_iff] at h
  rw [← oppositeRel_holds]
  rcases h with h | h
  · cases h
    rfl
  · exact (swapRel_holds h val).symm

theorem termsAreEqual_holds {t1 t2 : Condition F B T} (h : termsAreEqual t1 t2 = true) : Holds μ t1 ↔ Holds μ t2 := by
  induction t1 generalizing t2 with
  | not a ih =>
    cases t2 with
    | not b =>
      have hab : termsAreEqual a b = true := by
        cases a <;> exact h
      exact not_congr (ih hab)
    | rel r2 t21 t22 =>
      cases a with
      | rel r1 t11 t12 => exact not_iff_comm.mp (contradictRel_holds h μ.val).symm
      | _ => cases h
    | _ => cases a <;> cases h
  | rel r1 t11 t12 =>
    cases t2 with
    | not b =>
      cases b with
      | rel r2 t21 t22 => exact contradictRel_holds h μ.val
      | _ => cases h
    | rel r2 t21 t22 =>
      have heq := of_decide_eq_true h
      cases heq
      rfl
    | _ => cases h
  | call f1 b1 =>
    cases t2 with
    | call f2 b2 =>
      have heq : f1 = f2 ∧ b1 = b2 := by
        cases b1 with
        | none =>
          cases b2 with
          | none => exact ⟨of_decide_eq_true h,rfl⟩
          | some b2 => cases h
        | some b1 =>
          cases b2 with
          | none => cases h
          | some b2 => simpa [termsAreEqual] using h
      rw [heq.1,heq.2]
    | _ => cases b1 <;> cases h
  | ret f1 =>
    cases t2 with
    | ret f2 =>
      have heq : f1 = f2 := of_decide_eq_true h
      rw [heq]
    | _ => cases h
  | true =>
    cases t2 with
    | true => rfl
    | _ => cases h
  | false =>
    cases t2 with
    | false => rfl
    | _ => cases h
  | or _ _ _ _ => cases t2 <;> cases h
  | and _ _ _ _ => cases t2 <;> cases h

omit [DecidableEq F] [DecidableEq B] [DecidableEq T] in
theorem negativeTerm_holds {t t' : Condition F B T} (h : negativeTerm t = .ok t') : Holds μ t' ↔ ¬ Holds μ t := by
  cases t with
  | not c =>
    cases h
    simp [Holds]
  | or c1 c2 => cases h
  | and c1 c2 => cases h
  | true =>
    cases h
    simp [Holds]
  | false =>
    cases h
    simp [Holds]
  | _ =>
    cases h
    rfl

theorem simplifyStep_sat {clause pre post acc : List (Condition F B T)} {c : Condition F B T} (hl : clause = pre ++ c :: post)
    (hterm : IsTerm c) (hsub : ∀ t ∈ acc, t ∈ pre)
    (hholds : ∀ μ : Model F B T V, HoldsClause μ acc ↔ HoldsClause μ pre) :
    Sat (fun res => (∀ t ∈ res, t ∈ pre ++ [c]) ∧ ∀ μ : Model F B T V, HoldsClause μ res ↔ HoldsClause μ (pre ++ [c]))
      (fun e => e = .exit ∧ ∀ μ : Model F B T V, ¬ HoldsClause μ clause) (simplifyStep acc c) := by
  have hmem : c ∈ clause := by simp [hl]
  have hpre : ∀ {μ : Model F B T V}, HoldsClause μ clause → HoldsClause μ acc := by
    intro μ hall
    rw [hl,holdsClause_append] at hall
    exact (hholds μ).2 hall.1
  have hkeep : (∀ μ : Model F B T V, HoldsClause μ acc → Holds μ c) →
      (∀ t ∈ acc, t ∈ pre ++ [c]) ∧ ∀ μ : Model F B T V, HoldsClause μ acc ↔ HoldsClause μ (pre ++ [c]) := by
    intro himp
    refine ⟨fun t ht => List.mem_append_left _ (hsub t ht),fun μ => ?_⟩
    rw [holdsClause_append,holdsClause_cons,← hholds μ]
    exact ⟨fun h => ⟨h,himp μ h,holdsClause_nil⟩,fun h => h.1⟩
  have hgen : Sat (fun res => (∀ t ∈ res, t ∈ pre ++ [c]) ∧
        ∀ μ : Model F B T V, HoldsClause μ res ↔ HoldsClause μ (pre ++ [c]))
      (fun e => e = .exit ∧ ∀ μ : Model F B T V, ¬ HoldsClause μ clause) (do
        let neg ← negativeTerm c
        if acc.any (termsAreEqual neg) then .error .exit
        else if acc.any (termsAreEqual c) then return acc
        else return c :: acc) := by
    obtain ⟨neg,hneg⟩ := hterm
    rw [hneg]
    change Sat _ _ (if acc.any (termsAreEqual neg) then _ else _)
    split
    · rename_i hany
      obtain ⟨t,ht,heq⟩ := List.any_eq_true.mp hany
      refine ⟨rfl,fun μ hall => ?_⟩
      exact (negativeTerm_holds hneg).1 ((termsAreEqual_holds heq).2 (hpre hall t ht)) (hall c hmem)
    · split
      · rename_i hany
        obtain ⟨t,ht,heq⟩ := List.any_eq_true.mp hany
        exact hkeep fun μ hall => (termsAreEqual_holds heq).2 (hall t ht)
      · refine ⟨?_,fun μ => ?_⟩
        · intro t ht
          rcases List.mem_cons.mp ht with rfl | ht
          · simp
          · exact List.mem_append_left _ (hsub t ht)
        · rw [holdsClause_cons,holdsClause_append,holdsClause_cons,hholds μ]
          simp [and_comm]
  unfold simplifyStep
  split
  · exact hkeep fun _ _ => trivial
  · exact hkeep fun _ _ h => h
  · exact ⟨rfl,fun μ hall => hall _ hmem⟩
  · exact ⟨rfl,fun μ hall => hall _ hmem trivial⟩
  · exact hgen

theorem simplify_spec {clause : List (Condition F B T)} (hterms : ∀ t ∈ clause, IsTerm t) :
    ∃ res, simplify clause = .ok res ∧ (∀ t ∈ res, t ∈ clause ∨ t = .false) ∧
      ∀ μ : Model F B T V, HoldsClause μ res ↔ HoldsClause μ clause := by
  refine catchExit_returns (P := fun res => (∀ t ∈ res, t ∈ clause ∨ t = .false) ∧
    ∀ μ : Model F B T V, HoldsClause μ res ↔ HoldsClause μ clause) ?_
  have hfold : Sat (fun res => (∀ t ∈ res, t ∈ clause) ∧ ∀ μ : Model F B T V, HoldsClause μ res ↔ HoldsClause μ clause)
      (fun e => e = .exit ∧ ∀ μ : Model F B T V, ¬ HoldsClause μ clause) (clause.foldlM simplifyStep []) := by
    refine Sat.foldlM_prefix (P := fun pre res => (∀ t ∈ res, t ∈ pre) ∧
      ∀ μ : Model F B T V, HoldsClause μ res ↔ HoldsClause μ pre) ⟨by simp,by simp⟩ ?_
    rintro pre c post res hl _ ⟨hsub,hholds⟩
    exact simplifyStep_sat hl (hterms c (by simp [hl])) hsub hholds
  refine Sat.bind (hfold.mono (fun _ h => h) ?_) ?_
  · rintro e ⟨he,hno⟩
    refine ⟨he,by simp,fun μ => ?_⟩
    rw [holdsClause_cons]
    exact ⟨fun hf => hf.1.elim,fun hc => absurd hc (hno μ)⟩
  · rintro res ⟨hsub,hholds⟩
    refine ⟨fun t ht => Or.inl (hsub t (List.mem_reverse.mp ht)),fun μ => ?_⟩
    rw [holdsClause_reverse]
    exact hholds μ

omit [DecidableEq F] [DecidableEq B] [DecidableEq T] in
theorem holds_simplClause (clause : List (Condition F B T)) (dnf : List (List (Condition F B T))) :
    HoldsDNF μ (simplClause clause dnf) ↔ HoldsClause μ clause ∨ HoldsDNF μ dnf := by
  unfold simplClause
  split <;> simp [Holds]

omit [DecidableEq F] [DecidableEq B] [DecidableEq T] in
theorem mem_simplClause {clause cl : List (Condition F B T)} {dnf : List (List (Condition F B T))}
    (h : cl ∈ simplClause clause dnf) : cl = [] ∨ cl = clause ∨ cl ∈ dnf := by
  unfold simplClause at h
  split at h
  · exact Or.inl (by simpa using h)
  · exact Or.inl (by simpa using h)
  · exact Or.inl (by simpa using h)
  · exact Or.inr (Or.inr h)
  · exact Or.inr (Or.inr h)
  · rcases List.mem_cons.mp h with h | h
    · exact Or.inr (Or.inl h)
    · exact Or.inr (Or.inr h)

omit [DecidableEq F] [DecidableEq B] [DecidableEq T] in
theorem simplClauses_spec {f : List (Condition F B T) → Except Exn (List (Condition F B T))}
    {d : List (List (Condition F B T))} (hd : ∀ cl ∈ d, ∀ t ∈ cl, IsTerm t) (Good : Prop)
    (hf : ∀ cl ∈ d, ∃ res, f cl = .ok res ∧ (∀ t ∈ res, t ∈ cl ∨ t = .false) ∧
      (Good → ∀ μ : Model F B T V, HoldsClause μ res ↔ HoldsClause μ cl)) :
    ∃ res, simplClauses f d = .ok res ∧ (∀ cl ∈ res, ∀ t ∈ cl, IsTerm t) ∧
      (Good → ∀ μ : Model F B T V, HoldsDNF μ res ↔ HoldsDNF μ d) := by
  have hfold : Sat (fun res => (∀ cl ∈ res, ∀ t ∈ cl, IsTerm t) ∧
      (Good → ∀ μ : Model F B T V, HoldsDNF μ res ↔ HoldsDNF μ d)) (fun _ => False)
      (d.foldlM (fun lclauses clause => do return simplClause (← f clause) lclauses) []) := by
    refine Sat.foldlM_prefix (P := fun pre res => (∀ cl ∈ res, ∀ t ∈ cl, IsTerm t) ∧
      (Good → ∀ μ : Model F B T V, HoldsDNF μ res ↔ HoldsDNF μ pre)) ⟨by simp,by simp⟩ ?_
    rintro pre c post acc hl _ ⟨hterms,hholds⟩
    have hc : c ∈ d := by simp [hl]
    obtain ⟨res,hres,hsub,hequiv⟩ := hf c hc
    rw [hres]
    refine ⟨?_,fun hg μ => ?_⟩
    · intro cl hcl t ht
      rcases mem_simplClause hcl with rfl | rfl | hcl
      · cases ht
      · rcases hsub t ht with h | rfl
        · exact hd c hc t h
        · exact ⟨_,rfl⟩
      · exact hterms cl hcl t ht
    · rw [holds_simplClause,holdsDNF_append,holdsDNF_cons,hequiv hg μ,hholds hg μ]
      simp [or_comm]
  obtain ⟨res,hres,hterms,hholds⟩ := hfold.exists_ok
  refine ⟨res.reverse,by rw [simplClauses,hres]; rfl,?_,fun hg μ => ?_⟩
  · intro cl hcl
    exact hterms cl (List.mem_reverse.mp hcl)
  · rw [holdsDNF_reverse]
    exact hholds hg μ

/-- Each time a clause and a clause with the opposite terms are found, one of them has at most one term. -/
def SingleOpposites (clauses : List (List (Condition F B T))) : Prop :=
  ∀ pre c post acc neg, clauses = pre ++ c :: post → pre.foldlM simplifyClausesStep [] = .ok acc →
    negativeClause c = .ok neg → ∀ c2 ∈ acc, clausesAreEqual neg c2 = true → c.length ≤ 1 ∨ c2.length ≤ 1

theorem clausesAreSubSetEq_holds {c1 c2 : List (Condition F B T)} (h : clausesAreSubSetEq c1 c2 = true)
    (h2 : HoldsClause μ c2) : HoldsClause μ c1 := by
  intro t ht
  obtain ⟨t',ht',heq⟩ := List.any_eq_true.mp (List.all_eq_true.mp h t ht)
  exact (termsAreEqual_holds heq).2 (h2 t' ht')

omit [DecidableEq F] [DecidableEq B] [DecidableEq T] in
theorem negativeClause_ok {c : List (Condition F B T)} (h : ∀ t ∈ c, IsTerm t) :
    ∃ neg, negativeClause c = .ok neg ∧ List.Forall₂ (fun t n => negativeTerm t = .ok n) c neg := by
  induction c with
  | nil => exact ⟨[],rfl,List.Forall₂.nil⟩
  | cons t c ih =>
    obtain ⟨n,hn⟩ := h t List.mem_cons_self
    obtain ⟨neg,hneg,hall⟩ := ih fun t ht => h t (List.mem_cons_of_mem _ ht)
    refine ⟨n :: neg,?_,List.Forall₂.cons hn hall⟩
    unfold negativeClause at hneg ⊢
    rw [List.mapM_cons,hn]
    change (List.mapM negativeTerm c >>= _) = _
    rw [hneg]
    rfl

theorem opposite_holds {c neg c2 : List (Condition F B T)} (hneg : List.Forall₂ (fun t n => negativeTerm t = .ok n) c neg)
    (heq : clausesAreEqual neg c2 = true) (hone : c.length ≤ 1 ∨ c2.length ≤ 1) (μ : Model F B T V) :
    HoldsClause μ c ∨ HoldsClause μ c2 := by
  rw [clausesAreEqual,Bool.and_eq_true] at heq
  obtain ⟨hsub1,hsub2⟩ := heq
  rcases hone with hone | hone
  · cases hneg with
    | nil => exact Or.inl holdsClause_nil
    | @cons t n c neg hn hrest =>
      have hnil : c = [] := List.length_eq_zero_iff.mp (by simpa using hone)
      subst hnil
      cases hrest
      by_cases ht : Holds μ t
      · exact Or.inl (by simpa using ht)
      · refine Or.inr fun x hx => ?_
        obtain ⟨n',hn',hx'⟩ := List.any_eq_true.mp (List.all_eq_true.mp hsub2 x hx)
        rw [List.mem_singleton] at hn'
        subst hn'
        exact (termsAreEqual_holds hx').2 ((negativeTerm_holds hn).2 ht)
  · cases c2 with
    | nil => exact Or.inr holdsClause_nil
    | cons x c2 =>
      have hnil : c2 = [] := List.length_eq_zero_iff.mp (by simpa using hone)
      subst hnil
      by_cases hx : Holds μ x
      · exact Or.inr (by simpa using hx)
      · refine Or.inl fun t ht => ?_
        obtain ⟨i,hi,rfl⟩ := List.getElem_of_mem ht
        have hlen := hneg.length_eq
        have hn := hneg.get hi (by omega)
        obtain ⟨x',hx',hxe⟩ := List.any_eq_true.mp (List.all_eq_true.mp hsub1 _ (List.getElem_mem (by omega : i < neg.length)))
        rw [List.mem_singleton] at hx'
        subst hx'
        by_contra hnot
        exact hx ((termsAreEqual_holds hxe).1 ((negativeTerm_holds hn).2 hnot))

theorem simplifyClauses_spec {clauses : List (List (Condition F B T))} (hterms : ∀ cl ∈ clauses, ∀ t ∈ cl, IsTerm t) :
    ∃ res, simplifyClauses clauses = .ok res ∧
      (SingleOpposites clauses → ∀ μ : Model F B T V, HoldsDNF μ res ↔ HoldsDNF μ clauses) := by
  refine catchExit_returns (P := fun res => SingleOpposites clauses →
    ∀ μ : Model F B T V, HoldsDNF μ res ↔ HoldsDNF μ clauses) ?_
  have hfold : Sat (fun res => ∀ μ : Model F B T V, HoldsDNF μ res ↔ HoldsDNF μ clauses)
      (fun e => e = .exit ∧ (SingleOpposites clauses → ∀ μ : Model F B T V, HoldsDNF μ clauses))
      (clauses.foldlM simplifyClausesStep []) := by
    refine Sat.foldlM_prefix (P := fun pre res => ∀ μ : Model F B T V, HoldsDNF μ res ↔ HoldsDNF μ pre) (by simp) ?_
    intro pre c post acc hl hpre hholds
    obtain ⟨neg,hneg,hall⟩ := negativeClause_ok (hterms c (by simp [hl]))
    have hpreM : ∀ {μ : Model F B T V}, HoldsDNF μ acc → HoldsDNF μ clauses := by
      intro μ h
      rw [hl,holdsDNF_append]
      exact Or.inl ((hholds μ).1 h)
    have hgoal : ∀ μ : Model F B T V, HoldsDNF μ (pre ++ [c]) ↔ HoldsClause μ c ∨ HoldsDNF μ acc := by
      intro μ
      rw [holdsDNF_append,holdsDNF_cons,← hholds μ]
      simp [or_comm]
    unfold simplifyClausesStep
    rw [hneg]
    change Sat _ _ (if acc.any (clausesAreEqual neg) then _ else _)
    split
    · rename_i hany
      obtain ⟨c2,hc2,heq⟩ := List.any_eq_true.mp hany
      refine ⟨rfl,fun hsingle μ => ?_⟩
      rcases opposite_holds hall heq (hsingle pre c post acc neg hl hpre hneg c2 hc2 heq) μ with h | h
      · exact ⟨c,by simp [hl],h⟩
      · exact hpreM ⟨c2,hc2,h⟩
    · split
      · rename_i hany
        obtain ⟨c2,hc2,hsub⟩ := List.any_eq_true.mp hany
        intro μ
        rw [hgoal μ]
        exact ⟨Or.inr,fun h => h.elim (fun hc => ⟨c2,hc2,clausesAreSubSetEq_holds hsub hc⟩) id⟩
      · split
        · intro μ
          rw [hgoal μ,holdsDNF_cons]
          constructor
          · rintro (h | ⟨c2,hc2,h⟩)
            · exact Or.inl h
            · exact Or.inr ⟨c2,(List.mem_filter.mp hc2).1,h⟩
          · rintro (h | ⟨c2,hc2,h⟩)
            · exact Or.inl h
            · by_cases hs : clausesAreSubSetEq c c2 = true
              · exact Or.inl (clausesAreSubSetEq_holds hs h)
              · exact Or.inr ⟨c2,List.mem_filter.mpr ⟨hc2,by simpa using hs⟩,h⟩
        · intro μ
          rw [hgoal μ,holdsDNF_cons]
  refine Sat.bind (hfold.mono (fun _ h => h) ?_) ?_
  · rintro e ⟨he,hall⟩
    refine ⟨he,fun hsingle μ => ?_⟩
    simp [hall hsingle μ]
  · intro res hres _ μ
    rw [holdsDNF_reverse]
    exact hres μ

omit [DecidableEq F] [DecidableEq B] [DecidableEq T] in
theorem holds_tor (c1 c2 : Condition F B T) : Holds μ (tor c1 c2) ↔ Holds μ c1 ∨ Holds μ c2 := by
  unfold tor
  split <;> simp [Holds]

omit [DecidableEq F] [DecidableEq B] [DecidableEq T] in
theorem holds_tand (c1 c2 : Condition F B T) : Holds μ (tand c1 c2) ↔ Holds μ c1 ∧ Holds μ c2 := by
  unfold tand
  split <;> simp [Holds]

omit [DecidableEq F] [DecidableEq B] [DecidableEq T] in
theorem holds_tands (l : List (Condition F B T)) : Holds μ (tands l) ↔ HoldsClause μ l := by
  induction l with
  | nil => simp [tands,Holds]
  | cons t l ih =>
    rw [holdsClause_cons,← ih]
    exact holds_tand t (tands l)

omit [DecidableEq F] [DecidableEq B] [DecidableEq T] in
theorem holds_tors (l : List (Condition F B T)) : Holds μ (tors l) ↔ ∃ c ∈ l, Holds μ c := by
  induction l with
  | nil => simp [tors,Holds]
  | cons t l ih =>
    rw [List.exists_mem_cons_iff,← ih]
    exact holds_tor t (tors l)

omit [DecidableEq F] [DecidableEq B] [DecidableEq T] in
theorem holds_dnfToCond (d : List (List (Condition F B T))) : Holds μ (dnfToCond d) ↔ HoldsDNF μ d := by
  rw [dnfToCond,holds_tors]
  simp only [List.mem_map,exists_exists_and_eq_and,holds_tands]
  rfl

omit [DecidableEq F] [DecidableEq B] [DecidableEq T] in
theorem holds_tnot (hasResult : T → Bool) (c : Condition F B T) : Holds μ (tnot hasResult c) ↔ ¬ Holds μ c := by
  induction c with
  | or c1 c2 ih1 ih2 => simp only [tnot,Holds,ih1,ih2,not_or]
  | and c1 c2 ih1 ih2 =>
    simp only [tnot]
    split
    · simp only [Holds,ih1,ih2]
      tauto
    · simp only [Holds,ih1,ih2]
      tauto
  | not c _ => simp [tnot,Holds]
  | call kf b => rfl
  | ret kf => rfl
  | true => simp [tnot,Holds]
  | false => simp [tnot,Holds]
  | rel r t1 t2 => exact oppositeRel_holds r _ _

end Terms

section Results
variable {F B T V : Type} [DecidableEq F] [DecidableEq B] [DecidableEq T] [LinearOrder V]

/-- The conditions on which no step goes wrong: the clauses of the normal form are good, and the opposite clauses found
in the last step have a single term on one side. -/
def Admissible (c : Condition F B T) : Prop :=
  (∀ cl ∈ condToDNF c, GoodClause cl) ∧ ∀ res2 res3, simplClauses positiveCallOrRet (condToDNF c) = .ok res2 →
    simplClauses simplify res2 = .ok res3 → SingleOpposites res3

theorem simplifyCond_spec (c : Condition F B T) : ∃ d, simplifyCond c = .ok (dnfToCond d,d) ∧
    (Admissible c → ∀ μ : Model F B T V, HoldsDNF μ d ↔ Holds μ c) := by
  obtain ⟨res2,h2,hterms2,hholds2⟩ := simplClauses_spec (V := V) (condToDNF_terms c).1 (Admissible c)
    (f := positiveCallOrRet) fun cl hcl => by
      obtain ⟨res,hres,hsub,hholds⟩ := positiveCallOrRet_spec (V := V) cl
      exact ⟨res,hres,hsub,fun hadm => hholds (hadm.1 cl hcl)⟩
  obtain ⟨res3,h3,hterms3,hholds3⟩ := simplClauses_spec (V := V) hterms2 True
    (f := simplify) fun cl hcl => by
      obtain ⟨res,hres,hsub,hholds⟩ := simplify_spec (V := V) (hterms2 cl hcl)
      exact ⟨res,hres,hsub,fun _ => hholds⟩
  obtain ⟨res4,h4,hholds4⟩ := simplifyClauses_spec (V := V) hterms3
  refine ⟨res4,?_,?_⟩
  · unfold simplifyCond
    rw [h2]
    change (simplClauses simplify res2 >>= _) = _
    rw [h3]
    change (simplifyClauses res3 >>= _) = _
    rw [h4]
    rfl
  · intro hadm μ
    rw [hholds4 (hadm.2 res2 res3 h2 h3) μ,hholds3 trivial μ,hholds2 hadm μ]
    exact (holds_condToDNF c).1

omit [DecidableEq B] [DecidableEq T] in
theorem holds_simplCondition (hasResult : T → Bool) {kf : F} {status : FuncStatus} {μ : Model F B T V}
    (hμ : μ.event.key = (status,kf)) (c : Condition F B T) :
    Holds μ (simplCondition hasResult kf status c) ↔ Holds μ c := by
  have hother : ∀ {t : Condition F B T} {e}, eventOf t = some e → e ≠ (status,kf) → ¬ Holds μ t := by
    intro t e he hne h
    exact hne ((key_of_holds he h).symm.trans hμ)
  induction c with
  | or c1 c2 ih1 ih2 => exact (holds_tor _ _).trans (or_congr ih1 ih2)
  | and c1 c2 ih1 ih2 => exact (holds_tand _ _).trans (and_congr ih1 ih2)
  | not c ih => exact (holds_tnot hasResult _).trans (not_congr ih)
  | call kf2 b =>
    by_cases hc : kf = kf2 ∧ status = .call
    · obtain ⟨rfl,rfl⟩ := hc
      cases b with
      | none =>
        simp only [simplCondition,and_self,if_true]
        refine ⟨fun _ => ?_,fun _ => trivial⟩
        cases hev : μ.event with
        | call kf' active =>
          rw [hev] at hμ
          cases hμ
          exact ⟨active,hev⟩
        | ret kf' =>
          rw [hev] at hμ
          cases hμ
      | some b => simp [simplCondition]
    · have hno : ¬ Holds μ (.call kf2 b : Condition F B T) := by
        refine hother rfl fun he => hc ?_
        cases he
        exact ⟨rfl,rfl⟩
      cases b with
      | none =>
        simp only [simplCondition,if_neg hc]
        exact ⟨fun h => h.elim,fun h => hno h⟩
      | some b =>
        simp only [simplCondition,if_neg hc]
        exact ⟨fun h => h.elim,fun h => hno h⟩
  | ret kf2 =>
    by_cases hc : kf = kf2 ∧ status = .ret
    · obtain ⟨rfl,rfl⟩ := hc
      simp only [simplCondition,and_self,if_true]
      refine ⟨fun _ => ?_,fun _ => trivial⟩
      cases hev : μ.event with
      | call kf' active =>
        rw [hev] at hμ
        cases hμ
      | ret kf' =>
        rw [hev] at hμ
        cases hμ
        exact hev
    · simp only [simplCondition,if_neg hc]
      refine ⟨fun h => h.elim,fun h => hother (t := .ret kf2) rfl (fun he => hc ?_) h⟩
      cases he
      exact ⟨rfl,rfl⟩
  | true => rfl
  | false => rfl
  | rel r t1 t2 => rfl

/-- The simplified transition and its normal form, unless the guard is false. -/
def simplifiedTrans {S : Type} (tr : Trans S (Condition F B T)) :
    Option (Trans S (Condition F B T) × List (List (Condition F B T))) :=
  match simplifyCond tr.cross with
  | .ok (c,d) => if c = .false then none else some ({ tr with cross := c },d)
  | .error _ => none

theorem simplifyTransStep_eq {S : Type} (tr : Trans S (Condition F B T))
    (acc : List (Trans S (Condition F B T) × List (List (Condition F B T)))) :
    simplifyTransStep (acc.map Prod.fst,acc.map Prod.snd) tr =
      .ok (((simplifiedTrans tr).toList ++ acc).map Prod.fst,((simplifiedTrans tr).toList ++ acc).map Prod.snd) := by
  obtain ⟨d,hd,_⟩ := simplifyCond_spec (V := ℕ) tr.cross
  unfold simplifyTransStep simplifiedTrans
  rw [hd]
  change (if dnfToCond d ≠ .false then _ else _) = _
  by_cases hf : dnfToCond d = .false
  · simp [hf,pure,Except.pure]
  · simp [hf,pure,Except.pure]

theorem simplifyTrans_eq {S : Type} (transl : List (Trans S (Condition F B T))) :
    simplifyTrans transl =
      .ok ((transl.filterMap simplifiedTrans).map Prod.fst,(transl.filterMap simplifiedTrans).map Prod.snd) := by
  rw [simplifyTrans,List.foldlM_reverse]
  induction transl with
  | nil => rfl
  | cons tr transl ih =>
    rw [List.foldrM_cons,ih]
    change simplifyTransStep _ tr = _
    rw [simplifyTransStep_eq]
    cases hs : simplifiedTrans tr with
    | none => rw [List.filterMap_cons_none hs]; rfl
    | some p => rw [List.filterMap_cons_some hs]; rfl

end Results

end FramaC.Aorai
