import FramaC.Aorai.Condition

/-! # Simplification of guards

A condition is read over one event and a valuation of the terms in a total order. The normal form, the simplification in
a context and the use of contradictions preserve this reading; the use of a positive event does unless a clause asks for a
call and for a behaviour of the same function, and the search for complementary clauses does unless both clauses have
several terms.
-/
namespace FramaC.Aorai
open Outcome

/-- An event: the call of a function with its active behaviours, or its return. -/
inductive Event (F B : Type)
  | call (kf : F) (active : Set B)
  | ret (kf : F)

structure Model (F B T V : Type) where
  event : Event F B
  val : T → V

def Relation.Holds {V : Type} [LinearOrder V] : Relation → V → V → Prop
  | .lt, x, y => x < y
  | .gt, x, y => y < x
  | .le, x, y => x ≤ y
  | .ge, x, y => y ≤ x
  | .eq, x, y => x = y
  | .neq, x, y => x ≠ y

section Semantics
variable {F B T V : Type} [LinearOrder V]

def Holds (μ : Model F B T V) : Condition F B T → Prop
  | .or c1 c2 => Holds μ c1 ∨ Holds μ c2
  | .and c1 c2 => Holds μ c1 ∧ Holds μ c2
  | .not c => ¬ Holds μ c
  | .call kf none => ∃ active, μ.event = .call kf active
  | .call kf (some b) => ∃ active, μ.event = .call kf active ∧ b ∈ active
  | .ret kf => μ.event = .ret kf
  | .true => True
  | .false => False
  | .rel r t1 t2 => r.Holds (μ.val t1) (μ.val t2)

def HoldsClause (μ : Model F B T V) (clause : List (Condition F B T)) : Prop := ∀ t ∈ clause, Holds μ t

def HoldsDNF (μ : Model F B T V) (dnf : List (List (Condition F B T))) : Prop := ∃ clause ∈ dnf, HoldsClause μ clause

variable {μ : Model F B T V}

@[simp] theorem holdsClause_nil : HoldsClause μ [] := by simp [HoldsClause]

@[simp] theorem holdsClause_cons {t : Condition F B T} {clause : List (Condition F B T)} :
    HoldsClause μ (t :: clause) ↔ Holds μ t ∧ HoldsClause μ clause := by simp [HoldsClause]

@[simp] theorem holdsClause_append {c1 c2 : List (Condition F B T)} :
    HoldsClause μ (c1 ++ c2) ↔ HoldsClause μ c1 ∧ HoldsClause μ c2 := List.forall_mem_append

@[simp] theorem holdsClause_reverse {clause : List (Condition F B T)} :
    HoldsClause μ clause.reverse ↔ HoldsClause μ clause := by simp [HoldsClause]

@[simp] theorem holdsDNF_nil : ¬ HoldsDNF μ [] := by simp [HoldsDNF]

@[simp] theorem holdsDNF_cons {c : List (Condition F B T)} {d : List (List (Condition F B T))} :
    HoldsDNF μ (c :: d) ↔ HoldsClause μ c ∨ HoldsDNF μ d := by simp [HoldsDNF]

@[simp] theorem holdsDNF_append {d1 d2 : List (List (Condition F B T))} :
    HoldsDNF μ (d1 ++ d2) ↔ HoldsDNF μ d1 ∨ HoldsDNF μ d2 := by
  simp only [HoldsDNF,List.mem_append,or_and_right,exists_or]

@[simp] theorem holdsDNF_reverse {d : List (List (Condition F B T))} : HoldsDNF μ d.reverse ↔ HoldsDNF μ d := by
  simp [HoldsDNF]

theorem oppositeRel_holds (r : Relation) (x y : V) : (oppositeRel r).Holds x y ↔ ¬ r.Holds x y := by
  cases r <;> simp [oppositeRel,Relation.Holds]

theorem mem_composeDNF {d1 d2 : List (List (Condition F B T))} {cl : List (Condition F B T)} :
    cl ∈ composeDNF d1 d2 ↔ ∃ c1 ∈ d1, ∃ c2 ∈ d2, c1 ++ c2 = cl := by
  have hgen : ∀ acc, cl ∈ d1.foldl (fun lclause clauses1 => d2.map (clauses1 ++ ·) ++ lclause) acc ↔
      cl ∈ acc ∨ ∃ c1 ∈ d1, ∃ c2 ∈ d2, c1 ++ c2 = cl := by
    induction d1 with
    | nil => simp
    | cons c1 d1 ih =>
      intro acc
      rw [List.foldl_cons,ih,List.mem_append,List.mem_map,List.exists_mem_cons_iff,or_assoc,or_left_comm]
  rw [composeDNF,List.mem_reverse,hgen]
  simp

theorem holds_composeDNF {d1 d2 : List (List (Condition F B T))} :
    HoldsDNF μ (composeDNF d1 d2) ↔ HoldsDNF μ d1 ∧ HoldsDNF μ d2 := by
  constructor
  · rintro ⟨cl,hcl,h⟩
    obtain ⟨c1,h1,c2,h2,rfl⟩ := (mem_composeDNF).mp hcl
    rw [holdsClause_append] at h
    exact ⟨⟨c1,h1,h.1⟩,c2,h2,h.2⟩
  · rintro ⟨⟨c1,h1,hc1⟩,c2,h2,hc2⟩
    exact ⟨c1 ++ c2,(mem_composeDNF).mpr ⟨c1,h1,c2,h2,rfl⟩,(holdsClause_append).mpr ⟨hc1,hc2⟩⟩

theorem holds_condToDNF (c : Condition F B T) :
    (HoldsDNF μ (condToDNF c) ↔ Holds μ c) ∧ (HoldsDNF μ (condNotToDNF c) ↔ ¬ Holds μ c) := by
  induction c with
  | or c1 c2 ih1 ih2 =>
    simp only [condToDNF,condNotToDNF,holdsDNF_append,holds_composeDNF,ih1,ih2,Holds,not_or,true_and]
  | and c1 c2 ih1 ih2 =>
    simp only [condToDNF,condNotToDNF,holdsDNF_append,holds_composeDNF,ih1,ih2,Holds,not_and_or,true_and]
  | not c ih => simp only [condToDNF,condNotToDNF,ih,Holds,not_not,true_and]
  | call kf b => simp [condToDNF,condNotToDNF,Holds]
  | ret kf => simp [condToDNF,condNotToDNF,Holds]
  | true => simp [condToDNF,condNotToDNF,Holds]
  | false => simp [condToDNF,condNotToDNF,Holds]
  | rel r t1 t2 => simp [condToDNF,condNotToDNF,Holds,oppositeRel_holds]

def IsTerm (t : Condition F B T) : Prop := ∃ t', negativeTerm t = .ok t'

theorem condToDNF_terms (c : Condition F B T) :
    (∀ cl ∈ condToDNF c, ∀ t ∈ cl, IsTerm t) ∧ ∀ cl ∈ condNotToDNF c, ∀ t ∈ cl, IsTerm t := by
  have hcomp : ∀ {d1 d2 : List (List (Condition F B T))}, (∀ cl ∈ d1, ∀ t ∈ cl, IsTerm t) →
      (∀ cl ∈ d2, ∀ t ∈ cl, IsTerm t) → ∀ cl ∈ composeDNF d1 d2, ∀ t ∈ cl, IsTerm t := by
    intro d1 d2 h1 h2 cl hcl t ht
    obtain ⟨c1,hc1,c2,hc2,rfl⟩ := (mem_composeDNF).mp hcl
    rcases List.mem_append.mp ht with ht | ht
    · exact h1 c1 hc1 t ht
    · exact h2 c2 hc2 t ht
  have happ : ∀ {d1 d2 : List (List (Condition F B T))}, (∀ cl ∈ d1, ∀ t ∈ cl, IsTerm t) →
      (∀ cl ∈ d2, ∀ t ∈ cl, IsTerm t) → ∀ cl ∈ d1 ++ d2, ∀ t ∈ cl, IsTerm t := by
    intro d1 d2 h1 h2 cl hcl
    rcases List.mem_append.mp hcl with hcl | hcl
    · exact h1 cl hcl
    · exact h2 cl hcl
  induction c with
  | or c1 c2 ih1 ih2 => exact ⟨happ ih1.1 ih2.1,hcomp ih1.2 ih2.2⟩
  | and c1 c2 ih1 ih2 => exact ⟨hcomp ih1.1 ih2.1,happ ih1.2 ih2.2⟩
  | not c ih => exact ⟨ih.2,ih.1⟩
  | call kf b => simp [condToDNF,condNotToDNF,IsTerm,negativeTerm]
  | ret kf => simp [condToDNF,condNotToDNF,IsTerm,negativeTerm]
  | true => simp [condToDNF,condNotToDNF,IsTerm,negativeTerm]
  | false => simp [condToDNF,condNotToDNF,IsTerm,negativeTerm]
  | rel r t1 t2 => simp [condToDNF,condNotToDNF,IsTerm,negativeTerm]

end Semantics

section Positive
variable {F B T V : Type} [DecidableEq F] [DecidableEq B] [LinearOrder V]

def eventOf : Condition F B T → Option (FuncStatus × F)
  | .call kf _ => some (.call,kf)
  | .ret kf => some (.ret,kf)
  | _ => none

def Conflicting (clause : List (Condition F B T)) : Prop :=
  ∃ t1 ∈ clause, ∃ t2 ∈ clause, ∃ e1 e2, eventOf t1 = some e1 ∧ eventOf t2 = some e2 ∧ e1 ≠ e2

/-- The clauses that do not ask at once for a call and for a behaviour of the same function, positively or negatively,
unless they ask for another event too. -/
def GoodClause (clause : List (Condition F B T)) : Prop :=
  Conflicting clause ∨ ∀ kf b, .call kf none ∈ clause → .call kf (some b) ∉ clause ∧ .not (.call kf (some b)) ∉ clause

/-- What the event of a term says of the event of a model in which the term holds. -/
def Event.key : Event F B → FuncStatus × F
  | .call kf _ => (.call,kf)
  | .ret kf => (.ret,kf)

omit [DecidableEq F] [DecidableEq B] in
theorem key_of_holds {μ : Model F B T V} {t : Condition F B T} {e : FuncStatus × F} (he : eventOf t = some e)
    (h : Holds μ t) : μ.event.key = e := by
  cases t with
  | call kf b =>
    cases he
    cases b with
    | none =>
      obtain ⟨active,ha⟩ := h
      rw [ha]
      rfl
    | some b =>
      obtain ⟨active,ha,_⟩ := h
      rw [ha]
      rfl
  | ret kf =>
    cases he
    have h : μ.event = .ret kf := h
    rw [h]
    rfl
  | _ => cases he

omit [DecidableEq F] [DecidableEq B] in
theorem Conflicting.not_holds {clause : List (Condition F B T)} (h : Conflicting clause) (μ : Model F B T V) :
    ¬ HoldsClause μ clause := by
  obtain ⟨t1,h1,t2,h2,e1,e2,he1,he2,hne⟩ := h
  intro hall
  exact hne ((key_of_holds he1 (hall t1 h1)).symm.trans (key_of_holds he2 (hall t2 h2)))

theorem removeTerm_subset (term : Condition F B T) (l : List (Condition F B T)) : ∀ t ∈ removeTerm term l, t ∈ l := by
  have hgen : ∀ acc, ∀ t ∈ l.foldl (fun treated t => if isRemoved term t then treated else t :: treated) acc,
      t ∈ acc ∨ t ∈ l := by
    induction l with
    | nil => simp
    | cons x l ih =>
      intro acc t ht
      rw [List.foldl_cons] at ht
      rcases ih _ t ht with h | h
      · split at h
        · exact Or.inl h
        · rcases List.mem_cons.mp h with rfl | h
          · exact Or.inr List.mem_cons_self
          · exact Or.inl h
      · exact Or.inr (List.mem_cons_of_mem x h)
  intro t ht
  exact (hgen [] t ht).resolve_left List.not_mem_nil

/-- The invariant of the first step: the positive term is kept and has the event of all the terms met, and the terms kept
are equivalent to the terms met unless the clause has a call and a behaviour of the same function. -/
structure PositiveInv (V : Type) [LinearOrder V] (clause pre : List (Condition F B T))
    (res : Option (Condition F B T) × List (Condition F B T)) : Prop where
  events : ∀ t ∈ pre, ∀ e, eventOf t = some e → ∃ q, res.1 = some q ∧ eventOf q = some e
  kept : ∀ q, res.1 = some q → q ∈ res.2 ∧ (eventOf q).isSome
  subset : ∀ t ∈ res.2, t ∈ pre
  holds : (∀ kf b, .call kf none ∈ clause → .call kf (some b) ∉ clause) →
    ∀ μ : Model F B T V, HoldsClause μ res.2 ↔ HoldsClause μ pre

section Step
variable {clause pre post : List (Condition F B T)} {res : Option (Condition F B T) × List (Condition F B T)}
  {c : Condition F B T}

omit [DecidableEq F] [DecidableEq B] in
theorem PositiveInv.add (h : PositiveInv V clause pre res) {p : Option (Condition F B T)}
    (hp : p = res.1 ∧ (∀ e, eventOf c = some e → ∃ q, res.1 = some q ∧ eventOf q = some e) ∨
      res.1 = none ∧ p = some c ∧ (eventOf c).isSome) : PositiveInv V clause (pre ++ [c]) (p,c :: res.2) := by
  refine ⟨?_,?_,?_,?_⟩
  · intro t ht e he
    rcases hp with ⟨rfl,hc⟩ | ⟨hnone,rfl,_⟩
    · rcases List.mem_append.mp ht with ht | ht
      · exact h.events t ht e he
      · rw [List.mem_singleton] at ht
        subst ht
        exact hc e he
    · rcases List.mem_append.mp ht with ht | ht
      · obtain ⟨q,hq,_⟩ := h.events t ht e he
        rw [hnone] at hq
        cases hq
      · rw [List.mem_singleton] at ht
        subst ht
        exact ⟨t,rfl,he⟩
  · intro q hq
    rcases hp with ⟨rfl,_⟩ | ⟨_,rfl,hs⟩
    · exact ⟨List.mem_cons_of_mem c (h.kept q hq).1,(h.kept q hq).2⟩
    · cases hq
      exact ⟨List.mem_cons_self,hs⟩
  · intro t ht
    rcases List.mem_cons.mp ht with rfl | ht
    · simp
    · exact List.mem_append_left [c] (h.subset t ht)
  · intro hgood μ
    rw [holdsClause_cons,holdsClause_append,h.holds hgood μ,holdsClause_cons]
    simp [and_comm]

omit [DecidableEq F] [DecidableEq B] in
theorem PositiveInv.drop (h : PositiveInv V clause pre res) {q : Condition F B T} (hq : res.1 = some q)
    (he : eventOf c = eventOf q)
    (himp : (∀ kf b, .call kf none ∈ clause → .call kf (some b) ∉ clause) → ∀ μ : Model F B T V, Holds μ q → Holds μ c) :
    PositiveInv V clause (pre ++ [c]) res := by
  refine ⟨?_,h.kept,?_,?_⟩
  · intro t ht e he'
    rcases List.mem_append.mp ht with ht | ht
    · exact h.events t ht e he'
    · rw [List.mem_singleton] at ht
      subst ht
      exact ⟨q,hq,he.symm.trans he'⟩
  · intro t ht
    exact List.mem_append_left [c] (h.subset t ht)
  · intro hgood μ
    rw [holdsClause_append,holdsClause_cons,← h.holds hgood μ]
    constructor
    · intro hall
      exact ⟨hall,himp hgood μ (hall q (h.kept q hq).1),holdsClause_nil⟩
    · exact fun hall => hall.1

end Step

theorem positiveStep_sat {clause pre post : List (Condition F B T)}
    {res : Option (Condition F B T) × List (Condition F B T)} {c : Condition F B T} (hl : clause = pre ++ c :: post)
    (h : PositiveInv V clause pre res) :
    Sat (PositiveInv V clause (pre ++ [c])) (fun e => e = .exit ∧ Conflicting clause) (positiveStep res c) := by
  have hc : c ∈ clause := by simp [hl]
  have hmem : ∀ q, res.1 = some q → q ∈ clause := by
    intro q hq
    rw [hl]
    exact List.mem_append_left _ (h.subset q (h.kept q hq).1)
  have hconf : ∀ {q e1 e2}, res.1 = some q → eventOf c = some e1 → eventOf q = some e2 → e1 ≠ e2 → Conflicting clause :=
    fun hq h1 h2 hne => ⟨c,hc,_,hmem _ hq,_,_,h1,h2,hne⟩
  have hfirst : res.1 = none → (eventOf c).isSome → PositiveInv V clause (pre ++ [c]) (some c,c :: res.2) :=
    fun hnone hs => h.add (Or.inr ⟨hnone,rfl,hs⟩)
  have hother : eventOf c = none → PositiveInv V clause (pre ++ [c]) (res.1,c :: res.2) := by
    intro hnone
    refine h.add (Or.inl ⟨rfl,?_⟩)
    intro e he
    rw [hnone] at he
    cases he
  have hkind : ∀ q, res.1 = some q → (∃ kf b, q = .call kf b) ∨ ∃ kf, q = .ret kf := by
    intro q hq
    have hs := (h.kept q hq).2
    cases q with
    | call kf b => exact Or.inl ⟨kf,b,rfl⟩
    | ret kf => exact Or.inr ⟨kf,rfl⟩
    | _ => cases hs
  obtain ⟨p,treated⟩ := res
  cases c with
  | call kf1 b1 =>
    cases p with
    | none => cases b1 <;> exact hfirst rfl rfl
    | some q =>
      rcases hkind q rfl with ⟨kf2,b2,rfl⟩ | ⟨kf2,rfl⟩
      · by_cases hkf : kf1 = kf2
        · subst hkf
          cases b1 with
          | none =>
            cases b2 with
            | none =>
              simp only [positiveStep,if_pos]
              exact h.drop rfl rfl fun _ _ hq => hq
            | some b2 =>
              simp only [positiveStep,if_pos]
              refine ⟨?_,?_,?_,fun hgood => absurd (hmem _ rfl) (hgood kf1 b2 hc)⟩
              · intro t ht e he
                rcases List.mem_append.mp ht with ht | ht
                · obtain ⟨q,hq,hqe⟩ := h.events t ht e he
                  cases hq
                  exact ⟨_,rfl,hqe⟩
                · rw [List.mem_singleton] at ht
                  subst ht
                  exact ⟨_,rfl,he⟩
              · rintro q ⟨⟩
                exact ⟨List.mem_cons_self,rfl⟩
              · intro t ht
                rcases List.mem_cons.mp ht with rfl | ht
                · simp
                · exact List.mem_append_left _ (h.subset t (removeTerm_subset _ _ t ht))
          | some b1 =>
            cases b2 with
            | none =>
              simp only [positiveStep,if_pos]
              exact h.drop rfl rfl fun hgood => absurd hc (hgood kf1 b1 (hmem _ rfl))
            | some b2 =>
              by_cases hb : b1 = b2
              · subst hb
                simp only [positiveStep,if_pos]
                exact h.drop rfl rfl fun _ _ hq => hq
              · simp only [positiveStep,if_pos,if_neg hb]
                exact h.add (Or.inl ⟨rfl,fun e he => ⟨_,rfl,he⟩⟩)
        · have hexit : positiveStep (some (.call kf2 b2),treated) (.call kf1 b1) = .error .exit := by
            cases b1 <;> cases b2 <;> simp [positiveStep,hkf]
          rw [hexit]
          exact ⟨rfl,hconf rfl rfl rfl (by simp [hkf])⟩
      · have hexit : positiveStep (some (.ret kf2),treated) (.call kf1 b1) = .error .exit := by
          cases b1 <;> rfl
        rw [hexit]
        exact ⟨rfl,hconf rfl rfl rfl (by simp)⟩
  | ret kf1 =>
    cases p with
    | none => exact hfirst rfl rfl
    | some q =>
      rcases hkind q rfl with ⟨kf2,b2,rfl⟩ | ⟨kf2,rfl⟩
      · exact ⟨rfl,hconf rfl rfl rfl (by simp)⟩
      · by_cases hkf : kf1 = kf2
        · subst hkf
          simp only [positiveStep,if_pos]
          exact h.drop rfl rfl fun _ _ hq => hq
        · simp only [positiveStep,if_neg hkf]
          exact ⟨rfl,hconf rfl rfl rfl (by simp [hkf])⟩
  | _ => exact hother rfl

theorem isKept_sat {q : Condition F B T} (hq : (eventOf q).isSome) (term : Condition F B T) :
    Sat (fun keep => keep = false → term ≠ q ∧ ∀ μ : Model F B T V, Holds μ q → Holds μ term)
      (fun e => e = .exit ∧ ((∀ kf b, q = .call kf none → term ≠ .not (.call kf (some b))) →
        ∀ μ : Model F B T V, Holds μ q → ¬ Holds μ term)) (isKept q term) := by
  -- the negation of a term of another event follows from the positive term
  have hneg : ∀ {t : Condition F B T} {e1 e2}, eventOf q = some e1 → eventOf t = some e2 → e1 ≠ e2 →
      ∀ μ : Model F B T V, Holds μ q → Holds μ (.not t) := by
    intro t e1 e2 h1 h2 hne μ hqμ htμ
    exact hne ((key_of_holds h1 hqμ).symm.trans (key_of_holds h2 htμ))
  -- a term that is not a negated event is kept, and the positive term is not one
  cases q with
  | call kf1 b1 =>
    cases term with
    | not t =>
      cases t with
      | call kf2 b2 =>
        by_cases hkf : kf1 = kf2
        · subst hkf
          cases b1 with
          | none =>
            simp only [isKept,if_pos]
            refine ⟨rfl,?_⟩
            intro hgood μ hq hn
            cases b2 with
            | none => exact hn hq
            | some b2 => exact hgood kf1 b2 rfl rfl
          | some b1 =>
            cases b2 with
            | none =>
              simp only [isKept,if_pos]
              refine ⟨rfl,?_⟩
              rintro _ μ ⟨active,ha,_⟩ hn
              exact hn ⟨active,ha⟩
            | some b2 =>
              by_cases hb : b1 = b2
              · subst hb
                simp only [isKept,if_pos]
                exact ⟨rfl,fun _ μ hq hn => hn hq⟩
              · simp only [isKept,if_pos,if_neg hb]
                exact fun h => absurd h (by simp)
        · have hdrop : isKept (.call kf1 b1) (.not (.call kf2 b2) : Condition F B T) = .ok false := by
            cases b1 <;> cases b2 <;> simp [isKept,hkf]
          rw [hdrop]
          exact fun _ => ⟨by simp,hneg rfl rfl (by simp [hkf])⟩
      | ret kf2 =>
        have hdrop : isKept (.call kf1 b1) (.not (.ret kf2) : Condition F B T) = .ok false := by
          cases b1 <;> rfl
        rw [hdrop]
        exact fun _ => ⟨by simp,hneg rfl rfl (by simp)⟩
      | _ => cases b1 <;> exact fun h => absurd h (by simp)
    | _ => cases b1 <;> exact fun h => absurd h (by simp)
  | ret kf1 =>
    cases term with
    | not t =>
      cases t with
      | call kf2 b2 => exact fun _ => ⟨by simp,hneg rfl rfl (by simp)⟩
      | ret kf2 =>
        by_cases hkf : kf1 = kf2
        · subst hkf
          simp only [isKept,if_pos]
          exact ⟨rfl,fun _ μ hq hn => hn hq⟩
        · simp only [isKept,if_neg hkf]
          exact fun _ => ⟨by simp,hneg rfl rfl (by simp [hkf])⟩
      | _ => exact fun h => absurd h (by simp)
    | _ => exact fun h => absurd h (by simp)
  | _ => cases hq

theorem keep_sat {q : Condition F B T} {cp : List (Condition F B T)} (hq : (eventOf q).isSome) (hmem : q ∈ cp) :
    Sat (fun res => (∀ t ∈ res, t ∈ cp) ∧ ∀ μ : Model F B T V, HoldsClause μ res ↔ HoldsClause μ cp)
      (fun e => e = .exit ∧ ((∀ kf b, q = .call kf none → .not (.call kf (some b)) ∉ cp) →
        ∀ μ : Model F B T V, ¬ HoldsClause μ cp)) (cp.foldlM (keepStep q) []) := by
  have hfold : Sat (fun res => (∀ t ∈ res, t ∈ cp) ∧ (q ∈ cp → q ∈ res) ∧
        ∀ μ : Model F B T V, Holds μ q → (HoldsClause μ res ↔ HoldsClause μ cp))
      (fun e => e = .exit ∧ ((∀ kf b, q = .call kf none → .not (.call kf (some b)) ∉ cp) →
        ∀ μ : Model F B T V, ¬ HoldsClause μ cp)) (cp.foldlM (keepStep q) []) := by
    refine Sat.foldlM_prefix (P := fun pre res => (∀ t ∈ res, t ∈ pre) ∧ (q ∈ pre → q ∈ res) ∧
        ∀ μ : Model F B T V, Holds μ q → (HoldsClause μ res ↔ HoldsClause μ pre)) ⟨by simp,by simp,by simp⟩ ?_
    rintro pre c post res hl _ ⟨hsub,hqin,hholds⟩
    unfold keepStep
    refine Sat.bind ((isKept_sat (V := V) hq c).mono (fun _ h => h) ?_) fun keep hkeep => ?_
    · rintro e ⟨he,hcontra⟩
      refine ⟨he,fun hgood μ hall => ?_⟩
      refine hcontra ?_ μ (hall q hmem) (hall c (by simp [hl]))
      rintro kf b hqc rfl
      exact hgood kf b hqc (by simp [hl])
    · cases keep with
      | true =>
        refine ⟨?_,?_,?_⟩
        · intro t ht
          rcases List.mem_cons.mp ht with rfl | ht
          · simp
          · exact List.mem_append_left _ (hsub t ht)
        · intro hin
          rcases List.mem_append.mp hin with hin | hin
          · exact List.mem_cons_of_mem c (hqin hin)
          · rw [List.mem_singleton] at hin
            exact hin ▸ List.mem_cons_self
        · intro μ hqμ
          rw [holdsClause_cons,holdsClause_append,holdsClause_cons,hholds μ hqμ]
          simp [and_comm]
      | false =>
        obtain ⟨hne,himp⟩ := hkeep rfl
        refine ⟨fun t ht => List.mem_append_left _ (hsub t ht),?_,?_⟩
        · intro hin
          rcases List.mem_append.mp hin with hin | hin
          · exact hqin hin
          · rw [List.mem_singleton] at hin
            exact absurd hin.symm hne
        · intro μ hqμ
          rw [holdsClause_append,holdsClause_cons,hholds μ hqμ]
          simp [himp μ hqμ]
  refine hfold.mono ?_ fun _ h => h
  rintro res ⟨hsub,hqin,hholds⟩
  refine ⟨hsub,fun μ => ⟨fun h => ?_,fun h => ?_⟩⟩
  · exact (hholds μ (h q (hqin hmem))).1 h
  · exact (hholds μ (h q hmem)).2 h

theorem catchExit_returns {α : Type} {P : α → Prop} {body : Except Exn α} {handler : α}
    (h : Sat P (fun e => e = .exit ∧ P handler) body) : ∃ a, catchExit body handler = .ok a ∧ P a := by
  cases body with
  | ok a => exact ⟨a,rfl,h⟩
  | error e =>
    obtain ⟨rfl,hP⟩ := h
    exact ⟨handler,rfl,hP⟩

theorem positiveCallOrRet_spec (clause : List (Condition F B T)) : ∃ res, positiveCallOrRet clause = .ok res ∧
    (∀ t ∈ res, t ∈ clause ∨ t = .false) ∧
    (GoodClause clause → ∀ μ : Model F B T V, HoldsClause μ res ↔ HoldsClause μ clause) := by
  refine catchExit_returns (P := fun res => (∀ t ∈ res, t ∈ clause ∨ t = .false) ∧
    (GoodClause clause → ∀ μ : Model F B T V, HoldsClause μ res ↔ HoldsClause μ clause)) ?_
  have hfalse : (GoodClause clause → ∀ μ : Model F B T V, ¬ HoldsClause μ clause) →
      (∀ t ∈ [(.false : Condition F B T)], t ∈ clause ∨ t = .false) ∧
      (GoodClause clause → ∀ μ : Model F B T V, HoldsClause μ [.false] ↔ HoldsClause μ clause) := by
    intro h
    refine ⟨by simp,fun hg μ => ?_⟩
    rw [holdsClause_cons]
    exact ⟨fun hf => hf.1.elim,fun hc => absurd hc (h hg μ)⟩
  have hfold : Sat (PositiveInv V clause clause) (fun e => e = .exit ∧ Conflicting clause)
      (clause.foldlM positiveStep (none,[])) := by
    refine Sat.foldlM_prefix (P := PositiveInv V clause) ⟨by simp,by simp,by simp,by simp⟩ ?_
    intro pre c post res hl _ hinv
    exact positiveStep_sat hl hinv
  refine Sat.bind (hfold.mono (fun _ h => h) ?_) ?_
  · rintro e ⟨he,hconf⟩
    exact ⟨he,hfalse fun _ μ => hconf.not_holds μ⟩
  · rintro ⟨p,treated⟩ hinv
    -- the clause has no conflict, since its events are the one of the positive term
    have hstrict : GoodClause clause →
        ∀ kf b, .call kf none ∈ clause → .call kf (some b) ∉ clause ∧ .not (.call kf (some b)) ∉ clause := by
      rintro (⟨t1,h1,t2,h2,e1,e2,he1,he2,hne⟩ | h)
      · obtain ⟨q1,hq1,hqe1⟩ := hinv.events t1 h1 e1 he1
        obtain ⟨q2,hq2,hqe2⟩ := hinv.events t2 h2 e2 he2
        rw [hq1] at hq2
        cases hq2
        rw [hqe1] at hqe2
        cases hqe2
        exact absurd rfl hne
      · exact h
    have hholds : GoodClause clause → ∀ μ : Model F B T V, HoldsClause μ treated.reverse ↔ HoldsClause μ clause := by
      intro hg μ
      rw [holdsClause_reverse]
      exact hinv.holds (fun kf b hc => (hstrict hg kf b hc).1) μ
    have hsub : ∀ t ∈ treated.reverse, t ∈ clause := fun t ht => hinv.subset t (List.mem_reverse.mp ht)
    cases p with
    | none => exact ⟨fun t ht => Or.inl (hsub t ht),hholds⟩
    | some q =>
      obtain ⟨hqt,hqe⟩ := hinv.kept q rfl
      have hqr : q ∈ treated.reverse := List.mem_reverse.mpr hqt
      refine Sat.bind ((keep_sat (V := V) hqe hqr).mono (fun _ h => h) ?_) ?_
      · rintro e ⟨he,hcontra⟩
        refine ⟨he,hfalse fun hg μ hall => ?_⟩
        refine hcontra ?_ μ ((hholds hg μ).2 hall)
        rintro kf b rfl hn
        exact (hstrict hg kf b (hsub _ hqr)).2 (hsub _ hn)
      · rintro res ⟨hres,hequiv⟩
        refine ⟨fun t ht => Or.inl (hsub t (hres t (List.mem_reverse.mp ht))),fun hg μ => ?_⟩
        rw [holdsClause_reverse,hequiv μ]
        exact hholds hg μ

end Positive

end FramaC.Aorai
