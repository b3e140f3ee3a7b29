import FramaC.Equality.Runs

/-! # Kills in the equality domain

`kill` on states whose equalities are the sets of `equality.ml`. The terms of the dependencies are lvalues; a term of the
sets is one when `isLval` holds.
-/
namespace FramaC.EqualityDomain

set_option linter.unusedSectionVars false

open Equality Classes

variable {E B I : Type} [DecidableEq E] [DecidableEq B] [IntervalsDiff I]

def toLval (T : Terms E) (e : E) : Option {e : E // T.isLval e = true} :=
  if h : T.isLval e = true then some ⟨e,h⟩ else none

theorem toLval_of_isLval {T : Terms E} {e : E} (h : T.isLval e = true) : toLval T e = some ⟨e,h⟩ := dif_pos h

/-- In every run whose joins are of sides that list the terms for each other the inverse map is complete, the search
returns exactly the terms whose zone meets the given one, and `kill` leaves no equality on such an lvalue, its zone being
the one of the state or, for a join, the one of either side. -/
theorem deps_complete {T : Terms E} (hT : KeepsExpressions T) :
    (∀ d : Deps E B I, Reach Deps.Listed d →
      (∀ e z, d.m e = some z → ∀ b ∈ z.bases, e ∈ d.i b) ∧
      ∀ z e, e ∈ d.intersects z ↔ ∃ ze, d.m e = some ze ∧ z.intersects ze = true) ∧
    (∀ d1 d2 : Deps E B I, Reach Deps.Listed d1 → Reach Deps.Listed d2 →
      ((d1.join d2).Complete ↔ Deps.Listed d1 d2)) ∧
    (∀ (kt : KillType) (z : Zone B I) (s : State (Map E) E B I), Reach Deps.Listed s.deps →
      Partition s.equalities.findOption →
      ((∀ e ze, s.deps.m e = some ze → T.isLval e = true) →
        ∃ s', State.kill (equalitySet T) (toLval T) .modified (some z) s = some s') ∧
      ∀ s', State.kill (equalitySet T) (toLval T) kt (some z) s = some s' → Reach Deps.Listed s'.deps ∧
        ∀ e ze, s.deps.m e = some ze → z.intersects ze = true → T.isLval e = true →
          ∀ x, e ∉ s'.equalities.findOption x) ∧
    ∀ (kt : KillType) (z : Zone B I) (s1 s2 s' : State (Map E) E B I),
      Reach Deps.Listed s1.deps → Reach Deps.Listed s2.deps →
      Partition s1.equalities.findOption → Partition s2.equalities.findOption →
      Deps.Listed (s1.kept (equalitySet T) (inter s1.equalities s2.equalities))
        (s2.kept (equalitySet T) (inter s1.equalities s2.equalities)) →
      State.kill (equalitySet T) (toLval T) kt (some z) (State.join (equalitySet T) s1 s2) = some s' →
      ∀ e z1 z2, (s1.kept (equalitySet T) (inter s1.equalities s2.equalities)).m e = some z1 →
        (s2.kept (equalitySet T) (inter s1.equalities s2.equalities)).m e = some z2 →
        z.intersects z1 = true ∨ z.intersects z2 = true → T.isLval e = true →
        ∀ x, e ∉ s'.equalities.findOption x := by
  have hq := equalitySet_lawful hT
  refine ⟨?_,?_,?_,?_⟩
  · intro d h
    exact ⟨h.complete,fun z e => h.complete.mem_intersects_iff z e⟩
  · intro d1 d2 h1 h2
    exact Deps.complete_join_iff h1.complete h2.complete
  · intro kt z s h hp
    have hmem := h.complete.mem_intersects_iff z
    constructor
    · intro hlval
      apply kill_some hq hp
      · intro a m hm
        have ha : Apart .modified a.1 m := by
          intro hk
          cases hk
        obtain ⟨m',hm',_⟩ := remove_spec T hm ha
        exact ⟨m',hm'⟩
      · intro e he
        obtain ⟨ze,hze,_⟩ := (hmem e).1 he
        exact ⟨_,toLval_of_isLval (hlval e ze hze)⟩
    · intro s' hk
      refine ⟨h.kill hk,?_⟩
      intro e ze hze hmeet hlval x hx
      exact kill_removes hq hp hk ((hmem e).2 ⟨ze,hze,hmeet⟩) (toLval_of_isLval hlval) ⟨x,hx⟩
  · intro kt z s1 s2 s' h1 h2 hp1 hp2 hl hk e z1 z2 hz1 hz2 hmeet hlval x hx
    have hc : (State.join (equalitySet T) s1 s2).deps.Complete :=
      (Deps.complete_join_iff (h1.removeAll _).complete (h2.removeAll _).complete).2 hl
    have hp : Partition (State.join (equalitySet T) s1 s2).equalities.findOption := by
      have hinter := findOption_inter s1.equalities s2.equalities
      have heq : (State.join (equalitySet T) s1 s2).equalities = inter s1.equalities s2.equalities := rfl
      rw [heq,hinter]
      exact hp1.meet hp2
    refine kill_removes hq hp hk ?_ (toLval_of_isLval hlval) ⟨x,hx⟩
    apply (hc.mem_intersects_iff z e).2
    exact ⟨z1.join z2,Deps.join_m_eq_some.2 ⟨z1,z2,hz1,hz2,rfl⟩,(Zone.intersects_join_iff z z1 z2).2 hmeet⟩

instance bitIntervals : IntervalsDiff (Finset ℕ) where
  join a b := a ∪ b
  intersects a b := decide (a ∩ b).Nonempty
  intersects_join x a b := by
    rw [Bool.eq_iff_iff,Bool.or_eq_true,decide_eq_true_iff,decide_eq_true_iff,decide_eq_true_iff,
      Finset.inter_union_distrib_left,Finset.union_nonempty]
  diff a b := if a ⊆ b then none else some (a \ b)

def firstByte (b : ℕ) : Zone ℕ (Finset ℕ) := ⟨[b],fun _ => {0}⟩

/-- A state where two lvalues are equal and the first one denotes the first byte of a base. -/
def pointsTo (lv lv' : Fin 8) (b : ℕ) : State (Map (Fin 8)) (Fin 8) ℕ (Finset ℕ) :=
  ⟨unite eightTerms lv emptyLvalues lv' emptyLvalues Map.empty,Deps.empty.add lv (firstByte b),
    some ⟨[],fun _ => ∅⟩⟩

theorem eightTerms_keepsExpressions : KeepsExpressions eightTerms := by
  intro kind late heir e e' h
  cases h

theorem deps_complete_same_base : ∃ s',
    State.kill (equalitySet eightTerms) (toLval eightTerms) .modified (some (firstByte 1)) (pointsTo 0 5 1) = some s' ∧
      0 ∉ s'.equalities.findOption 5 := by
  have hreach : Reach Deps.Listed (pointsTo 0 5 1).deps := Reach.add _ _ _ Reach.empty
  have hp : Partition (pointsTo 0 5 1).equalities.findOption := unite_partition eightTerms partition_empty 0 _ 5 _
  have h := (deps_complete eightTerms_keepsExpressions).2.2.1 .modified (firstByte 1) (pointsTo 0 5 1) hreach hp
  have hlval : ∀ e ze, (pointsTo 0 5 1).deps.m e = some ze → eightTerms.isLval e = true := by
    intro e ze he
    by_cases h0 : e = 0
    · rw [h0]
      rfl
    · have hm : (pointsTo 0 5 1).deps.m e = none := Function.update_of_ne h0 ..
      rw [hm] at he
      cases he
  obtain ⟨s',hs'⟩ := h.1 hlval
  exact ⟨s',hs',(h.2 s' hs').2 0 (firstByte 1) rfl (by decide) rfl 5⟩

/-- An lvalue that denotes the base 1 in one branch and 2 in the other is listed at neither after the join, and an
assignment to the base 1 leaves its equality. -/
theorem deps_join_not_complete : ∃ d : Deps (Fin 8) ℕ (Finset ℕ), Reach (fun _ _ => True) d ∧
    d = (State.join (equalitySet eightTerms) (pointsTo 0 5 1) (pointsTo 0 5 2)).deps ∧
    (∃ z, d.m 0 = some z ∧ 1 ∈ z.bases ∧ 0 ∉ d.i 1 ∧ (firstByte 1).intersects z = true ∧
      0 ∉ d.intersects (firstByte 1)) ∧
    ∃ s', State.kill (equalitySet eightTerms) (toLval eightTerms) .modified (some (firstByte 1))
      (State.join (equalitySet eightTerms) (pointsTo 0 5 1) (pointsTo 0 5 2)) = some s' ∧
      s'.equalities.findOption 0 = {0,5} := by
  refine ⟨_,?_,rfl,⟨_,rfl,?_,?_,?_,?_⟩,_,rfl,?_⟩
  · exact Reach.join _ _ (Reach.removeAll _ (Reach.add _ _ _ Reach.empty))
      (Reach.removeAll _ (Reach.add _ _ _ Reach.empty)) trivial
  all_goals decide

end FramaC.EqualityDomain
