import FramaC.Qed.Junction

/-! # Truth values of propositional terms

Truth assignments that respect the connectives, and the connectives of `term.ml` under them.
-/
set_option linter.unusedSectionVars false
namespace FramaC.Qed
open Comparison COMPARE
variable {ADT Field Fun : Type}

variable (ADT Field Fun) in
/-- A truth value for each term. The atoms are free, except that comparisons are symmetric and complementary. -/
structure Valuation where
  holds : Term ADT Field Fun → Prop
  holds_true : holds (.node .true [])
  not_holds_false : ¬ holds (.node .false [])
  holds_and : ∀ ts, holds (.node .and ts) ↔ ∀ t ∈ ts, holds t
  holds_or : ∀ ts, holds (.node .or ts) ↔ ∃ t ∈ ts, holds t
  holds_not : ∀ t, holds (.node .not [t]) ↔ ¬ holds t
  holds_imply : ∀ p hs, holds (.node .imply (p :: hs)) ↔ ((∀ h ∈ hs, holds h) → holds p)
  holds_eq_symm : ∀ x y, holds (.node .eq [x,y]) ↔ holds (.node .eq [y,x])
  holds_neq : ∀ x y, holds (.node .neq [x,y]) ↔ ¬ holds (.node .eq [x,y])
  holds_leq : ∀ x y, holds (.node .leq [x,y]) ↔ ¬ holds (.node .lt [y,x])

/-- Predicates have the given values, and no equation or strict inequality holds. -/
def truth (holds : Fun → Bool) : Term ADT Field Fun → Bool :=
  Rose.fold fun r ts =>
    match r, ts with
    | .true, _ | .neq, _ | .leq, _ => true
    | .and, ts => ts.all id
    | .or, ts => ts.any id
    | .not, [t] => !t
    | .imply, p :: hs => !hs.all id || p
    | .func f, _ => holds f
    | _, _ => false

def Valuation.ofPredicates (holds : Fun → Bool) : Valuation ADT Field Fun where
  holds t := truth holds t
  holds_true := by simp [truth]
  not_holds_false := by simp [truth]
  holds_and ts := by simp [truth]
  holds_or ts := by simp [truth]
  holds_not t := by simp [truth]
  holds_imply p hs := by
    simp only [truth,Rose.fold_node,List.map_cons,Bool.or_eq_true,Bool.not_eq_true',← Bool.not_eq_true,List.all_map]
    rw [← imp_iff_not_or,List.all_eq_true]
    rfl
  holds_eq_symm x y := by simp [truth]
  holds_neq x y := by simp [truth]
  holds_leq x y := by simp [truth]

section Representation

/-- A term over the variables of `X`. -/
def InState (X : Set (Var ADT Field)) (t : Term ADT Field Fun) : Prop :=
  Rose.Nodes (fun r n => arity r n ∧ ∀ x, r = .fvar x → x ∈ X) t

def IsAtom : Repr ADT Field Fun → Prop
  | .and | .or | .not | .imply | .bind _ _ => False
  | _ => True

inductive Propositional (X : Set (Var ADT Field)) : Term ADT Field Fun → Prop
  | and {ts} : (∀ t ∈ ts, Propositional X t) → Propositional X (.node .and ts)
  | or {ts} : (∀ t ∈ ts, Propositional X t) → Propositional X (.node .or ts)
  | not {t} : Propositional X t → Propositional X (.node .not [t])
  | imply {p hs} : Propositional X p → (∀ h ∈ hs, Propositional X h) → Propositional X (.node .imply (p :: hs))
  | atom {r ts} : IsAtom r → InState X (.node r ts) → LcClosed (.node r ts) → Propositional X (.node r ts)

theorem isState (X : Set (Var ADT Field)) (hX : X.InjOn Var.vid) :
    IsState {t : Term ADT Field Fun | InState X t} where
  closed _ ht _ hc := Rose.Nodes.child ht hc
  wellFormed _ ht := Rose.Nodes.imp (fun _ _ h => h.1) ht
  variables_inj x y hx hy := hX ((Rose.Nodes.label hx).2 x rfl) ((Rose.Nodes.label hy).2 y rfl)

namespace Propositional
variable {X : Set (Var ADT Field)} {t : Term ADT Field Fun}

theorem inState (h : Propositional X t) : InState X t := by
  induction h with
  | and _ ih => exact .node ⟨trivial,by simp⟩ ih
  | or _ ih => exact .node ⟨trivial,by simp⟩ ih
  | not _ ih => exact .node ⟨rfl,by simp⟩ (List.forall_mem_singleton.mpr ih)
  | imply _ _ ihp ihh => exact .node ⟨by simp [arity],by simp⟩ (List.forall_mem_cons.mpr ⟨ihp,ihh⟩)
  | atom _ h _ => exact h

theorem lcClosed (h : Propositional X t) : LcClosed t := by
  induction h with
  | and _ ih => exact .node (by simp) (by simp) ih
  | or _ ih => exact .node (by simp) (by simp) ih
  | not _ ih => exact .node (by simp) (by simp) (List.forall_mem_singleton.mpr ih)
  | imply _ _ ihp ihh => exact .node (by simp) (by simp) (List.forall_mem_cons.mpr ⟨ihp,ihh⟩)
  | atom _ _ h => exact h

theorem true : Propositional X (.node .true [] : Term ADT Field Fun) :=
  .atom trivial (.node ⟨rfl,by simp⟩ (by simp)) (.node (by simp) (by simp) (by simp))

theorem false : Propositional X (.node .false [] : Term ADT Field Fun) :=
  .atom trivial (.node ⟨rfl,by simp⟩ (by simp)) (.node (by simp) (by simp) (by simp))

theorem of_and {ts : List (Term ADT Field Fun)} (h : Propositional X (.node .and ts)) : ∀ t ∈ ts, Propositional X t := by
  cases h with
  | and h => exact h
  | atom h _ _ => cases h

theorem of_or {ts : List (Term ADT Field Fun)} (h : Propositional X (.node .or ts)) : ∀ t ∈ ts, Propositional X t := by
  cases h with
  | or h => exact h
  | atom h _ _ => cases h

end Propositional
end Representation

variable [DecidableEq ADT] [DecidableEq Field] [DecidableEq Fun] [Ord ADT] [FieldSymbol Field] [FunSymbol Fun]

/-- The operands of a connective all have a property, or the connective itself does not: conjunctions hold, and
disjunctions do not. -/
structure Conjoins (W : Term ADT Field Fun → Prop) (absorbant neutral connective : Repr ADT Field Fun) : Prop where
  absorbs : ¬ W (.node absorbant [])
  skips : W (.node neutral [])
  node : ∀ ts, W (.node connective ts) ↔ ∀ t ∈ ts, W t

theorem Valuation.conjoins_and (v : Valuation ADT Field Fun) : Conjoins v.holds .false .true .and :=
  ⟨v.not_holds_false,v.holds_true,v.holds_and⟩

theorem Valuation.conjoins_or (v : Valuation ADT Field Fun) : Conjoins (fun t => ¬ v.holds t) .true .false .or :=
  ⟨not_not_intro v.holds_true,v.not_holds_false,fun ts => by rw [v.holds_or]; simp⟩

def OperandsSpec (W P : Term ADT Field Fun → Prop) (ts acc : List (Term ADT Field Fun)) :
    Option (List (Term ADT Field Fun)) → Prop
  | none => ¬ ∀ t ∈ ts, W t
  | some ms => (∀ m ∈ ms, P m) ∧ ((∀ m ∈ ms, W m) ↔ (∀ t ∈ ts, W t) ∧ ∀ a ∈ acc, W a)

namespace Conjoins
variable {W P : Term ADT Field Fun → Prop} {absorbant neutral connective : Repr ADT Field Fun}

theorem foldTerms_of (ts acc : List (Term ADT Field Fun)) (hacc : ∀ a ∈ acc, P a)
    (h : ∀ t ∈ ts, ∀ acc, (∀ a ∈ acc, P a) →
      OperandsSpec W P [t] acc (foldTerm absorbant neutral connective acc t)) :
    OperandsSpec W P ts acc (foldTerms absorbant neutral connective acc ts) := by
  induction ts generalizing acc with
  | nil => exact ⟨hacc,by simp⟩
  | cons t ts ih =>
    have ht := h t (by simp) acc hacc
    rw [foldTerms_cons]
    cases hf : foldTerm absorbant neutral connective acc t with
    | none =>
      rw [hf] at ht
      exact fun hall => ht (by simpa using hall t (by simp))
    | some ms =>
      rw [hf] at ht
      obtain ⟨hms,hW⟩ := ht
      have hts := ih ms hms fun x hx => h x (by simp [hx])
      show OperandsSpec W P (t :: ts) acc (foldTerms absorbant neutral connective ms ts)
      cases hg : foldTerms absorbant neutral connective ms ts with
      | none =>
        rw [hg] at hts
        exact fun hall => hts fun x hx => hall x (by simp [hx])
      | some ns =>
        rw [hg] at hts
        refine ⟨hts.1,hts.2.trans ?_⟩
        rw [hW,List.forall_mem_singleton,List.forall_mem_cons]
        tauto

theorem foldTerm_spec (hW : Conjoins W absorbant neutral connective)
    (habsorbant : ∀ ts, P (.node absorbant ts) → ts = []) (hneutral : ∀ ts, P (.node neutral ts) → ts = [])
    (hP : ∀ ts, P (.node connective ts) → ∀ t ∈ ts, P t) {t : Term ADT Field Fun} (ht : P t)
    {acc : List (Term ADT Field Fun)} (hacc : ∀ a ∈ acc, P a) :
    OperandsSpec W P [t] acc (foldTerm absorbant neutral connective acc t) := by
  induction t using Rose.induct generalizing acc with
  | h r xs ih =>
    rw [foldTerm_node]
    split
    · next hr =>
      subst hr
      rw [habsorbant xs ht]
      exact fun hall => hW.absorbs (hall _ (by simp))
    split
    · next hr =>
      subst hr
      rw [hneutral xs ht]
      exact ⟨hacc,by simp [hW.skips]⟩
    split
    · next hr =>
      subst hr
      have hxs := foldTerms_of (W := W) xs acc hacc fun x hx acc hacc => ih x hx (hP xs ht x hx) hacc
      cases hf : foldTerms absorbant neutral r acc xs with
      | none =>
        rw [hf] at hxs
        exact fun hall => hxs ((hW.node xs).mp (hall _ (by simp)))
      | some ms =>
        rw [hf] at hxs
        refine ⟨hxs.1,hxs.2.trans ?_⟩
        rw [List.forall_mem_singleton,hW.node]
    · refine ⟨List.forall_mem_cons.mpr ⟨ht,hacc⟩,?_⟩
      rw [List.forall_mem_cons,List.forall_mem_singleton]

theorem cJunction (hW : Conjoins W absorbant neutral connective) (ts : List (Term ADT Field Fun)) :
    W (cJunction neutral connective ts) ↔ ∀ t ∈ ts, W t := by
  match ts with
  | [] => simpa [FramaC.Qed.cJunction] using hW.skips
  | [t] => simp [FramaC.Qed.cJunction]
  | t :: u :: ts => exact hW.node _

end Conjoins

/-- The function negates propositions over `X`. -/
def Negating (v : Valuation ADT Field Fun) (X : Set (Var ADT Field)) (not : Term ADT Field Fun → Term ADT Field Fun) :
    Prop :=
  ∀ p, Propositional X p → Propositional X (not p) ∧ (v.holds (not p) ↔ ¬ v.holds p)

section Soundness
variable [Std.LawfulEqOrd Field] [Std.LawfulEqOrd ADT] [Std.LawfulEqOrd Fun]
variable {v : Valuation ADT Field Fun} {X : Set (Var ADT Field)} {externNot : Term ADT Field Fun → Term ADT Field Fun}
variable {tau : Term ADT Field Fun → Option (Tau ADT Field)} {a b : Term ADT Field Fun}

theorem Propositional.eq_of_compare (hX : X.InjOn Var.vid) (ha : Propositional X a) (hb : Propositional X b)
    (h : COMPARE.compare tau a b = .eq) : a = b :=
  COMPARE.eq_of_compare tau (isState X hX) ha.inState hb.inState ha.lcClosed hb.lcClosed h

theorem holds_of_atomMin (hX : X.InjOn Var.vid) (hnot : Negating v X externNot) (ha : Propositional X a)
    (hb : Propositional X b) {a' b' : Term ADT Field Fun} (ha' : a' = a ∨ a' = externNot a)
    (hb' : b' = b ∨ b' = externNot b) (hab : a ≠ b') (hba : a' ≠ b)
    (h : COMPARE.compare tau (atomMin tau a a') (atomMin tau b b') = .eq) : v.holds a ↔ v.holds b := by
  have hmin : ∀ t u : Term ADT Field Fun, atomMin tau t u = t ∨ atomMin tau t u = u := by
    intro t u
    unfold atomMin
    split
    · exact Or.inr rfl
    · exact Or.inl rfl
  have hprop : ∀ t t' : Term ADT Field Fun, Propositional X t → (t' = t ∨ t' = externNot t) →
      Propositional X (atomMin tau t t') := by
    intro t t' ht ht'
    rcases hmin t t' with h | h <;> rw [h]
    · exact ht
    · rcases ht' with rfl | rfl
      · exact ht
      · exact (hnot t ht).1
  have heq := Propositional.eq_of_compare hX (hprop a a' ha ha') (hprop b b' hb hb') h
  rcases hmin a a' with h1 | h1 <;> rcases hmin b b' with h2 | h2 <;> rw [h1,h2] at heq
  · rw [heq]
  · exact absurd heq hab
  · exact absurd heq hba
  · rcases ha' with rfl | rfl
    · exact absurd heq hab
    rcases hb' with rfl | rfl
    · exact absurd heq hba
    rw [← not_iff_not,← (hnot a ha).2,← (hnot b hb).2,heq]

theorem ite_isProp (not : Term ADT Field Fun → Term ADT Field Fun) (t : Term ADT Field Fun) :
    (if isProp t then not t else t) = t ∨ (if isProp t then not t else t) = not t := by
  split
  · exact Or.inr rfl
  · exact Or.inl rfl

theorem holds_of_compare (hX : X.InjOn Var.vid) (hnot : Negating v X externNot) (ha : Propositional X a)
    (hb : Propositional X b) (h : compare tau externNot a b = .eq) : v.holds a ↔ v.holds b := by
  have ha' := ite_isProp externNot a
  have hb' := ite_isProp externNot b
  unfold compare at h
  dsimp only at h
  revert h ha' hb'
  generalize (if isProp a then externNot a else a) = a'
  generalize (if isProp b then externNot b else b) = b'
  intro h ha' hb'
  split at h
  · next hab => rw [hab]
  split at h
  · rw [Propositional.eq_of_compare hX ha hb h]
  · next hor => exact holds_of_atomMin hX hnot ha hb ha' hb' (fun h => hor (Or.inl h)) (fun h => hor (Or.inr h)) h

theorem holds_of_compareRaisingAbsorbant (hX : X.InjOn Var.vid) (hnot : Negating v X externNot)
    (ha : Propositional X a) (hb : Propositional X b) :
    (compareRaisingAbsorbant tau externNot a b = some .eq → (v.holds a ↔ v.holds b)) ∧
      (compareRaisingAbsorbant tau externNot a b = none → (v.holds a ↔ ¬ v.holds b)) := by
  have hraise : ∀ t u : Term ADT Field Fun, Propositional X t →
      (isProp t ∧ u = if isProp t then externNot t else t) → (v.holds u ↔ ¬ v.holds t) := by
    rintro t u ht ⟨hp,rfl⟩
    rw [if_pos hp,(hnot t ht).2]
  have hra := hraise a b ha
  have hrb := hraise b a hb
  have ha' := ite_isProp externNot a
  have hb' := ite_isProp externNot b
  unfold compareRaisingAbsorbant
  dsimp only
  revert hra hrb ha' hb'
  generalize (if isProp a then externNot a else a) = a'
  generalize (if isProp b then externNot b else b) = b'
  intro hra hrb ha' hb'
  split
  · next hab => exact ⟨fun _ => by rw [hab],fun h => by cases h⟩
  split
  · next hpa =>
    refine ⟨fun h => (by cases h),fun _ => ?_⟩
    rw [hra hpa,not_not]
  split
  · next hpb => exact ⟨fun h => (by cases h),fun _ => hrb hpb⟩
  split
  · refine ⟨fun h => ?_,fun h => by cases h⟩
    rw [Propositional.eq_of_compare hX ha hb (Option.some.inj h)]
  · next hor =>
    refine ⟨fun h => ?_,fun h => by cases h⟩
    exact holds_of_atomMin hX hnot ha hb ha' hb' (fun h => hor (Or.inl h)) (fun h => hor (Or.inr h))
      (Option.some.inj h)

variable (tau) in
theorem sortUniq_spec (hX : X.InjOn Var.vid) (hnot : Negating v X externNot) {W : Term ADT Field Fun → Prop}
    (hW : ∀ a b, (v.holds a ↔ v.holds b) → (W a ↔ W b)) (hclash : ∀ a b, (v.holds a ↔ ¬ v.holds b) → ¬ (W a ∧ W b))
    {l : List (Term ADT Field Fun)} (hl : ∀ t ∈ l, Propositional X t) :
    match sortUniq (compareRaisingAbsorbant tau externNot) l with
    | none => ¬ ∀ t ∈ l, W t
    | some r => (∀ t ∈ r, t ∈ l) ∧ ((∀ t ∈ r, W t) ↔ ∀ t ∈ l, W t) := by
  have hequiv : Equivalence fun a b => v.holds a ↔ v.holds b :=
    ⟨fun _ => Iff.rfl,fun h => h.symm,fun h h' => h.trans h'⟩
  have hkeeps : Keeps (compareRaisingAbsorbant tau externNot) (fun a b => v.holds a ↔ v.holds b) l
      (sortUniq (compareRaisingAbsorbant tau externNot) l) := Keeps.sortUniq hequiv fun a ha b hb =>
    (holds_of_compareRaisingAbsorbant hX hnot (hl a ha) (hl b hb)).1
  cases hr : sortUniq (compareRaisingAbsorbant tau externNot) l with
  | none =>
    rw [hr] at hkeeps
    obtain ⟨a,ha,b,hb,hab⟩ := hkeeps
    have hval := (holds_of_compareRaisingAbsorbant hX hnot (hl a ha) (hl b hb)).2 hab
    exact fun hall => hclash a b hval ⟨hall a ha,hall b hb⟩
  | some r =>
    rw [hr] at hkeeps
    refine ⟨hkeeps.1,fun hall t ht => ?_,fun hall t ht => hall t (hkeeps.1 t ht)⟩
    obtain ⟨u,hu,htu⟩ := hkeeps.2 t ht
    exact (hW t u htu).mpr (hall u hu)

theorem Propositional.nil_of_true {ts : List (Term ADT Field Fun)} (h : Propositional X (.node .true ts)) : ts = [] := by
  cases h with
  | atom _ h _ => exact List.length_eq_zero_iff.mp (Rose.Nodes.label h).1

theorem Propositional.nil_of_false {ts : List (Term ADT Field Fun)} (h : Propositional X (.node .false ts)) :
    ts = [] := by
  cases h with
  | atom _ h _ => exact List.length_eq_zero_iff.mp (Rose.Nodes.label h).1

theorem Propositional.cAnd {ts : List (Term ADT Field Fun)} (h : ∀ t ∈ ts, Propositional X t) :
    Propositional X (cAnd ts) := by
  match ts with
  | [] => exact .true
  | [t] => exact h t (by simp)
  | t :: u :: ts => exact .and h

theorem Propositional.cOr {ts : List (Term ADT Field Fun)} (h : ∀ t ∈ ts, Propositional X t) :
    Propositional X (cOr ts) := by
  match ts with
  | [] => exact .false
  | [t] => exact h t (by simp)
  | t :: u :: ts => exact .or h

theorem holds_cAnd (ts : List (Term ADT Field Fun)) : v.holds (cAnd ts) ↔ ∀ t ∈ ts, v.holds t :=
  v.conjoins_and.cJunction ts

theorem holds_cOr (ts : List (Term ADT Field Fun)) : v.holds (cOr ts) ↔ ∃ t ∈ ts, v.holds t := by
  rw [← not_iff_not,not_exists]
  refine (v.conjoins_or.cJunction ts).trans ?_
  simp

theorem conjunction_sound (hX : X.InjOn Var.vid) (hnot : Negating v X externNot) {ts : List (Term ADT Field Fun)}
    (hts : ∀ t ∈ ts, Propositional X t) : Propositional X (conjunction tau externNot ts) ∧
      (v.holds (conjunction tau externNot ts) ↔ ∀ t ∈ ts, v.holds t) := by
  have hfold := Conjoins.foldTerms_of (W := v.holds) ts [] (by simp) fun t ht acc hacc =>
    v.conjoins_and.foldTerm_spec (fun _ => Propositional.nil_of_false) (fun _ => Propositional.nil_of_true)
      (fun _ => Propositional.of_and) (hts t ht) hacc
  unfold conjunction foldAnd
  cases hf : foldTerms .false .true .and [] ts with
  | none =>
    rw [hf] at hfold
    exact ⟨.false,iff_of_false v.not_holds_false hfold⟩
  | some ms =>
    rw [hf] at hfold
    have hsort := sortUniq_spec tau hX hnot (fun a b h => h) (fun a b h hab => h.mp hab.1 hab.2) hfold.1
    have hms : (∀ m ∈ ms, v.holds m) ↔ ∀ t ∈ ts, v.holds t := hfold.2.trans (by simp)
    simp only
    cases hr : sortUniq (compareRaisingAbsorbant tau externNot) ms with
    | none =>
      rw [hr] at hsort
      exact ⟨.false,iff_of_false v.not_holds_false (hms.not.mp hsort)⟩
    | some r =>
      rw [hr] at hsort
      exact ⟨.cAnd fun t ht => hfold.1 t (hsort.1 t ht),(holds_cAnd r).trans (hsort.2.trans hms)⟩

theorem disjunction_sound (hX : X.InjOn Var.vid) (hnot : Negating v X externNot) {ts : List (Term ADT Field Fun)}
    (hts : ∀ t ∈ ts, Propositional X t) : Propositional X (disjunction tau externNot ts) ∧
      (v.holds (disjunction tau externNot ts) ↔ ∃ t ∈ ts, v.holds t) := by
  have hfold := Conjoins.foldTerms_of (W := fun t => ¬ v.holds t) ts [] (by simp) fun t ht acc hacc =>
    v.conjoins_or.foldTerm_spec (fun _ => Propositional.nil_of_true) (fun _ => Propositional.nil_of_false)
      (fun _ => Propositional.of_or) (hts t ht) hacc
  have hex : (∃ t ∈ ts, v.holds t) ↔ ¬ ∀ t ∈ ts, ¬ v.holds t := by simp
  unfold disjunction foldOr
  cases hf : foldTerms .true .false .or [] ts with
  | none =>
    rw [hf] at hfold
    exact ⟨.true,iff_of_true v.holds_true (hex.mpr hfold)⟩
  | some ms =>
    rw [hf] at hfold
    have hsort := sortUniq_spec tau (W := fun t => ¬ v.holds t) hX hnot (fun a b h => not_congr h)
      (fun a b h hab => hab.1 (h.mpr hab.2)) hfold.1
    have hms : (∀ m ∈ ms, ¬ v.holds m) ↔ ∀ t ∈ ts, ¬ v.holds t := hfold.2.trans (by simp)
    simp only
    cases hr : sortUniq (compareRaisingAbsorbant tau externNot) ms with
    | none =>
      rw [hr] at hsort
      exact ⟨.true,iff_of_true v.holds_true (hex.mpr (hms.not.mp hsort))⟩
    | some r =>
      rw [hr] at hsort
      refine ⟨.cOr fun t ht => hfold.1 t (hsort.1 t ht),(holds_cOr r).trans ?_⟩
      rw [hex,← hms,← hsort.2]
      simp

variable (tau) in
theorem eAnd_sound (hX : X.InjOn Var.vid) (hnot : Negating v X externNot) {ts : List (Term ADT Field Fun)}
    (hts : ∀ t ∈ ts, Propositional X t) : Propositional X (eAnd tau externNot ts) ∧
      (v.holds (eAnd tau externNot ts) ↔ ∀ t ∈ ts, v.holds t) := by
  match ts with
  | [] => exact ⟨.true,iff_of_true v.holds_true (by simp)⟩
  | [t] => exact ⟨hts t (by simp),by simp [eAnd]⟩
  | t :: u :: ts => exact conjunction_sound hX hnot hts

variable (tau) in
theorem eOr_sound (hX : X.InjOn Var.vid) (hnot : Negating v X externNot) {ts : List (Term ADT Field Fun)}
    (hts : ∀ t ∈ ts, Propositional X t) : Propositional X (eOr tau externNot ts) ∧
      (v.holds (eOr tau externNot ts) ↔ ∃ t ∈ ts, v.holds t) := by
  match ts with
  | [] => exact ⟨.false,iff_of_false v.not_holds_false (by simp)⟩
  | [t] => exact ⟨hts t (by simp),by simp [eOr]⟩
  | t :: u :: ts => exact disjunction_sound hX hnot hts

/-- The comparisons have the values of the terms that they stand for. -/
structure Externs.Sound (E : Externs ADT Field Fun) (v : Valuation ADT Field Fun) (X : Set (Var ADT Field)) : Prop where
  leq : ∀ x y, InState X x → LcClosed x → InState X y → LcClosed y →
    Propositional X (E.leq x y) ∧ (v.holds (E.leq x y) ↔ v.holds (.node .leq [x,y]))
  lt : ∀ x y, InState X x → LcClosed x → InState X y → LcClosed y →
    Propositional X (E.lt x y) ∧ (v.holds (E.lt x y) ↔ v.holds (.node .lt [x,y]))

theorem Externs.sound_of_plain (v : Valuation ADT Field Fun) (X : Set (Var ADT Field))
    (tau : Term ADT Field Fun → Option (Tau ADT Field)) :
    Externs.Sound ⟨fun x y => .node .leq [x,y],fun x y => .node .lt [x,y],tau⟩ v X := by
  have hbinary : ∀ r : Repr ADT Field Fun, r = .leq ∨ r = .lt → ∀ x y : Term ADT Field Fun, InState X x → LcClosed x →
      InState X y → LcClosed y → Propositional X (.node r [x,y]) := by
    intro r hr x y hx hcx hy hcy
    rcases hr with rfl | rfl
    · refine .atom trivial (.node ⟨rfl,by simp⟩ ?_) (.node (by simp) (by simp) ?_)
      · exact List.forall_mem_cons.mpr ⟨hx,List.forall_mem_singleton.mpr hy⟩
      · exact List.forall_mem_cons.mpr ⟨hcx,List.forall_mem_singleton.mpr hcy⟩
    · refine .atom trivial (.node ⟨rfl,by simp⟩ ?_) (.node (by simp) (by simp) ?_)
      · exact List.forall_mem_cons.mpr ⟨hx,List.forall_mem_singleton.mpr hy⟩
      · exact List.forall_mem_cons.mpr ⟨hcx,List.forall_mem_singleton.mpr hcy⟩
  exact ⟨fun x y hx hcx hy hcy => ⟨hbinary .leq (Or.inl rfl) x y hx hcx hy hcy,Iff.rfl⟩,
    fun x y hx hcx hy hcy => ⟨hbinary .lt (Or.inr rfl) x y hx hcx hy hcy,Iff.rfl⟩⟩

variable {E : Externs ADT Field Fun}

theorem lcClosed_child {r : Repr ADT Field Fun} {ts : List (Term ADT Field Fun)} (h : LcClosed (.node r ts))
    (hr : IsAtom r) : ∀ t ∈ ts, LcClosed t := by
  cases h with
  | bvar hk => cases hk
  | bind _ => cases hr
  | node _ _ h => exact h

theorem binary_atom {r : Repr ADT Field Fun} {ts : List (Term ADT Field Fun)} (hr : IsAtom r)
    (harity : ∀ n, arity r n → n = 2) (h : InState X (.node r ts)) (hc : LcClosed (.node r ts)) :
    ∃ x y, ts = [x,y] ∧ (InState X x ∧ LcClosed x) ∧ InState X y ∧ LcClosed y := by
  obtain ⟨x,y,rfl⟩ := List.length_eq_two.mp (harity _ (Rose.Nodes.label h).1)
  have hx : x ∈ (Rose.node r [x,y]).children := by simp
  have hy : y ∈ (Rose.node r [x,y]).children := by simp
  exact ⟨x,y,rfl,⟨Rose.Nodes.child h hx,lcClosed_child hc hr x (by simp)⟩,Rose.Nodes.child h hy,lcClosed_child hc hr y (by simp)⟩

theorem Propositional.binary {r : Repr ADT Field Fun} (hr : IsAtom r) (harity : arity r 2)
    (hvar : ∀ x, r ≠ .fvar x) (hbvar : ∀ k t, r ≠ .bvar k t) (hbind : ∀ q t, r ≠ .bind q t) {x y : Term ADT Field Fun}
    (hx : InState X x ∧ LcClosed x) (hy : InState X y ∧ LcClosed y) : Propositional X (.node r [x,y]) := by
  refine .atom hr (.node ⟨harity,fun z hz => absurd hz (hvar z)⟩ ?_) (.node hbvar hbind ?_)
  · exact List.forall_mem_cons.mpr ⟨hx.1,List.forall_mem_singleton.mpr hy.1⟩
  · exact List.forall_mem_cons.mpr ⟨hx.2,List.forall_mem_singleton.mpr hy.2⟩

theorem cNot_sound : Negating v X cNot := fun p hp => ⟨.not hp,v.holds_not p⟩

theorem sym_sound {r : Repr ADT Field Fun} (hr : ∀ x y, (InState X x ∧ LcClosed x) → (InState X y ∧ LcClosed y) →
      Propositional X (.node r [x,y])) (hsymm : ∀ x y, v.holds (.node r [x,y]) ↔ v.holds (.node r [y,x]))
    {x y : Term ADT Field Fun} (hx : InState X x ∧ LcClosed x) (hy : InState X y ∧ LcClosed y) :
    Propositional X (sym E externNot r x y) ∧ (v.holds (sym E externNot r x y) ↔ v.holds (.node r [x,y])) := by
  unfold sym
  split
  · exact ⟨hr y x hy hx,hsymm y x⟩
  · exact ⟨hr x y hx hy,Iff.rfl⟩

theorem notWith_atom (hE : E.Sound v X) {r : Repr ADT Field Fun} {ts : List (Term ADT Field Fun)} (hr : IsAtom r)
    (h : InState X (.node r ts)) (hc : LcClosed (.node r ts)) : Propositional X (notWith E externNot (.node r ts)) ∧
      (v.holds (notWith E externNot (.node r ts)) ↔ ¬ v.holds (.node r ts)) := by
  have hatom := Propositional.atom hr h hc
  have hneq : ∀ x y : Term ADT Field Fun, v.holds (.node .neq [x,y]) ↔ v.holds (.node .neq [y,x]) := by
    intro x y
    rw [v.holds_neq,v.holds_neq,v.holds_eq_symm]
  cases r
  case «true» =>
    rw [hatom.nil_of_true]
    exact ⟨.false,iff_of_false v.not_holds_false (not_not_intro v.holds_true)⟩
  case «false» =>
    rw [hatom.nil_of_false]
    exact ⟨.true,iff_of_true v.holds_true v.not_holds_false⟩
  case lt =>
    obtain ⟨x,y,rfl,hx,hy⟩ := binary_atom hr (fun _ h => h) h hc
    obtain ⟨hprop,hval⟩ := hE.leq y x hy.1 hy.2 hx.1 hx.2
    exact ⟨hprop,hval.trans (v.holds_leq y x)⟩
  case leq =>
    obtain ⟨x,y,rfl,hx,hy⟩ := binary_atom hr (fun _ h => h) h hc
    obtain ⟨hprop,hval⟩ := hE.lt y x hy.1 hy.2 hx.1 hx.2
    refine ⟨hprop,hval.trans ?_⟩
    rw [v.holds_leq,not_not]
  case eq =>
    obtain ⟨x,y,rfl,hx,hy⟩ := binary_atom hr (fun _ h => h) h hc
    have hbinary : ∀ x y : Term ADT Field Fun, (InState X x ∧ LcClosed x) → (InState X y ∧ LcClosed y) →
        Propositional X (.node .neq [x,y]) :=
      fun x y hx hy => .binary (by trivial) (by simp [arity]) (by simp) (by simp) (by simp) hx hy
    obtain ⟨hprop,hval⟩ := sym_sound (E := E) hbinary hneq hx hy
    exact ⟨hprop,hval.trans (v.holds_neq x y)⟩
  case neq =>
    obtain ⟨x,y,rfl,hx,hy⟩ := binary_atom hr (fun _ h => h) h hc
    have hbinary : ∀ x y : Term ADT Field Fun, (InState X x ∧ LcClosed x) → (InState X y ∧ LcClosed y) →
        Propositional X (.node .eq [x,y]) :=
      fun x y hx hy => .binary (by trivial) (by simp [arity]) (by simp) (by simp) (by simp) hx hy
    obtain ⟨hprop,hval⟩ := sym_sound (E := E) hbinary v.holds_eq_symm hx hy
    refine ⟨hprop,hval.trans ?_⟩
    rw [v.holds_neq,not_not]
  case and | or | not | imply | bind => cases hr
  all_goals exact cNot_sound _ hatom

theorem notWith_sound (hX : X.InjOn Var.vid) (hE : E.Sound v X) (hnot : Negating v X externNot) :
    Negating v X (notWith E externNot) := by
  intro p hp
  induction hp with
  | @and ts _ ih =>
    have hnots : ∀ u ∈ ts.map (notWith E externNot), Propositional X u :=
      List.forall_mem_map.mpr fun t ht => (ih t ht).1
    obtain ⟨hprop,hval⟩ := eOr_sound E.tau hX hnot hnots
    rw [notWith,notsWith_eq_map]
    refine ⟨hprop,hval.trans ?_⟩
    rw [v.holds_and,not_forall]
    simp only [List.mem_map,exists_exists_and_eq_and]
    exact exists_congr fun t => by
      rw [Classical.not_imp]
      exact and_congr_right fun ht => (ih t ht).2
  | @or ts _ ih =>
    have hnots : ∀ u ∈ ts.map (notWith E externNot), Propositional X u :=
      List.forall_mem_map.mpr fun t ht => (ih t ht).1
    obtain ⟨hprop,hval⟩ := eAnd_sound E.tau hX hnot hnots
    rw [notWith,notsWith_eq_map]
    refine ⟨hprop,hval.trans ?_⟩
    rw [v.holds_or,not_exists]
    simp only [List.forall_mem_map]
    exact forall_congr' fun t => by
      rw [not_and]
      exact forall_congr' fun ht => (ih t ht).2
  | @not t ht _ => exact ⟨ht,by rw [v.holds_not,not_not]; rfl⟩
  | @imply p hs _ hhs ihp _ =>
    have hnots : ∀ u ∈ notWith E externNot p :: hs, Propositional X u := List.forall_mem_cons.mpr ⟨ihp.1,hhs⟩
    obtain ⟨hprop,hval⟩ := eAnd_sound E.tau hX hnot hnots
    rw [notWith]
    refine ⟨hprop,hval.trans ?_⟩
    rw [v.holds_imply,List.forall_mem_cons,ihp.2,Classical.not_imp]
    exact and_comm
  | atom hr h hc => exact notWith_atom hE hr h hc

theorem eNot_sound (hX : X.InjOn Var.vid) (hE : E.Sound v X) (depth : ℕ) : Negating v X (eNot E depth) := by
  induction depth with
  | zero => exact cNot_sound
  | succ depth ih => exact notWith_sound hX hE ih

end Soundness
end FramaC.Qed
