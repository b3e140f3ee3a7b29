import FramaC.Qed.Consequence
import FramaC.Qed.Valuation

/-! # Values of consequences

Implications have the value of the implication. Consequences have the value of the term, under the hypotheses, unless
disjuncts are dropped from a disjunction or the hypotheses of an implication are absorbed.
-/
set_option linter.unusedSectionVars false
namespace FramaC.Qed
open Comparison COMPARE Consequence
variable {ADT Field Fun : Type}
variable [DecidableEq ADT] [DecidableEq Field] [DecidableEq Fun] [Ord ADT] [FieldSymbol Field] [FunSymbol Fun]
variable [Std.LawfulEqOrd Field] [Std.LawfulEqOrd ADT] [Std.LawfulEqOrd Fun]

section Soundness
variable {v : Valuation ADT Field Fun} {X : Set (Var ADT Field)} {E : Externs ADT Field Fun} {depth : ℕ}
variable {hs hs0 ts bs : List (Term ADT Field Fun)} {b b0 : Term ADT Field Fun}

def AllHold (v : Valuation ADT Field Fun) (hs : List (Term ADT Field Fun)) : Prop := ∀ h ∈ hs, v.holds h

theorem allHold_append : AllHold v (hs ++ hs0) ↔ AllHold v hs ∧ AllHold v hs0 := List.forall_mem_append

/-- Filtering conjuncts. What is absorbed does not hold, and what is dropped holds. -/
def AndSpec (v : Valuation ADT Field Fun) (hs ts : List (Term ADT Field Fun)) : Option (Filtered ADT Field Fun) → Prop
  | none => AllHold v hs → ¬ AllHold v ts
  | some w => (∀ t ∈ w.terms, t ∈ ts) ∧ (AllHold v hs → ∀ t ∈ ts, t ∈ w.terms ∨ v.holds t) ∧
      (w.modif = false → w.terms = ts)

/-- Filtering disjuncts. What is absorbed holds, and what is dropped does not hold. -/
def OrSpec (v : Valuation ADT Field Fun) (hs ts : List (Term ADT Field Fun)) : Option (Filtered ADT Field Fun) → Prop
  | none => AllHold v hs → ∃ t ∈ ts, v.holds t
  | some w => (∀ t ∈ w.terms, t ∈ ts) ∧ (AllHold v hs → ∀ t ∈ ts, t ∈ w.terms ∨ ¬ v.holds t) ∧
      (w.modif = false → w.terms = ts)

variable (depth)

theorem consequenceAnd_spec (hX : X.InjOn Var.vid) (hE : E.Sound v X) (hhs : ∀ h ∈ hs, Propositional X h)
    (hts : ∀ t ∈ ts, Propositional X t) : AndSpec v hs ts (consequenceAnd E depth hs ts) := by
  have hspec := filter_spec E depth .conj hs ts
  unfold consequenceAnd
  cases hf : Consequence.filter E depth .conj hs ts with
  | none =>
    rw [hf] at hspec
    obtain ⟨h,hh,t,ht,heq⟩ := hspec
    intro hall hconj
    have hval := (eNot_sound hX hE (depth + 1) h (hhs h hh)).2
    have habsorbed : v.holds (eNot E (depth + 1) h) := by
      rw [show eNot E (depth + 1) h = t from heq]
      exact hconj t ht
    exact hval.mp habsorbed (hall h hh)
  | some w =>
    rw [hf] at hspec
    obtain ⟨hsub,hkept,hmodif⟩ := hspec
    refine ⟨hsub,fun hall t ht => (hkept t ht).imp_right ?_,hmodif⟩
    rintro ⟨h,hh,heq⟩
    exact (holds_of_compare hX (eNot_sound hX hE depth) (hhs h hh) (hts t ht) heq).mp (hall h hh)

theorem consequenceOr_spec (hX : X.InjOn Var.vid) (hE : E.Sound v X) (hhs : ∀ h ∈ hs, Propositional X h)
    (hts : ∀ t ∈ ts, Propositional X t) : OrSpec v hs ts (consequenceOr E depth hs ts) := by
  have hspec := filter_spec E depth .disj hs ts
  unfold consequenceOr
  cases hf : Consequence.filter E depth .disj hs ts with
  | none =>
    rw [hf] at hspec
    obtain ⟨h,hh,t,ht,heq⟩ := hspec
    exact fun hall => ⟨t,ht,heq ▸ hall h hh⟩
  | some w =>
    rw [hf] at hspec
    obtain ⟨hsub,hkept,hmodif⟩ := hspec
    refine ⟨hsub,fun hall t ht => (hkept t ht).imp_right ?_,hmodif⟩
    rintro ⟨h,hh,heq⟩ hholds
    have hnot := eNot_sound hX hE (depth + 1) h (hhs h hh)
    have hval := holds_of_compare hX (eNot_sound hX hE depth) hnot.1 (hts t ht) heq
    exact hnot.2.mp (hval.mpr hholds) (hall h hh)

theorem allHold_filtered {w : Filtered ADT Field Fun} (h : AndSpec v hs ts (some w)) (hall : AllHold v hs) :
    AllHold v ts ↔ AllHold v w.terms :=
  ⟨fun hts t ht => hts t (h.1 t ht),fun hw t ht => (h.2.1 hall t ht).elim (hw t) id⟩

theorem exists_filtered {w : Filtered ADT Field Fun} (h : OrSpec v hs ts (some w)) (hall : AllHold v hs) :
    (∃ t ∈ ts, v.holds t) ↔ ∃ t ∈ w.terms, v.holds t := by
  constructor
  · rintro ⟨t,ht,hv⟩
    exact ⟨t,(h.2.1 hall t ht).resolve_right (not_not_intro hv),hv⟩
  · rintro ⟨t,ht,hv⟩
    exact ⟨t,h.1 t ht,hv⟩

theorem merge_spec (hX : X.InjOn Var.vid) (hE : E.Sound v X) (hhs : ∀ h ∈ hs, Propositional X h)
    (hhs0 : ∀ h ∈ hs0, Propositional X h) :
    match merge E depth hs hs0 with
    | none => ¬ (AllHold v hs ∧ AllHold v hs0)
    | some hs' => (∀ h ∈ hs', Propositional X h) ∧ (AllHold v hs' ↔ AllHold v hs ∧ AllHold v hs0) := by
  have hprop : ∀ h ∈ hs ++ hs0, Propositional X h := List.forall_mem_append.mpr ⟨hhs,hhs0⟩
  have hsort := sortUniq_spec E.tau (W := v.holds) hX (eNot_sound hX hE depth) (fun a b h => h)
    (fun a b h hab => h.mp hab.1 hab.2) hprop
  unfold merge
  cases hr : sortUniq (compareRaisingAbsorbant E.tau (eNot E depth)) (hs ++ hs0) with
  | none =>
    rw [hr] at hsort
    exact (allHold_append).not.mp hsort
  | some r =>
    rw [hr] at hsort
    exact ⟨fun h hh => hprop h (hsort.1 h hh),hsort.2.trans allHold_append⟩

theorem cImply_sound (hhs : ∀ h ∈ hs, Propositional X h) (hb : Propositional X b) :
    Propositional X (cImply hs b) ∧ (v.holds (cImply hs b) ↔ (AllHold v hs → v.holds b)) := by
  match hs with
  | [] => exact ⟨hb,by simp [cImply,AllHold]⟩
  | h :: hs => exact ⟨.imply hb hhs,v.holds_imply b _⟩

theorem implicationFalse_sound (hX : X.InjOn Var.vid) (hE : E.Sound v X) (hhs : ∀ h ∈ hs, Propositional X h) :
    Propositional X (implicationFalse E depth hs) ∧ (v.holds (implicationFalse E depth hs) ↔ ¬ AllHold v hs) := by
  obtain ⟨hprop,hval⟩ := eNot_sound hX hE (depth + 1) (cAnd hs) (.cAnd hhs)
  exact ⟨hprop,hval.trans (holds_cAnd hs).not⟩

def Implies (v : Valuation ADT Field Fun) (X : Set (Var ADT Field))
    (implication : List (Term ADT Field Fun) → Term ADT Field Fun → Term ADT Field Fun) : Prop :=
  ∀ hs b, (∀ h ∈ hs, Propositional X h) → Propositional X b →
    Propositional X (implication hs b) ∧ (v.holds (implication hs b) ↔ (AllHold v hs → v.holds b))

theorem under {H0 H H' P Q : Prop} (hall : H' ↔ H0 ∧ H) (hPQ : H → (P ↔ Q)) : (H' → P) ↔ (H0 → H → Q) :=
  ⟨fun h h0 h1 => (hPQ h1).mp (h (hall.mpr ⟨h0,h1⟩)),
    fun h h' => (hPQ (hall.mp h').2).mpr (h (hall.mp h').1 (hall.mp h').2)⟩

theorem not_under {H0 H H' Q : Prop} (hall : H' ↔ H0 ∧ H) (hQ : H → ¬ Q) : ¬ H' ↔ (H0 → H → Q) :=
  under (P := False) hall fun h => ⟨False.elim,hQ h⟩

section Step
variable {implication : List (Term ADT Field Fun) → Term ADT Field Fun → Term ADT Field Fun}

theorem implicationAnd_sound (hX : X.InjOn Var.vid) (hE : E.Sound v X) (himp : Implies v X implication)
    (hhs0 : ∀ h ∈ hs0, Propositional X h) (hhs : ∀ h ∈ hs, Propositional X h) (hbs : ∀ b ∈ bs, Propositional X b) :
    Propositional X (implicationAnd E depth implication hs0 hs (.node .and bs) bs) ∧
      (v.holds (implicationAnd E depth implication hs0 hs (.node .and bs) bs) ↔
        (AllHold v hs0 → AllHold v hs → AllHold v bs)) := by
  unfold implicationAnd
  have hmerge := merge_spec depth hX hE hhs0 hhs
  cases hm : merge E depth hs0 hs with
  | none =>
    rw [hm] at hmerge
    exact ⟨.true,iff_of_true v.holds_true fun h0 h => absurd ⟨h0,h⟩ hmerge⟩
  | some hs' =>
    rw [hm] at hmerge
    obtain ⟨hhs',hall⟩ := hmerge
    have hfilter := consequenceAnd_spec depth hX hE hhs hbs
    simp only
    cases hf : consequenceAnd E depth hs bs with
    | none =>
      rw [hf] at hfilter
      obtain ⟨hprop,hval⟩ := implicationFalse_sound depth hX hE hhs'
      exact ⟨hprop,hval.trans (not_under hall hfilter)⟩
    | some w =>
      rw [hf] at hfilter
      have hbs' : AllHold v hs → (AllHold v bs ↔ AllHold v w.terms) := allHold_filtered hfilter
      have hsub := hfilter.1
      obtain ⟨modif,terms⟩ := w
      simp only at hbs' hsub ⊢
      match terms with
      | [] =>
        refine ⟨.true,iff_of_true v.holds_true fun _ h => (hbs' h).mpr ?_⟩
        simp [AllHold]
      | [b] =>
        obtain ⟨hprop,hval⟩ := himp hs' b hhs' (hbs b (hsub b (by simp)))
        have hone : AllHold v [b] ↔ v.holds b := List.forall_mem_singleton
        exact ⟨hprop,hval.trans (under hall fun h => hone.symm.trans (hbs' h).symm)⟩
      | b :: c :: bs' =>
        have hrest : Propositional X (if modif then cAnd (b :: c :: bs') else .node .and bs) ∧
            (AllHold v hs → (v.holds (if modif then cAnd (b :: c :: bs') else .node .and bs) ↔ AllHold v bs)) := by
          split
          · exact ⟨.cAnd fun t ht => hbs t (hsub t ht),fun h => (holds_cAnd _).trans (hbs' h).symm⟩
          · exact ⟨.and hbs,fun _ => v.holds_and bs⟩
        obtain ⟨hprop,hval⟩ := cImply_sound (v := v) hhs' hrest.1
        exact ⟨hprop,hval.trans (under hall hrest.2)⟩

theorem implicationOr_sound (hX : X.InjOn Var.vid) (hE : E.Sound v X) (himp : Implies v X implication)
    (hhs0 : ∀ h ∈ hs0, Propositional X h) (hhs : ∀ h ∈ hs, Propositional X h) (hbs : ∀ b ∈ bs, Propositional X b) :
    Propositional X (implicationOr E depth implication hs0 hs (.node .or bs) bs) ∧
      (v.holds (implicationOr E depth implication hs0 hs (.node .or bs) bs) ↔
        (AllHold v hs0 → AllHold v hs → ∃ b ∈ bs, v.holds b)) := by
  unfold implicationOr
  have hmerge := merge_spec depth hX hE hhs0 hhs
  cases hm : merge E depth hs0 hs with
  | none =>
    rw [hm] at hmerge
    exact ⟨.true,iff_of_true v.holds_true fun h0 h => absurd ⟨h0,h⟩ hmerge⟩
  | some hs' =>
    rw [hm] at hmerge
    obtain ⟨hhs',hall⟩ := hmerge
    have hfilter := consequenceOr_spec depth hX hE hhs hbs
    simp only
    cases hf : consequenceOr E depth hs bs with
    | none =>
      rw [hf] at hfilter
      exact ⟨.true,iff_of_true v.holds_true fun _ h => hfilter h⟩
    | some w =>
      rw [hf] at hfilter
      have hbs' : AllHold v hs → ((∃ b ∈ bs, v.holds b) ↔ ∃ t ∈ w.terms, v.holds t) := exists_filtered hfilter
      have hsub := hfilter.1
      obtain ⟨modif,terms⟩ := w
      simp only at hbs' hsub ⊢
      match terms with
      | [] =>
        obtain ⟨hprop,hval⟩ := implicationFalse_sound depth hX hE hhs'
        exact ⟨hprop,hval.trans (not_under hall fun h => (hbs' h).not.mpr (by simp))⟩
      | [b] =>
        obtain ⟨hprop,hval⟩ := himp hs' b hhs' (hbs b (hsub b (by simp)))
        have hone : (∃ t ∈ [b], v.holds t) ↔ v.holds b := by simp
        exact ⟨hprop,hval.trans (under hall fun h => hone.symm.trans (hbs' h).symm)⟩
      | b :: c :: bs' =>
        have hrest : Propositional X (if modif then cOr (b :: c :: bs') else .node .or bs) ∧ (AllHold v hs →
            (v.holds (if modif then cOr (b :: c :: bs') else .node .or bs) ↔ ∃ b ∈ bs, v.holds b)) := by
          split
          · exact ⟨.cOr fun t ht => hbs t (hsub t ht),fun h => (holds_cOr _).trans (hbs' h).symm⟩
          · exact ⟨.or hbs,fun _ => v.holds_or bs⟩
        obtain ⟨hprop,hval⟩ := cImply_sound (v := v) hhs' hrest.1
        exact ⟨hprop,hval.trans (under hall hrest.2)⟩

theorem under_filtered {H0 H H' Q : Prop} (h : H0 → (H ↔ H')) : (H0 → H' → Q) ↔ (H → H0 → Q) :=
  ⟨fun hq hh h0 => hq h0 ((h h0).mp hh),fun hq h0 hh => hq ((h h0).mpr hh) h0⟩

theorem implicationConclusion_sound (hX : X.InjOn Var.vid) (hE : E.Sound v X) (himp : Implies v X implication)
    (hhs0 : ∀ h ∈ hs0, Propositional X h) (hhs : ∀ h ∈ hs, Propositional X h) (hb0 : Propositional X b0) :
    Propositional X (implicationConclusion E depth implication hs0 hs b0) ∧
      (v.holds (implicationConclusion E depth implication hs0 hs b0) ↔
        (AllHold v hs0 → AllHold v hs → v.holds b0)) := by
  unfold implicationConclusion
  split
  · next bs =>
    obtain ⟨hprop,hval⟩ := implicationAnd_sound depth hX hE himp hhs0 hhs hb0.of_and
    refine ⟨hprop,hval.trans ?_⟩
    rw [v.holds_and]
    rfl
  · next bs =>
    obtain ⟨hprop,hval⟩ := implicationOr_sound depth hX hE himp hhs0 hhs hb0.of_or
    refine ⟨hprop,hval.trans ?_⟩
    rw [v.holds_or]
  · have hmerge := merge_spec depth hX hE hhs0 hhs
    cases hm : merge E depth hs0 hs with
    | none =>
      rw [hm] at hmerge
      exact ⟨.true,iff_of_true v.holds_true fun h0 h => absurd ⟨h0,h⟩ hmerge⟩
    | some hs' =>
      rw [hm] at hmerge
      obtain ⟨hprop,hval⟩ := cImply_sound (v := v) hmerge.1 hb0
      exact ⟨hprop,hval.trans (under hmerge.2 fun _ => Iff.rfl)⟩

theorem implicationImply_sound (hX : X.InjOn Var.vid) (hE : E.Sound v X) (himp : Implies v X implication)
    (hhs : ∀ h ∈ hs, Propositional X h) (hhs0 : ∀ h ∈ hs0, Propositional X h) (hb0 : Propositional X b0) :
    Propositional X (implicationImply E depth implication hs (.node .imply (b0 :: hs0)) hs0 b0) ∧
      (v.holds (implicationImply E depth implication hs (.node .imply (b0 :: hs0)) hs0 b0) ↔
        (AllHold v hs → AllHold v hs0 → v.holds b0)) := by
  unfold implicationImply
  have hconcl : AndSpec v hs [b0] (consequenceAnd E depth hs [b0]) :=
    consequenceAnd_spec depth hX hE hhs (List.forall_mem_singleton.mpr hb0)
  cases hc : consequenceAnd E depth hs [b0] with
  | none =>
    rw [hc] at hconcl
    have hfalse : AllHold v hs → ¬ v.holds b0 := fun h => (hconcl h).imp fun hb => List.forall_mem_singleton.mpr hb
    have hmerge := merge_spec depth hX hE hhs hhs0
    simp only
    cases hm : merge E depth hs hs0 with
    | none =>
      rw [hm] at hmerge
      exact ⟨.true,iff_of_true v.holds_true fun h h0 => absurd ⟨h,h0⟩ hmerge⟩
    | some hs' =>
      rw [hm] at hmerge
      obtain ⟨hprop,hval⟩ := implicationFalse_sound depth hX hE hmerge.1
      refine ⟨hprop,hval.trans ⟨fun hnot h h0 => absurd (hmerge.2.mpr ⟨h,h0⟩) hnot,fun himp hall => ?_⟩⟩
      obtain ⟨h,h0⟩ := hmerge.2.mp hall
      exact hfalse h (himp h h0)
  | some w =>
    rw [hc] at hconcl
    simp only
    split
    · next hnil =>
      have hholds : AllHold v hs → v.holds b0 := by
        intro h
        have hb := hconcl.2.1 h b0 (by simp)
        rw [hnil] at hb
        exact hb.resolve_left (by simp)
      exact ⟨.true,iff_of_true v.holds_true fun h _ => hholds h⟩
    · have hfilter := consequenceAnd_spec depth hX hE hhs0 hhs
      cases hf : consequenceAnd E depth hs0 hs with
      | none =>
        rw [hf] at hfilter
        exact ⟨.true,iff_of_true v.holds_true fun h h0 => absurd h (hfilter h0)⟩
      | some w' =>
        rw [hf] at hfilter
        have hall : AllHold v hs0 → (AllHold v hs ↔ AllHold v w'.terms) := allHold_filtered hfilter
        simp only
        split
        · next hnil =>
          refine ⟨.imply hb0 hhs0,(v.holds_imply b0 hs0).trans ?_⟩
          refine ⟨fun h _ => h,fun h h0 => h ((hall h0).mpr ?_) h0⟩
          rw [hnil]
          simp [AllHold]
        · have hterms : ∀ h ∈ w'.terms, Propositional X h := fun h hh => hhs h (hfilter.1 h hh)
          obtain ⟨hprop,hval⟩ := implicationConclusion_sound depth hX hE himp hhs0 hterms hb0
          exact ⟨hprop,hval.trans (under_filtered hall)⟩

theorem implicationStep_sound (hX : X.InjOn Var.vid) (hE : E.Sound v X) (himp : Implies v X implication) :
    Implies v X (implicationStep E depth implication) := by
  intro hs b hhs hb
  have hnil : AllHold v ([] : List (Term ADT Field Fun)) := List.forall_mem_nil _
  have hempty : ∀ h ∈ ([] : List (Term ADT Field Fun)), Propositional X h := List.forall_mem_nil _
  cases hb with
  | and hbs =>
    obtain ⟨hprop,hval⟩ := implicationAnd_sound depth hX hE himp hempty hhs hbs
    exact ⟨hprop,hval.trans ⟨fun h hall => (v.holds_and _).mpr (h hnil hall),
      fun h _ hall => (v.holds_and _).mp (h hall)⟩⟩
  | or hbs =>
    obtain ⟨hprop,hval⟩ := implicationOr_sound depth hX hE himp hempty hhs hbs
    exact ⟨hprop,hval.trans ⟨fun h hall => (v.holds_or _).mpr (h hnil hall),
      fun h _ hall => (v.holds_or _).mp (h hall)⟩⟩
  | imply hb0 hhs0 =>
    obtain ⟨hprop,hval⟩ := implicationImply_sound depth hX hE himp hhs hhs0 hb0
    exact ⟨hprop,hval.trans ⟨fun h hall => (v.holds_imply _ _).mpr (h hall),
      fun h hall => (v.holds_imply _ _).mp (h hall)⟩⟩
  | not ht => exact cImply_sound hhs (.not ht)
  | @atom r ts hr h hc =>
    have hstep : implicationStep E depth implication hs (.node r ts) = cImply hs (.node r ts) := by
      cases r <;> first | rfl | cases hr
    rw [hstep]
    exact cImply_sound hhs (.atom hr h hc)

end Step

theorem implicationFuel_sound (hX : X.InjOn Var.vid) (hE : E.Sound v X) (n : ℕ) :
    Implies v X (implicationFuel E depth n) := by
  induction n with
  | zero => exact fun hs b hhs hb => cImply_sound hhs hb
  | succ n ih => exact implicationStep_sound depth hX hE ih

theorem implication_sound (hX : X.InjOn Var.vid) (hE : E.Sound v X) (hhs : ∀ h ∈ hs, Propositional X h)
    (hb : Propositional X b) : Propositional X (implication E depth hs b) ∧
      (v.holds (implication E depth hs b) ↔ (AllHold v hs → v.holds b)) :=
  implicationFuel_sound depth hX hE b.height hs b hhs hb

section Harmless
variable (v E)

/-- A disjunction that is absorbed holds; one that loses its disjuncts does not; a disjunct that stays alone has the
value of the disjunction, or this is made up for below; one of several that stay holds if the disjunction does.
Hypotheses of an implication are not absorbed, unless the conclusion is already true. -/
def harmlessStep (hs : List (Term ADT Field Fun)) (consequenceAux : Term ADT Field Fun → Term ADT Field Fun)
    (harmless : Term ADT Field Fun → Prop) (x : Term ADT Field Fun) : Prop :=
  match x with
  | .node .and xs =>
    match consequenceAnd E depth hs xs with
    | none => True
    | some w =>
      match w.terms with
      | [y] => harmless y
      | _ => True
  | .node .or xs =>
    match consequenceAnd E depth hs xs with
    | none => v.holds x
    | some w =>
      match w.terms with
      | [] => ¬ v.holds x
      | [y] => harmless y ↔ (v.holds x → v.holds y)
      | ys => v.holds x → ∃ y ∈ ys, v.holds y
  | .node .not [y] => harmless y
  | .node .imply (b :: xs) =>
    match consequenceAnd E depth hs xs with
    | none => (consequenceAux b).label = .true
    | some _ => AllHold v xs → harmless b
  | _ => True

def harmlessFuel (hs : List (Term ADT Field Fun)) : ℕ → Term ADT Field Fun → Prop
  | 0 => fun _ => True
  | n + 1 => harmlessStep v E depth hs (consequenceFuel E depth hs n) (harmlessFuel hs n)

/-- What is done to the disjunctions and implications that the simplification comes to does not change their value. -/
def Harmless (h x : Term ADT Field Fun) : Prop :=
  h.label = .true ∨ h.label = .false ∨ h = x ∨ h = eNot E (depth + 1) x ∨
    match h with
    | .node .and hs => harmlessFuel v E depth hs x.height x
    | _ => harmlessFuel v E depth [h] x.height x

end Harmless

section Step
variable {aux : Term ADT Field Fun → Term ADT Field Fun} {harmless : Term ADT Field Fun → Prop}
variable {xs : List (Term ADT Field Fun)}

/-- Smaller terms are simplified to propositions, whose value is kept if and only if that is harmless. -/
def AuxSound (v : Valuation ADT Field Fun) (X : Set (Var ADT Field)) (aux : Term ADT Field Fun → Term ADT Field Fun)
    (harmless : Term ADT Field Fun → Prop) : Prop :=
  ∀ y, Propositional X y → Propositional X (aux y) ∧ ((v.holds (aux y) ↔ v.holds y) ↔ harmless y)

theorem consequenceStep_and (hX : X.InjOn Var.vid) (hE : E.Sound v X) (hhs : ∀ h ∈ hs, Propositional X h)
    (hall : AllHold v hs) (haux : AuxSound v X aux harmless) (hxs : ∀ x ∈ xs, Propositional X x) :
    Propositional X (consequenceStep E depth aux hs (.node .and xs)) ∧
      ((v.holds (consequenceStep E depth aux hs (.node .and xs)) ↔ v.holds (.node .and xs)) ↔
        harmlessStep v E depth hs aux harmless (.node .and xs)) := by
  have hfilter := consequenceAnd_spec depth hX hE hhs hxs
  unfold consequenceStep harmlessStep
  simp only
  cases hf : consequenceAnd E depth hs xs with
  | none =>
    rw [hf] at hfilter
    have hfalse : ¬ v.holds (.node .and xs) := fun h => hfilter hall ((v.holds_and xs).mp h)
    exact ⟨.false,iff_of_true (iff_of_false v.not_holds_false hfalse) trivial⟩
  | some w =>
    rw [hf] at hfilter
    have hval : v.holds (.node .and xs) ↔ AllHold v w.terms := (v.holds_and xs).trans (allHold_filtered hfilter hall)
    have hsub := hfilter.1
    obtain ⟨modif,terms⟩ := w
    simp only at hval hsub ⊢
    rcases terms with _ | ⟨y,_ | ⟨z,ys⟩⟩
    · have hholds : v.holds (.node .and xs) := hval.mpr (by simp [AllHold])
      exact ⟨.true,iff_of_true (iff_of_true v.holds_true hholds) trivial⟩
    · obtain ⟨hprop,hy⟩ := haux y (hxs y (hsub y (by simp)))
      have hone : v.holds (.node .and xs) ↔ v.holds y := hval.trans List.forall_mem_singleton
      rw [hone]
      exact ⟨hprop,hy⟩
    · cases modif with
      | true => exact ⟨.cAnd fun t ht => hxs t (hsub t ht),iff_of_true ((holds_cAnd _).trans hval.symm) trivial⟩
      | false => exact ⟨.and hxs,iff_of_true Iff.rfl trivial⟩

theorem consequenceStep_or (hX : X.InjOn Var.vid) (hE : E.Sound v X) (hhs : ∀ h ∈ hs, Propositional X h)
    (haux : AuxSound v X aux harmless) (hxs : ∀ x ∈ xs, Propositional X x) :
    Propositional X (consequenceStep E depth aux hs (.node .or xs)) ∧
      ((v.holds (consequenceStep E depth aux hs (.node .or xs)) ↔ v.holds (.node .or xs)) ↔
        harmlessStep v E depth hs aux harmless (.node .or xs)) := by
  have hfilter := consequenceAnd_spec depth hX hE hhs hxs
  have htrue : v.holds (eTrue : Term ADT Field Fun) := v.holds_true
  have hfalse : ¬ v.holds (eFalse : Term ADT Field Fun) := v.not_holds_false
  unfold consequenceStep harmlessStep
  simp only
  cases hf : consequenceAnd E depth hs xs with
  | none => exact ⟨.true,⟨fun h => h.mp htrue,fun h => iff_of_true htrue h⟩⟩
  | some w =>
    rw [hf] at hfilter
    have hsub := hfilter.1
    have hmodif := hfilter.2.2
    obtain ⟨modif,terms⟩ := w
    simp only at hsub hmodif ⊢
    have hkept : ∀ y ∈ terms, v.holds y → v.holds (.node .or xs) :=
      fun y hy hv => (v.holds_or xs).mpr ⟨y,hsub y hy,hv⟩
    rcases terms with _ | ⟨y,_ | ⟨z,ys⟩⟩
    · exact ⟨.false,⟨fun h hx => hfalse (h.mpr hx),fun h => iff_of_false hfalse h⟩⟩
    · obtain ⟨hprop,hy⟩ := haux y (hxs y (hsub y (by simp)))
      have hyx := hkept y (by simp)
      refine ⟨hprop,?_⟩
      show (v.holds (aux y) ↔ v.holds (.node .or xs)) ↔ (harmless y ↔ (v.holds (.node .or xs) → v.holds y))
      rw [← hy]
      by_cases h1 : v.holds y <;> by_cases h2 : v.holds (.node .or xs) <;> by_cases h3 : v.holds (aux y) <;>
        simp_all
    · have hex : (∃ t ∈ y :: z :: ys, v.holds t) → v.holds (.node .or xs) := by
        rintro ⟨t,ht,hv⟩
        exact hkept t ht hv
      cases modif with
      | true =>
        refine ⟨.cOr fun t ht => hxs t (hsub t ht),?_⟩
        show (v.holds (cOr (y :: z :: ys)) ↔ v.holds (.node .or xs)) ↔
          (v.holds (.node .or xs) → ∃ t ∈ y :: z :: ys, v.holds t)
        rw [holds_cOr]
        exact ⟨fun h => h.mpr,fun h => ⟨hex,h⟩⟩
      | false =>
        refine ⟨.or hxs,iff_of_true Iff.rfl fun h => ?_⟩
        rw [hmodif rfl]
        exact (v.holds_or xs).mp h

theorem imply_filtered (hX : X.InjOn Var.vid) (hE : E.Sound v X) (hall : AllHold v hs) (hb : Propositional X b)
    (hxs : ∀ x ∈ xs, Propositional X x) {w : Filtered ADT Field Fun} (hfilter : AndSpec v hs xs (some w))
    {b' : Term ADT Field Fun} (hb' : Propositional X b') :
    let t := if b = b' ∧ ¬ w.modif then .node .imply (b :: xs)
      else if w.modif ∧ w.terms = [] then b'
      else if b = b' then cImply w.terms b'
      else implication E depth w.terms b'
    Propositional X t ∧ (v.holds t ↔ (AllHold v xs → v.holds b')) := by
  have hterms : ∀ t ∈ w.terms, Propositional X t := fun t ht => hxs t (hfilter.1 t ht)
  have hsame : AllHold v xs ↔ AllHold v w.terms := allHold_filtered hfilter hall
  dsimp only
  split
  · next heq =>
    refine ⟨.imply hb hxs,?_⟩
    rw [v.holds_imply,heq.1]
    exact Iff.rfl
  split
  · next hnil =>
    have hholds : AllHold v xs := hsame.mpr (by rw [hnil.2]; simp [AllHold])
    exact ⟨hb',fun h _ => h,fun h => h hholds⟩
  split
  · obtain ⟨hprop,hval⟩ := cImply_sound (v := v) hterms hb'
    exact ⟨hprop,by rw [hval,hsame]⟩
  · obtain ⟨hprop,hval⟩ := implication_sound depth hX hE hterms hb'
    exact ⟨hprop,by rw [hval,hsame]⟩

theorem consequenceStep_imply (hX : X.InjOn Var.vid) (hE : E.Sound v X) (hhs : ∀ h ∈ hs, Propositional X h)
    (hall : AllHold v hs) (haux : AuxSound v X aux harmless) (hb : Propositional X b)
    (hxs : ∀ x ∈ xs, Propositional X x) :
    Propositional X (consequenceStep E depth aux hs (.node .imply (b :: xs))) ∧
      ((v.holds (consequenceStep E depth aux hs (.node .imply (b :: xs))) ↔ v.holds (.node .imply (b :: xs))) ↔
        harmlessStep v E depth hs aux harmless (.node .imply (b :: xs))) := by
  have hfilter := consequenceAnd_spec depth hX hE hhs hxs
  have himply : v.holds (.node .imply (b :: xs)) ↔ (AllHold v xs → v.holds b) := v.holds_imply b xs
  obtain ⟨hb',hval⟩ := haux b hb
  unfold consequenceStep harmlessStep
  simp only
  by_cases hlabel : (aux b).label = .true
  · have hholds : v.holds (aux b) := by
      revert hb' hlabel
      generalize aux b = b'
      obtain ⟨r,ts⟩ := b'
      rintro hb' rfl
      rw [hb'.nil_of_true]
      exact v.holds_true
    rw [if_pos hlabel]
    refine ⟨hb',?_⟩
    cases hf : consequenceAnd E depth hs xs with
    | none =>
      rw [hf] at hfilter
      exact iff_of_true (iff_of_true hholds (himply.mpr fun h => absurd h (hfilter hall))) hlabel
    | some w =>
      rw [himply,← hval]
      exact ⟨fun h hxs => iff_of_true hholds (h.mp hholds hxs),
        fun h => iff_of_true hholds fun hxs => (h hxs).mp hholds⟩
  · rw [if_neg hlabel]
    cases hf : consequenceAnd E depth hs xs with
    | none =>
      rw [hf] at hfilter
      refine ⟨.false,iff_of_false (fun h => ?_) hlabel⟩
      exact v.not_holds_false (h.mpr (himply.mpr fun h => absurd h (hfilter hall)))
    | some w =>
      rw [hf] at hfilter
      obtain ⟨hprop,ht⟩ := imply_filtered depth hX hE hall hb hxs hfilter hb'
      refine ⟨hprop,?_⟩
      simp only
      rw [ht,himply,← hval]
      exact ⟨fun h hxs => ⟨fun hb => h.mp (fun _ => hb) hxs,fun hb => h.mpr (fun _ => hb) hxs⟩,fun h => imp_congr_right h⟩

theorem consequenceStep_sound (hX : X.InjOn Var.vid) (hE : E.Sound v X) (hhs : ∀ h ∈ hs, Propositional X h)
    (hall : AllHold v hs) (haux : AuxSound v X aux harmless) {x : Term ADT Field Fun} (hx : Propositional X x) :
    Propositional X (consequenceStep E depth aux hs x) ∧
      ((v.holds (consequenceStep E depth aux hs x) ↔ v.holds x) ↔ harmlessStep v E depth hs aux harmless x) := by
  cases hx with
  | and hxs => exact consequenceStep_and depth hX hE hhs hall haux hxs
  | or hxs => exact consequenceStep_or depth hX hE hhs haux hxs
  | @not y hy =>
    obtain ⟨hprop,hval⟩ := haux y hy
    obtain ⟨hprop',hval'⟩ := eNot_sound hX hE (depth + 1) (aux y) hprop
    refine ⟨hprop',?_⟩
    show (v.holds (eNot E (depth + 1) (aux y)) ↔ v.holds (.node .not [y])) ↔ harmless y
    rw [hval',v.holds_not,not_iff_not]
    exact hval
  | imply hb hxs => exact consequenceStep_imply depth hX hE hhs hall haux hb hxs
  | @atom r ts hr h hc =>
    have hstep : consequenceStep E depth aux hs (.node r ts) = .node r ts := by
      cases r <;> first | rfl | cases hr
    have hharmless : harmlessStep v E depth hs aux harmless (.node r ts) := by
      cases r <;> first | exact trivial | cases hr
    rw [hstep]
    exact ⟨.atom hr h hc,iff_of_true Iff.rfl hharmless⟩

end Step

theorem consequenceFuel_sound (hX : X.InjOn Var.vid) (hE : E.Sound v X) (hhs : ∀ h ∈ hs, Propositional X h)
    (hall : AllHold v hs) (n : ℕ) {x : Term ADT Field Fun} (hx : Propositional X x) :
    Propositional X (consequenceFuel E depth hs n x) ∧
      ((v.holds (consequenceFuel E depth hs n x) ↔ v.holds x) ↔ harmlessFuel v E depth hs n x) := by
  induction n generalizing x with
  | zero => exact ⟨hx,iff_of_true Iff.rfl trivial⟩
  | succ n ih => exact consequenceStep_sound depth hX hE hhs hall (fun y hy => ih hy) hx

end Soundness

section Predicates

local instance predicateFieldSymbol : FieldSymbol ℕ := { instOrdNat with sort := fun _ => .int }
local instance predicateFunSymbol : FunSymbol Bool :=
  { (inferInstance : Ord Bool) with category := fun _ => .function, sort := fun _ => .bool }

abbrev PredicateTerm := Term ℕ ℕ Bool

def holding : PredicateTerm := .node (.func true) []
def failing : PredicateTerm := .node (.func false) []

def plainExterns : Externs ℕ ℕ Bool := ⟨fun x y => .node .leq [x,y],fun x y => .node .lt [x,y],fun _ => none⟩

theorem predicate_propositional (f : Bool) : Propositional ∅ (.node (.func f) [] : PredicateTerm) :=
  .atom trivial (.node ⟨trivial,by simp⟩ (by simp)) (.node (by simp) (by simp) (by simp))

end Predicates
end FramaC.Qed
