import Mathlib.Data.Set.Basic
import Mathlib.Data.List.Perm.Basic
import Mathlib.Data.List.Nodup
import Mathlib.Data.List.Pairwise

/-! # Comparison functions

When a three-way comparison orders the members of a set, and the comparisons built from ones that do.
-/
namespace FramaC.Comparison
variable {α β : Type} {cmp cmp1 cmp2 : α → α → Ordering} {S T : Set α}

/-- The comparison is a total preorder on the set. -/
structure OrderOn (cmp : α → α → Ordering) (S : Set α) : Prop where
  swap : ∀ a ∈ S, ∀ b ∈ S, cmp b a = (cmp a b).swap
  trans : ∀ a ∈ S, ∀ b ∈ S, ∀ c ∈ S, (cmp a b).isLE → (cmp b c).isLE → (cmp a c).isLE

namespace OrderOn

theorem self (h : OrderOn cmp S) {a : α} (ha : a ∈ S) : cmp a a = .eq :=
  Ordering.eq_eq_of_eq_swap (h.swap a ha a ha)

theorem mono (h : OrderOn cmp T) (hST : S ⊆ T) : OrderOn cmp S :=
  ⟨fun a ha b hb => h.swap a (hST ha) b (hST hb),fun a ha b hb c hc => h.trans a (hST ha) b (hST hb) c (hST hc)⟩

theorem congr (h : OrderOn cmp1 S) (heq : ∀ a ∈ S, ∀ b ∈ S, cmp a b = cmp1 a b) : OrderOn cmp S := by
  constructor
  · intro a ha b hb
    rw [heq a ha b hb,heq b hb a ha]
    exact h.swap a ha b hb
  · intro a ha b hb c hc
    rw [heq a ha b hb,heq b hb c hc,heq a ha c hc]
    exact h.trans a ha b hb c hc

theorem eq_left (h : OrderOn cmp S) {a b c : α} (ha : a ∈ S) (hb : b ∈ S) (hc : c ∈ S) (hab : cmp a b = .eq) :
    cmp a c = cmp b c := by
  have hba : cmp b a = .eq := by rw [h.swap a ha b hb,hab]; rfl
  have h1 := h.trans a ha b hb c hc (by rw [hab]; rfl)
  have h2 := h.trans b hb a ha c hc (by rw [hba]; rfl)
  have h3 := h.trans c hc a ha b hb
  have h4 := h.trans c hc b hb a ha
  rw [h.swap a ha c hc,h.swap b hb c hc,hab] at h3
  rw [h.swap a ha c hc,h.swap b hb c hc,hba] at h4
  revert h1 h2 h3 h4
  cases cmp a c <;> cases cmp b c <;> simp

theorem lt_trans (h : OrderOn cmp S) {a b c : α} (ha : a ∈ S) (hb : b ∈ S) (hc : c ∈ S) (hab : cmp a b = .lt)
    (hbc : cmp b c = .lt) : cmp a c = .lt := by
  have hle := h.trans a ha b hb c hc (by rw [hab]; rfl) (by rw [hbc]; rfl)
  cases hac : cmp a c with
  | lt => rfl
  | gt =>
    rw [hac] at hle
    cases hle
  | eq =>
    rw [h.eq_left ha hc hb hac,h.swap b hb c hc,hbc] at hab
    cases hab

theorem lt_of_lt_of_eq (h : OrderOn cmp S) {a b c : α} (ha : a ∈ S) (hb : b ∈ S) (hc : c ∈ S) (hab : cmp a b = .lt)
    (hbc : cmp b c = .eq) : cmp a c = .lt := by
  have hcb : cmp c b = .eq := by rw [h.swap b hb c hc,hbc]; rfl
  rw [h.swap c hc a ha,h.eq_left hc hb ha hcb,← h.swap b hb a ha]
  exact hab

theorem of_key {κ : Type} (key : α → κ) (c : κ → κ → Ordering) [Std.TransCmp c] (S : Set α) :
    OrderOn (fun a b => c (key a) (key b)) S := by
  constructor
  · intro a _ b _
    exact Std.OrientedCmp.eq_swap
  · intro a _ b _ d _ hab hbd
    exact Std.TransCmp.isLE_trans hab hbd

theorem comap {c : β → β → Ordering} {T : Set β} (h : OrderOn c T) (f : α → β) (hf : ∀ a ∈ S, f a ∈ T) :
    OrderOn (fun a b => c (f a) (f b)) S :=
  ⟨fun a ha b hb => h.swap _ (hf a ha) _ (hf b hb),
    fun a ha b hb c hc => h.trans _ (hf a ha) _ (hf b hb) _ (hf c hc)⟩

theorem then_of (h1 : OrderOn cmp1 S) (h2 : ∀ r ∈ S, OrderOn cmp2 {a | a ∈ S ∧ cmp1 r a = .eq}) :
    OrderOn (fun a b => (cmp1 a b).then (cmp2 a b)) S := by
  constructor
  · intro a ha b hb
    simp only [h1.swap a ha b hb]
    cases hab : cmp1 a b with
    | lt => rfl
    | gt => rfl
    | eq => exact (h2 a ha).swap a ⟨ha,h1.self ha⟩ b ⟨hb,hab⟩
  · intro a ha b hb c hc hab hbc
    rw [Ordering.isLE_then_iff_or] at *
    rcases hab with hab | ⟨hab,hab2⟩
    · rcases hbc with hbc | ⟨hbc,_⟩
      · exact Or.inl (h1.lt_trans ha hb hc hab hbc)
      · exact Or.inl (h1.lt_of_lt_of_eq ha hb hc hab hbc)
    · rw [h1.eq_left ha hb hc hab]
      rcases hbc with hbc | ⟨hbc,hbc2⟩
      · exact Or.inl hbc
      · have hbb : cmp1 b a = .eq := by rw [h1.swap a ha b hb,hab]; rfl
        exact Or.inr ⟨hbc,(h2 b hb).trans a ⟨ha,hbb⟩ b ⟨hb,h1.self hb⟩ c ⟨hc,hbc⟩ hab2 hbc2⟩

theorem chain (h1 : OrderOn cmp1 S) (h2 : OrderOn cmp2 S) : OrderOn (fun a b => (cmp1 a b).then (cmp2 a b)) S :=
  h1.then_of fun _ _ => h2.mono fun _ ha => ha.1

theorem list (h : OrderOn cmp S) : OrderOn (List.compareLex cmp) {l | ∀ a ∈ l, a ∈ S} := by
  constructor
  · intro l hl m hm
    induction l generalizing m with
    | nil => cases m <;> rfl
    | cons a l ih =>
      cases m with
      | nil => rfl
      | cons b m =>
        rw [List.compareLex_cons_cons,List.compareLex_cons_cons,h.swap a (hl a (by simp)) b (hm b (by simp)),
          ih (fun x hx => hl x (by simp [hx])) m fun x hx => hm x (by simp [hx]),Ordering.swap_then]
  · intro l hl m hm n hn hlm hmn
    induction l generalizing m n with
    | nil => exact List.isLE_compareLex_nil_left
    | cons a l ih =>
      cases m with
      | nil => cases hlm
      | cons b m =>
        cases n with
        | nil => cases hmn
        | cons c n =>
          have ha := hl a (by simp)
          have hb := hm b (by simp)
          have hc := hn c (by simp)
          rw [List.compareLex_cons_cons,Ordering.isLE_then_iff_or] at *
          rcases hlm with hab | ⟨hab,hlm⟩
          · rcases hmn with hbc | ⟨hbc,_⟩
            · exact Or.inl (h.lt_trans ha hb hc hab hbc)
            · exact Or.inl (h.lt_of_lt_of_eq ha hb hc hab hbc)
          · rw [h.eq_left ha hb hc hab]
            rcases hmn with hbc | ⟨hbc,hmn⟩
            · exact Or.inl hbc
            · exact Or.inr ⟨hbc,ih (fun x hx => hl x (by simp [hx])) m (fun x hx => hm x (by simp [hx])) n
                (fun x hx => hn x (by simp [hx])) hlm hmn⟩

end OrderOn

/-- `none` is before the other values. -/
def optCompare (f : α → α → Ordering) : Option α → Option α → Ordering
  | none, none => .eq
  | some _, none => .gt
  | none, some _ => .lt
  | some v1, some v2 => f v1 v2

theorem OrderOn.option (h : OrderOn cmp S) : OrderOn (optCompare cmp) {o | ∀ a ∈ o, a ∈ S} := by
  constructor
  · intro o ho p hp
    cases o with
    | none => cases p <;> rfl
    | some a =>
      cases p with
      | none => rfl
      | some b => exact h.swap a (ho a rfl) b (hp b rfl)
  · intro o ho p hp q hq hop hpq
    cases o with
    | none => cases q <;> rfl
    | some a =>
      cases p with
      | none => cases hop
      | some b =>
        cases q with
        | none => cases hpq
        | some c => exact h.trans a (ho a rfl) b (hp b rfl) c (hq c rfl) hop hpq

end FramaC.Comparison

/-! ## Sorting without duplicates

A merge sort that drops one of two elements that compare equal, for comparisons that can raise an exception.
-/
namespace FramaC
open Comparison
variable {α : Type}

/-- Merge `a`, and then `self`, into a list. `rest` merges `self`. -/
def mergeUniqCons (cmp : α → α → Option Ordering) (a : α) (self : List α) (rest : List α → Option (List α)) :
    List α → Option (List α)
  | [] => some (a :: self)
  | b :: m =>
    match cmp a b with
    | none => none
    | some .eq => (rest m).map (a :: ·)
    | some .lt => (rest (b :: m)).map (a :: ·)
    | some .gt => (mergeUniqCons cmp a self rest m).map (b :: ·)

def mergeUniq (cmp : α → α → Option Ordering) : List α → List α → Option (List α)
  | [] => some
  | a :: l => mergeUniqCons cmp a l (mergeUniq cmp l)

def sortUniqDepth (cmp : α → α → Option Ordering) : ℕ → List α → Option (List α)
  | 0, l => some l
  | depth + 1, l =>
    if l.length < 2 then some l
    else do
      let l1 ← sortUniqDepth cmp depth (l.take (l.length / 2))
      let l2 ← sortUniqDepth cmp depth (l.drop (l.length / 2))
      mergeUniq cmp l1 l2

/-- The sorted list without duplicates, `none` when a comparison raises. -/
def sortUniq (cmp : α → α → Option Ordering) (l : List α) : Option (List α) := sortUniqDepth cmp l.length l

/-- The comparison orders the members of a set by `c`, except for pairs that raise. -/
structure Raising (cmp : α → α → Option Ordering) (c : α → α → Ordering) (clash : α → α → Prop) (S : Set α) : Prop where
  order : OrderOn c S
  raises : ∀ a ∈ S, ∀ b ∈ S, clash a b → cmp a b = none
  compares : ∀ a ∈ S, ∀ b ∈ S, ¬ clash a b → cmp a b = some (c a b)
  identity : ∀ a ∈ S, ∀ b ∈ S, ¬ clash a b → c a b = .eq → a = b
  clash_eq : ∀ a ∈ S, ∀ b ∈ S, clash a b → c a b = .eq
  clash_ne : ∀ a b, clash a b → a ≠ b

/-- The members of `l` and `m`, in the strict order. -/
def IsMerge (c : α → α → Ordering) (l m r : List α) : Prop :=
  r.Pairwise (fun a b => c a b = .lt) ∧ ∀ a, a ∈ r ↔ a ∈ l ∨ a ∈ m

def MergesTo (c : α → α → Ordering) (clash : α → α → Prop) (l m : List α) : Option (List α) → Prop
  | some r => IsMerge c l m r
  | none => ∃ a b, (a ∈ l ∨ a ∈ m) ∧ (b ∈ l ∨ b ∈ m) ∧ clash a b

theorem MergesTo.map_cons {c : α → α → Ordering} {clash : α → α → Prop} {l m l' m' : List α} {o : Option (List α)} {x : α}
    (h : MergesTo c clash l' m' o) (hlt : ∀ y, y ∈ l' ∨ y ∈ m' → c x y = .lt)
    (hmem : ∀ y, y ∈ l ∨ y ∈ m ↔ y = x ∨ y ∈ l' ∨ y ∈ m') : MergesTo c clash l m (o.map (x :: ·)) := by
  cases o with
  | none =>
    obtain ⟨a,b,ha,hb,hab⟩ := h
    exact ⟨a,b,(hmem a).mpr (Or.inr ha),(hmem b).mpr (Or.inr hb),hab⟩
  | some r =>
    obtain ⟨hsorted,hr⟩ := h
    refine ⟨List.pairwise_cons.mpr ⟨fun y hy => hlt y ((hr y).mp hy),hsorted⟩,fun y => ?_⟩
    rw [List.mem_cons,hr y]
    exact (hmem y).symm

namespace Raising
variable {cmp : α → α → Option Ordering} {c : α → α → Ordering} {clash : α → α → Prop} {S : Set α}

theorem mergeUniq_spec (h : Raising cmp c clash S) {l m : List α} (hl : ∀ a ∈ l, a ∈ S) (hm : ∀ a ∈ m, a ∈ S)
    (hsl : l.Pairwise fun a b => c a b = .lt) (hsm : m.Pairwise fun a b => c a b = .lt) :
    MergesTo c clash l m (mergeUniq cmp l m) := by
  induction l generalizing m with
  | nil => exact ⟨hsm,fun a => by simp⟩
  | cons a l ihl =>
    obtain ⟨hal,hsl'⟩ := List.pairwise_cons.mp hsl
    have ha := hl a (by simp)
    have hl' : ∀ x ∈ l, x ∈ S := fun x hx => hl x (by simp [hx])
    rw [mergeUniq]
    induction m with
    | nil => exact ⟨hsl,fun x => by simp⟩
    | cons b m ihm =>
      obtain ⟨hbm,hsm'⟩ := List.pairwise_cons.mp hsm
      have hb := hm b (by simp)
      have hm' : ∀ x ∈ m, x ∈ S := fun x hx => hm x (by simp [hx])
      rw [mergeUniqCons]
      by_cases hclash : clash a b
      · rw [h.raises a ha b hb hclash]
        exact ⟨a,b,by simp,by simp,hclash⟩
      rw [h.compares a ha b hb hclash]
      cases hc : c a b with
      | eq =>
        have hab := h.identity a ha b hb hclash hc
        subst hab
        refine (ihl hl' hm' hsl' hsm').map_cons (fun x hx => hx.elim (hal x) (hbm x)) fun x => ?_
        rw [List.mem_cons,List.mem_cons]
        tauto
      | lt =>
        refine (ihl hl' hm hsl' hsm).map_cons (fun x hx => hx.elim (hal x) fun hx => ?_) fun x => ?_
        · rcases List.mem_cons.mp hx with rfl | hx
          · exact hc
          · exact h.order.lt_trans ha hb (hm' x hx) hc (hbm x hx)
        · rw [List.mem_cons,or_assoc]
      | gt =>
        have hba : c b a = .lt := by rw [h.order.swap a ha b hb,hc]; rfl
        refine (ihm hm' hsm').map_cons (fun x hx => hx.elim (fun hx => ?_) (hbm x)) fun x => ?_
        · rcases List.mem_cons.mp hx with rfl | hx
          · exact hba
          · exact h.order.lt_trans hb ha (hl' x hx) hba (hal x hx)
        · rw [List.mem_cons (l := m)]
          tauto

theorem sortUniqDepth_spec (h : Raising cmp c clash S) {n : ℕ} {l : List α} (hl : ∀ a ∈ l, a ∈ S) (hn : l.length ≤ n) :
    MergesTo c clash l [] (sortUniqDepth cmp n l) := by
  induction n generalizing l with
  | zero =>
    rw [List.length_eq_zero_iff.mp (Nat.le_zero.mp hn)]
    exact ⟨List.Pairwise.nil,fun a => by simp⟩
  | succ n ih =>
    rw [sortUniqDepth]
    split
    · next hshort =>
      refine ⟨?_,fun a => by simp⟩
      match l, hshort with
      | [], _ => exact List.Pairwise.nil
      | [a], _ => exact List.pairwise_singleton _ a
    · next hlong =>
      have htake : ∀ a ∈ l.take (l.length / 2), a ∈ l := fun a ha => List.mem_of_mem_take ha
      have hdrop : ∀ a ∈ l.drop (l.length / 2), a ∈ l := fun a ha => List.mem_of_mem_drop ha
      have hsplit : ∀ a, a ∈ l ↔ a ∈ l.take (l.length / 2) ∨ a ∈ l.drop (l.length / 2) := by
        intro a
        rw [← List.mem_append,List.take_append_drop]
      have h1 := ih (fun a ha => hl a (htake a ha)) (by rw [List.length_take]; omega)
      have h2 := ih (fun a ha => hl a (hdrop a ha)) (by rw [List.length_drop]; omega)
      cases hr1 : sortUniqDepth cmp n (l.take (l.length / 2)) with
      | none =>
        rw [hr1] at h1
        obtain ⟨a,b,ha,hb,hab⟩ := h1
        exact ⟨a,b,Or.inl (htake a (by simpa using ha)),Or.inl (htake b (by simpa using hb)),hab⟩
      | some r1 =>
        cases hr2 : sortUniqDepth cmp n (l.drop (l.length / 2)) with
        | none =>
          rw [hr2] at h2
          obtain ⟨a,b,ha,hb,hab⟩ := h2
          exact ⟨a,b,Or.inl (hdrop a (by simpa using ha)),Or.inl (hdrop b (by simpa using hb)),hab⟩
        | some r2 =>
          rw [hr1] at h1
          rw [hr2] at h2
          have hmem1 : ∀ a, a ∈ r1 ↔ a ∈ l.take (l.length / 2) := fun a => (h1.2 a).trans (by simp)
          have hmem2 : ∀ a, a ∈ r2 ↔ a ∈ l.drop (l.length / 2) := fun a => (h2.2 a).trans (by simp)
          have hmerge := h.mergeUniq_spec (fun a ha => hl a (htake a ((hmem1 a).mp ha)))
            (fun a ha => hl a (hdrop a ((hmem2 a).mp ha))) h1.1 h2.1
          show MergesTo c clash l [] (mergeUniq cmp r1 r2)
          cases hr : mergeUniq cmp r1 r2 with
          | none =>
            rw [hr] at hmerge
            obtain ⟨a,b,ha,hb,hab⟩ := hmerge
            rw [hmem1,hmem2,← hsplit] at ha hb
            exact ⟨a,b,Or.inl ha,Or.inl hb,hab⟩
          | some r =>
            rw [hr] at hmerge
            refine ⟨hmerge.1,fun a => ?_⟩
            rw [hmerge.2,hmem1,hmem2,← hsplit]
            simp

theorem sortUniq_spec (h : Raising cmp c clash S) {l : List α} (hl : ∀ a ∈ l, a ∈ S) :
    MergesTo c clash l [] (sortUniq cmp l) := h.sortUniqDepth_spec hl le_rfl

theorem pairwise_lt (h : Raising cmp c clash S) {r : List α} (hr : ∀ a ∈ r, a ∈ S)
    (hsorted : r.Pairwise fun a b => c a b = .lt) {a b : α} (ha : a ∈ r) (hb : b ∈ r) (hne : a ≠ b) : c a b ≠ .eq := by
  have hsymm : Std.Symm fun x y => c x y = .lt ∨ c y x = .lt := ⟨fun _ _ hxy => hxy.symm⟩
  have hor : r.Pairwise fun x y => c x y = .lt ∨ c y x = .lt := hsorted.imp Or.inl
  intro heq
  have hlt := hor.forall ha hb hne
  rw [h.order.swap a (hr a ha) b (hr b hb),heq] at hlt
  rcases hlt with hlt | hlt <;> cases hlt

theorem sortUniq_eq_none (h : Raising cmp c clash S) {l : List α} (hl : ∀ a ∈ l, a ∈ S) :
    sortUniq cmp l = none ↔ ∃ a ∈ l, ∃ b ∈ l, clash a b := by
  have hspec := h.sortUniq_spec hl
  cases hr : sortUniq cmp l with
  | none =>
    rw [hr] at hspec
    obtain ⟨a,b,ha,hb,hab⟩ := hspec
    exact ⟨fun _ => ⟨a,by simpa using ha,b,by simpa using hb,hab⟩,fun _ => rfl⟩
  | some r =>
    rw [hr] at hspec
    refine ⟨(fun hn => by cases hn),?_⟩
    rintro ⟨a,ha,b,hb,hab⟩
    have hmem : ∀ x, x ∈ r ↔ x ∈ l := fun x => (hspec.2 x).trans (by simp)
    exact absurd (h.clash_eq a (hl a ha) b (hl b hb) hab) (h.pairwise_lt (fun x hx => hl x ((hmem x).mp hx)) hspec.1
      ((hmem a).mpr ha) ((hmem b).mpr hb) (h.clash_ne a b hab))

theorem sortUniq_congr (h : Raising cmp c clash S) {l m : List α} (hl : ∀ a ∈ l, a ∈ S) (hlm : ∀ a, a ∈ l ↔ a ∈ m) :
    sortUniq cmp l = sortUniq cmp m := by
  have hm : ∀ a ∈ m, a ∈ S := fun a ha => hl a ((hlm a).mpr ha)
  have hnone : sortUniq cmp l = none ↔ sortUniq cmp m = none := by
    rw [h.sortUniq_eq_none hl,h.sortUniq_eq_none hm]
    simp only [hlm]
  cases hrl : sortUniq cmp l with
  | none => exact (hnone.mp hrl).symm
  | some r =>
    cases hrm : sortUniq cmp m with
    | none =>
      rw [hnone.mpr hrm] at hrl
      cases hrl
    | some s =>
      have hsl := h.sortUniq_spec hl
      have hsm := h.sortUniq_spec hm
      rw [hrl] at hsl
      rw [hrm] at hsm
      have hmem : ∀ a, a ∈ r ↔ a ∈ s := fun a => by simp [hsl.2 a,hsm.2 a,hlm a]
      have hrS : ∀ a ∈ r, a ∈ S := fun a ha => hl a (by simpa using (hsl.2 a).mp ha)
      have hne : ∀ a b, a ∈ S → c a b = .lt → a ≠ b := by
        rintro a b ha hab rfl
        rw [h.order.self ha] at hab
        cases hab
      have hnodup : ∀ t : List α, (∀ a ∈ t, a ∈ S) → (t.Pairwise fun a b => c a b = .lt) → t.Nodup := by
        intro t ht hsorted
        exact hsorted.imp_of_mem fun ha _ hab => hne _ _ (ht _ ha) hab
      have hsS : ∀ a ∈ s, a ∈ S := fun a ha => hrS a ((hmem a).mpr ha)
      have hperm : r.Perm s := (List.perm_ext_iff_of_nodup (hnodup r hrS hsl.1) (hnodup s hsS hsm.1)).mpr hmem
      refine congrArg some (hperm.eq_of_pairwise ?_ hsl.1 hsm.1)
      intro a b ha hb hab hba
      rw [h.order.swap a (hrS a ha) b (hsS b hb),hab] at hba
      cases hba

end Raising

/-- The outcome where nothing is known of the comparison: members that stand for all of them, or a comparison that
raises. -/
def Keeps (cmp : α → α → Option Ordering) (R : α → α → Prop) (l : List α) : Option (List α) → Prop
  | some r => (∀ a ∈ r, a ∈ l) ∧ ∀ a ∈ l, ∃ b ∈ r, R a b
  | none => ∃ a ∈ l, ∃ b ∈ l, cmp a b = none

namespace Keeps
variable {cmp : α → α → Option Ordering} {R : α → α → Prop}

theorem refl (hR : Equivalence R) (l : List α) : Keeps cmp R l (some l) :=
  ⟨fun _ ha => ha,fun a ha => ⟨a,ha,hR.refl a⟩⟩

theorem map_cons {l l' : List α} {o : Option (List α)} {x : α} (h : Keeps cmp R l' o)
    (hsub : ∀ a ∈ x :: l', a ∈ l) (hcover : ∀ a ∈ l, a ∈ l' ∨ R a x) : Keeps cmp R l (o.map (x :: ·)) := by
  cases o with
  | none =>
    obtain ⟨a,ha,b,hb,hab⟩ := h
    exact ⟨a,hsub a (by simp [ha]),b,hsub b (by simp [hb]),hab⟩
  | some r =>
    refine ⟨fun a ha => ?_,fun a ha => ?_⟩
    · rcases List.mem_cons.mp ha with rfl | ha
      · exact hsub a (by simp)
      · exact hsub a (by simp [h.1 a ha])
    · rcases hcover a ha with ha | ha
      · obtain ⟨b,hb,hab⟩ := h.2 a ha
        exact ⟨b,by simp [hb],hab⟩
      · exact ⟨x,by simp,ha⟩

theorem mergeUniq (hR : Equivalence R) {l m : List α} (heq : ∀ a ∈ l, ∀ b ∈ m, cmp a b = some .eq → R a b) :
    Keeps cmp R (l ++ m) (mergeUniq cmp l m) := by
  induction l generalizing m with
  | nil => exact refl hR m
  | cons a l ihl =>
    rw [FramaC.mergeUniq]
    induction m with
    | nil =>
      rw [List.append_nil]
      exact refl hR (a :: l)
    | cons b m ihm =>
      rw [mergeUniqCons]
      split
      · next hc => exact ⟨a,by simp,b,by simp,hc⟩
      · next hc =>
        have hab := heq a (by simp) b (by simp) hc
        refine (ihl fun x hx y hy => heq x (by simp [hx]) y (by simp [hy])).map_cons ?_ ?_
        · intro x hx
          simp only [List.mem_cons,List.mem_append] at hx ⊢
          tauto
        · intro x hx
          simp only [List.cons_append,List.mem_cons,List.mem_append] at hx ⊢
          rcases hx with rfl | hx | rfl | hx
          · exact Or.inr (hR.refl x)
          · exact Or.inl (Or.inl hx)
          · exact Or.inr (hR.symm hab)
          · exact Or.inl (Or.inr hx)
      · next hc =>
        refine (ihl fun x hx y hy => heq x (by simp [hx]) y hy).map_cons ?_ ?_
        · intro x hx
          simp only [List.mem_cons,List.mem_append] at hx ⊢
          tauto
        · intro x hx
          simp only [List.cons_append,List.mem_cons,List.mem_append] at hx ⊢
          rcases hx with rfl | hx
          · exact Or.inr (hR.refl x)
          · exact Or.inl hx
      · next hc =>
        refine (ihm fun x hx y hy => heq x hx y (by simp [hy])).map_cons ?_ ?_
        · intro x hx
          simp only [List.mem_cons,List.mem_append] at hx ⊢
          tauto
        · intro x hx
          simp only [List.cons_append,List.mem_cons,List.mem_append] at hx ⊢
          rcases hx with rfl | hx | rfl | hx
          · exact Or.inl (Or.inl rfl)
          · exact Or.inl (Or.inr (Or.inl hx))
          · exact Or.inr (hR.refl x)
          · exact Or.inl (Or.inr (Or.inr hx))

theorem sortUniqDepth (hR : Equivalence R) {n : ℕ} {l : List α}
    (heq : ∀ a ∈ l, ∀ b ∈ l, cmp a b = some .eq → R a b) : Keeps cmp R l (sortUniqDepth cmp n l) := by
  induction n generalizing l with
  | zero => exact refl hR l
  | succ n ih =>
    rw [FramaC.sortUniqDepth]
    split
    · exact refl hR l
    have htake : ∀ a ∈ l.take (l.length / 2), a ∈ l := fun a ha => List.mem_of_mem_take ha
    have hdrop : ∀ a ∈ l.drop (l.length / 2), a ∈ l := fun a ha => List.mem_of_mem_drop ha
    have h1 := ih fun a ha b hb => heq a (htake a ha) b (htake b hb)
    have h2 := ih fun a ha b hb => heq a (hdrop a ha) b (hdrop b hb)
    cases hr1 : FramaC.sortUniqDepth cmp n (l.take (l.length / 2)) with
    | none =>
      rw [hr1] at h1
      obtain ⟨a,ha,b,hb,hab⟩ := h1
      exact ⟨a,htake a ha,b,htake b hb,hab⟩
    | some r1 =>
      cases hr2 : FramaC.sortUniqDepth cmp n (l.drop (l.length / 2)) with
      | none =>
        rw [hr2] at h2
        obtain ⟨a,ha,b,hb,hab⟩ := h2
        exact ⟨a,hdrop a ha,b,hdrop b hb,hab⟩
      | some r2 =>
        rw [hr1] at h1
        rw [hr2] at h2
        have hsub : ∀ a ∈ r1 ++ r2, a ∈ l := fun a ha =>
          (List.mem_append.mp ha).elim (fun ha => htake a (h1.1 a ha)) fun ha => hdrop a (h2.1 a ha)
        have hmerge : Keeps cmp R (r1 ++ r2) (FramaC.mergeUniq cmp r1 r2) := mergeUniq hR fun a ha b hb =>
          heq a (htake a (h1.1 a ha)) b (hdrop b (h2.1 b hb))
        show Keeps cmp R l (FramaC.mergeUniq cmp r1 r2)
        cases hr : FramaC.mergeUniq cmp r1 r2 with
        | none =>
          rw [hr] at hmerge
          obtain ⟨a,ha,b,hb,hab⟩ := hmerge
          exact ⟨a,hsub a ha,b,hsub b hb,hab⟩
        | some r =>
          rw [hr] at hmerge
          refine ⟨fun a ha => hsub a (hmerge.1 a ha),fun a ha => ?_⟩
          have hcover : ∃ b ∈ r1 ++ r2, R a b := by
            rw [← List.take_append_drop (l.length / 2) l,List.mem_append] at ha
            rcases ha with ha | ha
            · obtain ⟨b,hb,hab⟩ := h1.2 a ha
              exact ⟨b,by simp [hb],hab⟩
            · obtain ⟨b,hb,hab⟩ := h2.2 a ha
              exact ⟨b,by simp [hb],hab⟩
          obtain ⟨b,hb,hab⟩ := hcover
          obtain ⟨d,hd,hbd⟩ := hmerge.2 b hb
          exact ⟨d,hd,hR.trans hab hbd⟩

theorem sortUniq (hR : Equivalence R) {l : List α} (heq : ∀ a ∈ l, ∀ b ∈ l, cmp a b = some .eq → R a b) :
    Keeps cmp R l (sortUniq cmp l) := sortUniqDepth hR heq

end Keeps
end FramaC
