import Mathlib

/-! # Gluing adjacent elements of a list

`m` tells which adjacent elements may be glued, `g` glues them. Under the laws below every list
has a canonical form, in which no two neighbours can be glued, and gluing parts of a list first
does not change it.
-/
namespace FramaC.Glue
variable {α : Type} (m : α → α → Bool) (g : α → α → α)

def cons (s : α) : List α → List α
  | [] => [s]
  | t :: l => if m s t then g s t :: l else s :: t :: l

@[grind =] def list : List α → List α
  | [] => []
  | s :: l => cons m g s (list l)

def Canonical (l : List α) : Prop := l.IsChain fun s t => m s t = false

/-- A glued element has the left side of its first part and the right side of its second one. -/
structure Laws (P : α → Prop) : Prop where
  closed : ∀ {s t}, P s → P t → m s t = true → P (g s t)
  right : ∀ u s t, m u (g s t) = m u s
  left : ∀ {s t u}, P s → P t → P u → m s t = true → m (g s t) u = m t u
  assoc : ∀ s t u, g (g s t) u = g s (g t u)

section Basic
variable {m g} {s t : α} {l l' : List α}

theorem canonical_nil : Canonical m ([] : List α) := List.IsChain.nil
theorem canonical_singleton (s : α) : Canonical m [s] := List.IsChain.singleton s

theorem Canonical.tail (h : Canonical m (s :: l)) : Canonical m l := List.isChain_of_isChain_cons h

theorem list_append (l l' : List α) : list m g (l ++ l') = l.foldr (cons m g) (list m g l') := by
  induction l with
  | nil => rfl
  | cons s l ih => rw [List.cons_append,list,ih,List.foldr_cons]

theorem cons_of_canonical (h : Canonical m (s :: l)) : cons m g s l = s :: l := by
  cases l with
  | nil => rfl
  | cons t l =>
    have hst : m s t = false := (List.isChain_cons_cons.mp h).1
    simp [cons,hst]

theorem list_of_canonical (h : Canonical m l) : list m g l = l := by
  induction l with
  | nil => rfl
  | cons s l ih => rw [list,ih h.tail,cons_of_canonical h]

theorem foldr_of_canonical (h : Canonical m (l ++ [t])) : l.foldr (cons m g) (t :: l') = l ++ t :: l' := by
  induction l with
  | nil => rfl
  | cons s l ih =>
    rw [List.foldr_cons,ih h.tail]
    cases l with
    | nil =>
      have hst : m s t = false := (List.isChain_cons_cons.mp h).1
      simp [cons,hst]
    | cons u l =>
      have hsu : m s u = false := (List.isChain_cons_cons.mp h).1
      simp [cons,hsu]

end Basic

section Laws
variable {m g} {P : α → Prop} (h : Laws m g P) {s t u : α} {l l' : List α}
include h

theorem Laws.forall_cons (hs : P s) (hl : ∀ t ∈ l, P t) : ∀ t ∈ cons m g s l, P t := by
  cases l with
  | nil => simpa [cons] using hs
  | cons t l =>
    obtain ⟨ht,hl⟩ := List.forall_mem_cons.mp hl
    rw [cons]
    split
    · rename_i hm
      exact List.forall_mem_cons.mpr ⟨h.closed hs ht hm,hl⟩
    · exact List.forall_mem_cons.mpr ⟨hs,List.forall_mem_cons.mpr ⟨ht,hl⟩⟩

theorem Laws.forall_list (hl : ∀ t ∈ l, P t) : ∀ t ∈ list m g l, P t := by
  induction l with
  | nil => simp [list]
  | cons s l ih =>
    obtain ⟨hs,hl⟩ := List.forall_mem_cons.mp hl
    exact h.forall_cons hs (ih hl)

theorem Laws.canonical_cons (hs : P s) (hl : ∀ t ∈ l, P t) (hc : Canonical m l) :
    Canonical m (cons m g s l) := by
  cases l with
  | nil => exact canonical_singleton s
  | cons t l =>
    obtain ⟨ht,hl⟩ := List.forall_mem_cons.mp hl
    rw [cons]
    split
    · rename_i hm
      cases l with
      | nil => exact canonical_singleton _
      | cons u l =>
        obtain ⟨htu,hc'⟩ := List.isChain_cons_cons.mp hc
        exact List.isChain_cons_cons.mpr ⟨by rw [h.left hs ht (hl u (by simp)) hm,htu],hc'⟩
    · rename_i hm
      exact List.isChain_cons_cons.mpr ⟨by simpa using hm,hc⟩

theorem Laws.canonical_list (hl : ∀ t ∈ l, P t) : Canonical m (list m g l) := by
  induction l with
  | nil => exact canonical_nil
  | cons s l ih =>
    obtain ⟨hs,hl⟩ := List.forall_mem_cons.mp hl
    exact h.canonical_cons hs (h.forall_list hl) (ih hl)

theorem Laws.cons_cons (hs : P s) (ht : P t) (hl : ∀ u ∈ l, P u) (hm : m s t = true) :
    cons m g s (cons m g t l) = cons m g (g s t) l := by
  cases l with
  | nil => simp [cons,hm]
  | cons u l =>
    have hu := hl u (by simp)
    by_cases htu : m t u = true
    · simp [cons,htu,h.right,hm,h.left hs ht hu hm,h.assoc]
    · have htu : m t u = false := by simpa using htu
      simp [cons,htu,hm,h.left hs ht hu hm]

theorem Laws.foldr_list (hl : ∀ t ∈ l, P t) (hl' : ∀ t ∈ l', P t) :
    (list m g l).foldr (cons m g) l' = l.foldr (cons m g) l' := by
  induction l with
  | nil => rfl
  | cons s l ih =>
    obtain ⟨hs,hl⟩ := List.forall_mem_cons.mp hl
    have hfold : ∀ k : List α, (∀ t ∈ k, P t) → ∀ t ∈ k.foldr (cons m g) l', P t := by
      intro k hk
      induction k with
      | nil => exact hl'
      | cons t k ihk =>
        obtain ⟨ht,hk⟩ := List.forall_mem_cons.mp hk
        exact h.forall_cons ht (ihk hk)
    have hG := h.forall_list hl
    rw [list,List.foldr_cons,← ih hl]
    cases hlist : list m g l with
    | nil => rfl
    | cons t k =>
      rw [hlist] at hG
      obtain ⟨ht,hk⟩ := List.forall_mem_cons.mp hG
      rw [List.foldr_cons]
      by_cases hm : m s t = true
      · rw [h.cons_cons hs ht (hfold k hk) hm]
        simp [cons,hm]
      · simp [cons,hm]

theorem Laws.foldr_append_singleton (hc : Canonical m (l ++ [s])) :
    (l ++ [s]).foldr (cons m g) (t :: l') = if m s t then l ++ g s t :: l' else l ++ s :: t :: l' := by
  rw [List.foldr_append,List.foldr_cons,List.foldr_nil,cons]
  split
  · refine foldr_of_canonical ?_
    rw [Canonical,List.isChain_append] at hc ⊢
    refine ⟨hc.1,List.IsChain.singleton _,fun x hx y hy => ?_⟩
    simp only [List.head?_cons,Option.mem_def,Option.some.injEq] at hy
    rw [← hy,h.right]
    exact hc.2.2 x hx s rfl
  · exact foldr_of_canonical hc

theorem Laws.list_list (hl : ∀ t ∈ l, P t) : list m g (list m g l) = list m g l :=
  list_of_canonical (h.canonical_list hl)

theorem Laws.list_append_left (hl : ∀ t ∈ l, P t) (hl' : ∀ t ∈ l', P t) :
    list m g (list m g l ++ l') = list m g (l ++ l') := by
  rw [list_append,list_append,h.foldr_list hl (h.forall_list hl')]

theorem Laws.list_append_right (hl' : ∀ t ∈ l', P t) :
    list m g (l ++ list m g l') = list m g (l ++ l') := by
  rw [list_append,list_append,h.list_list hl']

end Laws

end FramaC.Glue
