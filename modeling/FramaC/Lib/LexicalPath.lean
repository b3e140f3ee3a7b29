import Mathlib.Data.List.Chain

/-! # Lexical paths

Texts are cut into fields at separators and fields are joined again. A path is resolved against a
directory field by field: one field stands for the directory itself and one for its parent.
-/
namespace FramaC.LexicalPath

section Fields
variable {α : Type} (p : α → Bool)

/-- The fields between the separators, without the last one when it is empty. The second argument is
what is read of the first field, backwards. -/
@[grind =] def fields : List α → List α → List (List α)
  | [],[] => []
  | [],a :: acc => [(a :: acc).reverse]
  | c :: cs,acc => if p c then acc.reverse :: fields cs [] else fields cs (c :: acc)

def Plain (w : List α) : Prop := ∀ c ∈ w, p c = false

variable {p}

theorem plain_of_mem_fields {s acc : List α} (h : Plain p acc) {w : List α} (hw : w ∈ fields p s acc) :
    Plain p w := by
  induction s generalizing acc with
  | nil =>
    cases acc with
    | nil => simp [fields] at hw
    | cons a acc =>
      obtain rfl := List.mem_singleton.mp hw
      intro c hc
      exact h c (List.mem_reverse.mp hc)
  | cons c cs ih =>
    rw [fields] at hw
    split at hw
    · rcases List.mem_cons.mp hw with rfl | hw
      · intro x hx
        exact h x (List.mem_reverse.mp hx)
      · exact ih (by simp [Plain]) hw
    · next hc =>
      refine ih ?_ hw
      intro x hx
      rcases List.mem_cons.mp hx with rfl | hx
      · simpa using hc
      · exact h x hx

theorem fields_append_cons {w : List α} (hw : Plain p w) {c : α} (hc : p c = true) (s acc : List α) :
    fields p (w ++ c :: s) acc = (acc.reverse ++ w) :: fields p s [] := by
  induction w generalizing acc with
  | nil => simp [fields,hc]
  | cons x w ih =>
    have hx : p x = false := hw x List.mem_cons_self
    rw [List.cons_append,fields,if_neg (by simp [hx]),ih fun y hy => hw y (List.mem_cons_of_mem _ hy)]
    simp

theorem fields_plain {w : List α} (hw : Plain p w) (acc : List α) (hne : acc.reverse ++ w ≠ []) :
    fields p w acc = [acc.reverse ++ w] := by
  induction w generalizing acc with
  | nil =>
    cases acc with
    | nil => simp at hne
    | cons a acc => simp [fields]
  | cons x w ih =>
    have hx : p x = false := hw x List.mem_cons_self
    rw [fields,if_neg (by simp [hx]),ih (fun y hy => hw y (List.mem_cons_of_mem _ hy)) _ (by simp)]
    simp

theorem ne_nil_of_mem_fields {s acc : List α} (h : s.IsChain fun a b => ¬ (p a = true ∧ p b = true))
    (hhead : acc = [] → ∀ c, s.head? = some c → p c = false) {w : List α} (hw : w ∈ fields p s acc) : w ≠ [] := by
  induction s generalizing acc with
  | nil =>
    cases acc with
    | nil => simp [fields] at hw
    | cons a acc =>
      obtain rfl := List.mem_singleton.mp hw
      simp
  | cons c cs ih =>
    rw [fields] at hw
    split at hw
    · next hc =>
      rcases List.mem_cons.mp hw with rfl | hw
      · intro hnil
        have := hhead (by simpa using hnil) c rfl
        rw [hc] at this
        cases this
      · refine ih h.of_cons (fun _ x hx => ?_) hw
        cases cs with
        | nil => simp at hx
        | cons y cs =>
          obtain rfl := Option.some.inj hx
          rw [List.isChain_cons_cons] at h
          simpa [hc] using h.1
    · exact ih h.of_cons (fun hnil => absurd hnil (by simp)) hw

end Fields

section Join
variable {α : Type} (sep : α)

def tail (fs : List (List α)) : List α := fs.flatMap fun f => sep :: f

@[simp] theorem tail_nil : tail sep [] = [] := rfl

@[simp] theorem tail_cons (f : List α) (fs : List (List α)) : tail sep (f :: fs) = sep :: f ++ tail sep fs := rfl

@[simp] theorem tail_append (fs gs : List (List α)) : tail sep (fs ++ gs) = tail sep fs ++ tail sep gs :=
  List.flatMap_append

variable {sep}

theorem splitOn_join [DecidableEq α] {root : List α} {fs : List (List α)} (hroot : sep ∉ root)
    (hfs : ∀ f ∈ fs, sep ∉ f) : (root ++ tail sep fs).splitOn sep = root :: fs := by
  induction fs generalizing root with
  | nil => rw [tail_nil,List.append_nil,List.splitOn_eq_singleton hroot]
  | cons f fs ih =>
    rw [tail_cons,List.cons_append,List.splitOn_append_cons_self_of_not_mem hroot,
      ih (hfs f List.mem_cons_self) fun g hg => hfs g (List.mem_cons_of_mem _ hg)]

theorem join_injective [DecidableEq α] {root root' : List α} {fs gs : List (List α)} (hroot : sep ∉ root)
    (hfs : ∀ f ∈ fs, sep ∉ f) (hroot' : sep ∉ root') (hgs : ∀ f ∈ gs, sep ∉ f)
    (h : root ++ tail sep fs = root' ++ tail sep gs) : root = root' ∧ fs = gs := by
  have hsplit := congrArg (List.splitOn sep) h
  rw [splitOn_join hroot hfs,splitOn_join hroot' hgs] at hsplit
  exact List.cons.inj hsplit

theorem fields_tail {p : α → Bool} (hsep : p sep = true) {f : List α} {fs : List (List α)}
    (h : ∀ g ∈ f :: fs, Plain p g) (hlast : (f :: fs).getLast? ≠ some []) :
    fields p (f ++ tail sep fs) [] = f :: fs := by
  induction fs generalizing f with
  | nil =>
    rw [tail_nil,List.append_nil,fields_plain (h f List.mem_cons_self)]
    · rfl
    · intro hnil
      apply hlast
      simpa using hnil
  | cons g fs ih =>
    rw [tail_cons,List.cons_append,fields_append_cons (h f List.mem_cons_self) hsep,
      ih (fun g' hg' => h g' (List.mem_cons_of_mem _ hg')) (by simpa using hlast)]
    rfl

theorem length_tail_fields (sep : α) (p : α → Bool) (s acc : List α) :
    (tail sep (fields p s acc)).length ≤ acc.length + s.length + 1 ∧
      ((∀ c ∈ s, p c = true → c = sep) → (tail sep (fields p s acc)).length = acc.length + s.length + 1 →
        tail sep (fields p s acc) = sep :: (acc.reverse ++ s)) := by
  induction s generalizing acc with
  | nil => cases acc <;> simp [fields]
  | cons c cs ih =>
    rw [fields]
    split
    · next hc =>
      obtain ⟨h1,h2⟩ := ih []
      simp only [tail_cons,List.length_cons,List.length_append,List.length_reverse,List.cons_append,
        List.length_nil,List.reverse_nil,List.nil_append] at h1 h2 ⊢
      refine ⟨by omega,fun hs hlen => ?_⟩
      rw [h2 (fun x hx => hs x (List.mem_cons_of_mem _ hx)) (by omega),hs c List.mem_cons_self hc]
    · obtain ⟨h1,h2⟩ := ih (c :: acc)
      simp only [List.length_cons,List.reverse_cons,List.append_assoc,List.cons_append,List.nil_append] at h1 h2 ⊢
      refine ⟨by omega,fun hs hlen => ?_⟩
      exact h2 (fun x hx => hs x (List.mem_cons_of_mem _ hx)) (by omega)

end Join

section Resolve
variable {C : Type} [DecidableEq C] (dot up : C)

/-- Follows the fields from a directory; the parent of the root is the root. -/
@[grind =] def resolve (dir : List C) : List C → List C
  | [] => dir
  | f :: fs => if f = up then resolve dir.dropLast fs else if f = dot then resolve dir fs else resolve (dir ++ [f]) fs

def Clean (fs : List C) : Prop := ∀ f ∈ fs, f ≠ dot ∧ f ≠ up

variable {dot up}

theorem resolve_clean {dir fs : List C} (h : Clean dot up fs) : resolve dot up dir fs = dir ++ fs := by
  induction fs generalizing dir with
  | nil => simp [resolve]
  | cons f fs ih =>
    obtain ⟨h1,h2⟩ := h f List.mem_cons_self
    rw [resolve,if_neg h2,if_neg h1,ih fun g hg => h g (List.mem_cons_of_mem _ hg)]
    simp

theorem resolve_append (dir fs gs : List C) :
    resolve dot up dir (fs ++ gs) = resolve dot up (resolve dot up dir fs) gs := by
  induction fs generalizing dir with
  | nil => rfl
  | cons f fs ih =>
    simp only [List.cons_append,resolve]
    split_ifs <;> exact ih _

theorem mem_resolve {dir fs : List C} {f : C} (h : f ∈ resolve dot up dir fs) :
    f ∈ dir ∨ f ∈ fs ∧ f ≠ dot ∧ f ≠ up := by
  induction fs generalizing dir with
  | nil => exact .inl h
  | cons g fs ih =>
    rw [resolve] at h
    split_ifs at h with hup hdot
    · rcases ih h with h | ⟨h,hne⟩
      · exact .inl (List.dropLast_subset _ h)
      · exact .inr ⟨List.mem_cons_of_mem _ h,hne⟩
    · rcases ih h with h | ⟨h,hne⟩
      · exact .inl h
      · exact .inr ⟨List.mem_cons_of_mem _ h,hne⟩
    · rcases ih h with h | ⟨h,hne⟩
      · rcases List.mem_append.mp h with h | h
        · exact .inl h
        · obtain rfl := List.mem_singleton.mp h
          exact .inr ⟨List.mem_cons_self,hdot,hup⟩
      · exact .inr ⟨List.mem_cons_of_mem _ h,hne⟩

end Resolve
end FramaC.LexicalPath
