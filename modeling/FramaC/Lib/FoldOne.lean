import Mathlib.Data.List.Perm.Basic

/-! # Folds without an initial value

The fold of an operation over the elements of a list, and what the algebraic laws of the operation leave unchanged.
-/
namespace FramaC
variable {α : Type}

def foldOne (op : α → α → α) : List α → Option α
  | [] => none
  | a :: l => some (l.foldl op a)

/-- The operation where `none` is neutral. -/
def joinOne (op : α → α → α) : Option α → Option α → Option α
  | none, o => o
  | o, none => o
  | some a, some b => some (op a b)

section Laws
variable {op : α → α → α}

@[simp] theorem joinOne_none_left (o : Option α) : joinOne op none o = o := by cases o <;> rfl
@[simp] theorem joinOne_none_right (o : Option α) : joinOne op o none = o := by cases o <;> rfl

theorem foldOne_singleton (a : α) : foldOne op [a] = some a := rfl

theorem joinOne_assoc (h : ∀ a b c, op (op a b) c = op a (op b c)) (o p q : Option α) :
    joinOne op (joinOne op o p) q = joinOne op o (joinOne op p q) := by
  cases o <;> cases p <;> cases q <;> simp [joinOne,h]

theorem joinOne_comm (h : ∀ a b, op a b = op b a) (o p : Option α) : joinOne op o p = joinOne op p o := by
  cases o <;> cases p <;> simp [joinOne,h]

theorem foldl_eq (h : ∀ a b c, op (op a b) c = op a (op b c)) (a b : α) (l : List α) :
    l.foldl op (op a b) = op a (l.foldl op b) := by
  induction l generalizing b with
  | nil => rfl
  | cons c l ih => rw [List.foldl_cons,List.foldl_cons,h,ih]

theorem foldOne_cons (h : ∀ a b c, op (op a b) c = op a (op b c)) (a : α) (l : List α) :
    foldOne op (a :: l) = joinOne op (some a) (foldOne op l) := by
  cases l with
  | nil => rfl
  | cons b l => exact congrArg some (foldl_eq h a b l)

theorem foldOne_append (h : ∀ a b c, op (op a b) c = op a (op b c)) (l m : List α) :
    foldOne op (l ++ m) = joinOne op (foldOne op l) (foldOne op m) := by
  induction l with
  | nil => exact (joinOne_none_left _).symm
  | cons a l ih => rw [List.cons_append,foldOne_cons h,foldOne_cons h,ih,joinOne_assoc h]

theorem foldOne_perm (h : ∀ a b c, op (op a b) c = op a (op b c)) (hc : ∀ a b, op a b = op b a) {l m : List α}
    (hlm : l.Perm m) : foldOne op l = foldOne op m := by
  induction hlm with
  | nil => rfl
  | cons a _ ih => rw [foldOne_cons h,foldOne_cons h,ih]
  | swap a b l =>
    rw [foldOne_cons h,foldOne_cons h,foldOne_cons h,foldOne_cons h,← joinOne_assoc h,← joinOne_assoc h,
      joinOne_comm hc (some b)]
  | trans _ _ ih1 ih2 => exact ih1.trans ih2

theorem foldOne_filter {β : Type} (h : ∀ a b c, op (op a b) c = op a (op b c)) {e : α}
    (he : ∀ a, op e a = a ∧ op a e = a) {g : β → α} {p : β → Bool} (l : List β)
    (hp : ∀ b ∈ l, p b = false → g b = e) :
    joinOne op (some e) (foldOne op ((l.filter p).map g)) = joinOne op (some e) (foldOne op (l.map g)) := by
  have hskip : ∀ o : Option α, joinOne op (some e) (joinOne op (some e) o) = joinOne op (some e) o := by
    intro o
    rw [← joinOne_assoc h]
    simp [joinOne,he]
  have hswap : ∀ (a : α) (o : Option α), joinOne op (some e) (joinOne op (some a) o) =
      joinOne op (some a) (joinOne op (some e) o) := by
    intro a o
    rw [← joinOne_assoc h,← joinOne_assoc h]
    simp [joinOne,he]
  induction l with
  | nil => rfl
  | cons b l ih =>
    have hl := ih fun c hc => hp c (by simp [hc])
    cases hb : p b with
    | true =>
      rw [List.filter_cons_of_pos hb,List.map_cons,List.map_cons,foldOne_cons h,foldOne_cons h,hswap,hl,hswap]
    | false =>
      rw [List.filter_cons_of_neg (by simp [hb]),List.map_cons,foldOne_cons h,hp b (by simp) hb,hskip,hl]

theorem foldOne_of_mem (h : ∀ a b c, op (op a b) c = op a (op b c)) {z : α} (hz : ∀ a, op z a = z ∧ op a z = z)
    {l : List α} (hl : z ∈ l) : foldOne op l = some z := by
  obtain ⟨l1,l2,rfl⟩ := List.append_of_mem hl
  rw [foldOne_append h,foldOne_cons h]
  cases foldOne op l1 <;> cases foldOne op l2 <;> simp [joinOne,hz]

end Laws
end FramaC
