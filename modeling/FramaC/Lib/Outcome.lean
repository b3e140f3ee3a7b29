import Mathlib

/-! # Outcomes of computations that may raise

`Sat P E x` says that the value returned by `x` satisfies `P` and that an exception it raises
satisfies `E`. The rules follow the sequencing of computations.
-/
namespace FramaC.Outcome

def Sat {ε α : Type} (P : α → Prop) (E : ε → Prop) : Except ε α → Prop
  | .ok a => P a
  | .error e => E e

section Rules
variable {ε α β : Type} {P P' : α → Prop} {Q : β → Prop} {E E' : ε → Prop} {x : Except ε α}

@[simp] theorem sat_ok {a : α} : Sat P E (.ok a) ↔ P a := Iff.rfl
@[simp] theorem sat_error {e : ε} : Sat P E (.error e) ↔ E e := Iff.rfl

theorem Sat.exists_ok (h : Sat P (fun _ => False) x) : ∃ a, x = .ok a ∧ P a := by
  cases x with
  | ok a => exact ⟨a,rfl,h⟩
  | error e => exact h.elim

theorem Sat.of_ok {a : α} (hx : x = .ok a) (h : P a) : Sat P E x := by
  rw [hx]
  exact h

theorem Sat.mono (h : Sat P E x) (hP : ∀ a, P a → P' a) (hE : ∀ e, E e → E' e) : Sat P' E' x := by
  cases x with
  | ok a => exact hP a h
  | error e => exact hE e h

theorem Sat.bind {f : α → Except ε β} (h : Sat P E x) (hf : ∀ a, P a → Sat Q E (f a)) :
    Sat Q E (x >>= f) := by
  cases x with
  | ok a => exact hf a h
  | error e => exact h

theorem Sat.foldlM {γ : Type} {step : α → γ → Except ε α} {l : List γ} {a : α} (ha : P a)
    (hstep : ∀ a c, c ∈ l → P a → Sat P E (step a c)) : Sat P E (l.foldlM step a) := by
  induction l generalizing a with
  | nil => exact ha
  | cons c l ih =>
    rw [List.foldlM_cons]
    refine Sat.bind (hstep a c (by simp) ha) fun b hb => ?_
    exact ih hb fun a c' hc' => hstep a c' (by simp [hc'])

theorem Sat.foldlM_covers {γ : Type} {step : α → γ → Except ε α} {l : List γ} {a : α} {G : γ → α → Prop} (ha : P a)
    (hstep : ∀ a c, c ∈ l → P a → Sat (fun b => P b ∧ G c b ∧ ∀ c', G c' a → G c' b) E (step a c)) :
    Sat (fun b => P b ∧ (∀ c ∈ l, G c b) ∧ ∀ c', G c' a → G c' b) E (l.foldlM step a) := by
  induction l generalizing a with
  | nil => exact ⟨ha,by simp,fun _ h => h⟩
  | cons c l ih =>
    rw [List.foldlM_cons]
    refine Sat.bind (hstep a c (by simp) ha) fun b hb => ?_
    obtain ⟨hPb,hGb,hkeep⟩ := hb
    refine (ih hPb fun a c' hc' => hstep a c' (by simp [hc'])).mono ?_ fun _ h => h
    rintro b' ⟨hP,hall,hkeep'⟩
    refine ⟨hP,?_,fun c' h => hkeep' c' (hkeep c' h)⟩
    intro c' hc'
    rcases List.mem_cons.mp hc' with rfl | hc'
    · exact hkeep' c' hGb
    · exact hall c' hc'

theorem Sat.foldlM_prefix {γ : Type} {step : α → γ → Except ε α} {l : List γ} {a0 : α} {P : List γ → α → Prop}
    (h0 : P [] a0) (hstep : ∀ pre c post a, l = pre ++ c :: post → pre.foldlM step a0 = .ok a → P pre a →
      Sat (P (pre ++ [c])) E (step a c)) : Sat (P l) E (l.foldlM step a0) := by
  have hgen : ∀ (post pre : List γ) (a : α), l = pre ++ post → pre.foldlM step a0 = .ok a → P pre a →
      Sat (P l) E (post.foldlM step a) := by
    intro post
    induction post with
    | nil =>
      intro pre a hl _ hP
      rw [List.append_nil] at hl
      subst hl
      exact hP
    | cons c post ih =>
      intro pre a hl hpre hP
      have hc := hstep pre c post a hl hpre hP
      rw [List.foldlM_cons]
      cases hs : step a c with
      | error e =>
        rw [hs] at hc
        exact hc
      | ok b =>
        rw [hs] at hc
        refine ih (pre ++ [c]) b (by rw [hl,List.append_assoc]; rfl) ?_ hc
        rw [List.foldlM_append,hpre]
        change (List.foldlM step a [c]) = _
        rw [List.foldlM_cons,hs]
        rfl
  exact hgen l [] a0 rfl rfl h0

end Rules

section Loops

variable {α γ : Type} {P : α → Prop} {step : α → γ → Option α} {l : List γ} {a b : α}

theorem foldlM_invariant (ha : P a) (hstep : ∀ a c b, c ∈ l → P a → step a c = some b → P b)
    (h : l.foldlM step a = some b) : P b := by
  induction l generalizing a with
  | nil =>
    cases h
    exact ha
  | cons c l ih =>
    rw [List.foldlM_cons,Option.bind_eq_bind,Option.bind_eq_some_iff] at h
    obtain ⟨a1,ha1,h⟩ := h
    exact ih (hstep a c a1 List.mem_cons_self ha ha1) (fun a c' b hc' => hstep a c' b (List.mem_cons_of_mem c hc')) h

theorem foldlM_returns (ha : P a) (hstep : ∀ a c, c ∈ l → P a → ∃ b, step a c = some b ∧ P b) :
    ∃ b, l.foldlM step a = some b ∧ P b := by
  induction l generalizing a with
  | nil => exact ⟨a,rfl,ha⟩
  | cons c l ih =>
    obtain ⟨a1,ha1,hP⟩ := hstep a c List.mem_cons_self ha
    obtain ⟨b,hb,hPb⟩ := ih hP (fun a c' hc' => hstep a c' (List.mem_cons_of_mem c hc'))
    refine ⟨b,?_,hPb⟩
    rw [List.foldlM_cons,ha1]
    exact hb

end Loops

end FramaC.Outcome
