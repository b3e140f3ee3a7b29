import Mathlib.Data.List.Basic
import Mathlib.Control.Basic

/-! # Stateful computations against pure ones

A computation with a state simulates a pure partial one from a set of states when it fails exactly
when the pure one does, and otherwise returns a related value and ends in a given set of states.
-/
namespace FramaC.Simulation
variable {σ α β γ δ ε : Type}

def Simulates (I J : σ → Prop) (R : α → β → Prop) (x : Option α) (m : StateT σ Option β) : Prop :=
  ∀ s, I s →
    match x with
    | none => m s = none
    | some a => ∃ b s', m s = some (b,s') ∧ R a b ∧ J s'

variable {I J K : σ → Prop} {R : α → β → Prop}

theorem Simulates.none (m : StateT σ Option β) (h : ∀ s, I s → m s = Option.none) :
    Simulates I J R Option.none m := h

theorem Simulates.pure {a : α} {b : β} (h : R a b) (hs : ∀ s, I s → J s) :
    Simulates I J R (some a) (Pure.pure b) :=
  fun s hi => ⟨b,s,rfl,h,hs s hi⟩

theorem Simulates.bind {S : γ → δ → Prop} {x : Option α} {m : StateT σ Option β} {f : α → Option γ}
    {g : β → StateT σ Option δ} (h : Simulates I J R x m) (hf : ∀ a b, x = some a → R a b → Simulates J K S (f a) (g b)) :
    Simulates I K S (x.bind f) (m >>= g) := by
  intro s hi
  have h₁ := h s hi
  cases x with
  | none =>
    simp only [Option.bind_none]
    change (m s).bind _ = Option.none
    rw [h₁]
    rfl
  | some a =>
    obtain ⟨b,s',hm,hr,hj⟩ := h₁
    have h₂ := hf a b rfl hr s' hj
    simp only [Option.bind_some]
    have hrun : (m >>= g) s = g b s' := by
      change (m s).bind _ = _
      rw [hm]
      rfl
    rw [hrun]
    exact h₂

theorem Simulates.andThen {S : α → δ → Prop} {x : Option α} {m : StateT σ Option β} {g : β → StateT σ Option δ}
    (h : Simulates I J R x m) (hf : ∀ a b, x = some a → R a b → Simulates J K S (some a) (g b)) :
    Simulates I K S x (m >>= g) := by
  have hx : x.bind some = x := by cases x <;> rfl
  have hb : Simulates I K S (x.bind some) (m >>= g) := Simulates.bind h hf
  rw [hx] at hb
  exact hb

theorem Simulates.weaken {I' J' : σ → Prop} {R' : α → β → Prop} {x : Option α} {m : StateT σ Option β}
    (h : Simulates I J R x m) (hi : ∀ s, I' s → I s) (hr : ∀ a b, x = some a → R a b → R' a b) (hj : ∀ s, J s → J' s) :
    Simulates I' J' R' x m := by
  intro s hs
  have h₁ := h s (hi s hs)
  cases x with
  | none => exact h₁
  | some a =>
    obtain ⟨b,s',hm,hab,hs'⟩ := h₁
    exact ⟨b,s',hm,hr a b rfl hab,hj s' hs'⟩

theorem Simulates.update {f : σ → σ} {x : Option α} {m : StateT σ Option β} (hf : ∀ s, I s → J (f s))
    (h : Simulates J K R x m) : Simulates I K R x (modify f >>= fun _ => m) := by
  intro s hi
  have hrun : ((modify f : StateT σ Option PUnit) >>= fun _ => m) s = m (f s) := rfl
  rw [hrun]
  exact h (f s) (hf s hi)

theorem Simulates.lift {x : Option α} (hs : ∀ s, I s → J s) : Simulates I J Eq x (StateT.lift x) := by
  intro s hi
  cases x with
  | none => rfl
  | some a => exact ⟨a,s,rfl,rfl,hs s hi⟩

theorem Simulates.read {x : Option α} {m : σ → StateT σ Option β}
    (h : ∀ s, I s → Simulates (fun s' => s' = s) J R x (m s)) : Simulates I J R x (get >>= m) := by
  intro s hi
  have hrun : ((get : StateT σ Option σ) >>= m) s = m s s := rfl
  rw [hrun]
  exact h s hi s rfl

theorem Simulates.foldlM {A : ε → δ → Prop} {f : α → ε → Option α} {g : β → δ → StateT σ Option β} {xs : List ε}
    {ys : List δ} (hxy : List.Forall₂ A xs ys)
    (hfg : ∀ a b x y, x ∈ xs → A x y → R a b → Simulates I I R (f a x) (g b y)) {a : α} {b : β} (hab : R a b) :
    Simulates I I R (xs.foldlM f a) (ys.foldlM g b) := by
  induction hxy generalizing a b with
  | nil => exact Simulates.pure hab fun _ h => h
  | cons h _ ih =>
    rename_i x y xs ys _
    rw [List.foldlM_cons,List.foldlM_cons]
    apply Simulates.bind (hfg a b x y List.mem_cons_self h hab)
    intro a' b' _ hr
    exact ih (fun a b x y hx => hfg a b x y (List.mem_cons_of_mem _ hx)) hr

theorem Simulates.anyM {f : ε → Option Bool} {g : ε → StateT σ Option Bool} (xs : List ε)
    (hfg : ∀ x ∈ xs, Simulates I I Eq (f x) (g x)) : Simulates I I Eq (xs.anyM f) (xs.anyM g) := by
  induction xs with
  | nil => exact Simulates.pure rfl fun _ h => h
  | cons x xs ih =>
    have ih := ih fun y hy => hfg y (List.mem_cons_of_mem x hy)
    have hx := hfg x List.mem_cons_self
    unfold List.anyM
    apply Simulates.bind hx
    intro a b _ hab
    subst hab
    cases a with
    | true => exact Simulates.pure rfl fun _ h => h
    | false => exact ih

/-- From every state of the set the computation returns `b` and ends in the set. -/
def Returns (I : σ → Prop) (b : β) (m : StateT σ Option β) : Prop := Simulates I I Eq (some b) m

theorem Returns.pure (b : β) : Returns I b (Pure.pure b) := Simulates.pure rfl fun _ h => h

theorem Returns.bind {a : α} {b : β} {m : StateT σ Option α} {g : α → StateT σ Option β} (h : Returns I a m)
    (hg : Returns I b (g a)) : Returns I b (m >>= g) := by
  refine Simulates.bind (x := some a) (f := fun _ => some b) h ?_
  rintro a' b' ⟨⟩ rfl
  exact hg

/-- A call, or a change of the state between two calls. -/
inductive Step (γ : Type)
  | call (c : γ)
  | reset

def Step.call? : Step γ → Option γ
  | .call c => some c
  | .reset => none

def runSteps (call : γ → StateT σ Option β) (reset : σ → Option σ) : List (Step γ) → σ → Option (List β × σ)
  | [],s => some ([],s)
  | .call c :: steps,s => do
    let (b,s) ← call c s
    let (bs,s) ← runSteps call reset steps s
    some (b :: bs,s)
  | .reset :: steps,s => do
    let s ← reset s
    runSteps call reset steps s

theorem runSteps_ok {call : γ → StateT σ Option β} {reset : σ → Option σ} {val : γ → β} {steps : List (Step γ)}
    (hcall : ∀ c, .call c ∈ steps → Returns I (val c) (call c)) (hreset : ∀ s, I s → ∃ s', reset s = some s' ∧ I s')
    {s : σ} (hs : I s) :
    ∃ s', runSteps call reset steps s = some ((steps.filterMap Step.call?).map val,s') ∧ I s' := by
  induction steps generalizing s with
  | nil => exact ⟨s,rfl,hs⟩
  | cons step steps ih =>
    have ih := @ih fun c hc => hcall c (List.mem_cons_of_mem _ hc)
    cases step with
    | call c =>
      obtain ⟨b,s₁,h1,rfl,h2⟩ := hcall c List.mem_cons_self s hs
      obtain ⟨s₂,h3,h4⟩ := ih h2
      exact ⟨s₂,by simp only [runSteps,h1,h3,Option.bind_eq_bind,Option.bind_some]; rfl,h4⟩
    | reset =>
      obtain ⟨s₁,h1,h2⟩ := hreset s hs
      obtain ⟨s₂,h3,h4⟩ := ih h2
      refine ⟨s₂,?_,h4⟩
      simp only [runSteps,h1,h3,Option.bind_eq_bind,Option.bind_some]
      rfl

end FramaC.Simulation
