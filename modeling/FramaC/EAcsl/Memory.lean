import Mathlib.Data.Nat.Bitwise

/-! # Tracked blocks and initialized bytes

What the memory models of E-ACSL are for: the sizes of the tracked blocks by base address, and the set of the
initialized addresses.
-/
namespace FramaC.EAcsl

structure Memory where
  size : ℕ → Option ℕ
  init : ℕ → Bool

def Memory.empty : Memory := ⟨fun _ => none,fun _ => false⟩

def Memory.track (a : Memory) (p n : ℕ) (init : Bool) : Memory :=
  ⟨Function.update a.size p (some n),fun x => if p ≤ x ∧ x < p + n then init else a.init x⟩

def Memory.untrack (a : Memory) (p : ℕ) : Memory := ⟨Function.update a.size p none,a.init⟩

/-- The bytes of `[p, p + n)` are marked. -/
def mark (init : ℕ → Bool) (p n : ℕ) : ℕ → Bool := fun x => init x || decide (p ≤ x ∧ x < p + n)

/-- A block of `old` bytes is moved from `p` to `res` and has `size` bytes there. -/
def reallocInit (init : ℕ → Bool) (p old res size : ℕ) : ℕ → Bool := fun x =>
  if res ≤ x ∧ x < res + size then decide (x - res < old) && init (p + (x - res)) else init x

def Memory.move (a : Memory) (p old res n : ℕ) : Memory :=
  ⟨Function.update (Function.update a.size p none) res (some n),reallocInit a.init p old res n⟩

/-- Two blocks contain no common address; an empty block contains its base address. -/
def Separate (p n q k : ℕ) : Prop := p + max n 1 ≤ q ∨ q + max k 1 ≤ p

/-- The range `[p, p + n)` lies in a tracked block. -/
def Memory.Inside (a : Memory) (p n : ℕ) : Prop := ∃ q k, a.size q = some k ∧ q ≤ p ∧ p + n ≤ q + k

def Memory.Fresh (a : Memory) (p n : ℕ) : Prop := ∀ q k, a.size q = some k → Separate p n q k

theorem mark_zero (init : ℕ → Bool) (p : ℕ) : mark init p 0 = init := by
  funext x
  have hno : ¬(p ≤ x ∧ x < p + 0) := by omega
  simp only [mark,hno,decide_false,Bool.or_false]

theorem mark_of_not_mem {init : ℕ → Bool} {p n x : ℕ} (h : ¬(p ≤ x ∧ x < p + n)) : mark init p n x = init x := by
  simp only [mark,h,decide_false,Bool.or_false]

theorem reallocInit_add (init : ℕ → Bool) (p old res : ℕ) {size o : ℕ} (ho : o < size) :
    reallocInit init p old res size (res + o) = (decide (o < old) && init (p + o)) := by
  have hin : res ≤ res + o ∧ res + o < res + size := by omega
  simp only [reallocInit,hin,and_self,if_true,Nat.add_sub_cancel_left]

theorem separate_symm {p n q k : ℕ} (h : Separate p n q k) : Separate q k p n := h.symm

theorem separate_out {p n q k o : ℕ} (h : Separate p n q k) (ho : o < k) : ¬(p ≤ q + o ∧ q + o < p + n) := by
  unfold Separate at h
  omega

def Along {σ α : Type} (step : σ → α → σ) (P : σ → α → Prop) (s : σ) : List α → Prop
  | [] => True
  | op :: ops => P s op ∧ Along step P (step s op) ops

end FramaC.EAcsl
