import FramaC.Ival.Bitwise
import FramaC.Ival.Widen

/-! # Canonical form of integer ivals

Every operation of the integer lattice keeps the canonical form, whichever way it builds its
result. A call is an operation with its arguments.
-/
namespace FramaC.Ival
open Integer Progression Outcome

inductive Call
  | join (v1 v2 : Ival)
  | meet (v1 v2 : Ival)
  | narrow (v1 v2 : Ival)
  | addInt (v1 v2 : Ival)
  | subInt (v1 v2 : Ival)
  | negInt (v : Ival)
  | addSingletonInt (i : ℤ) (v : Ival)
  | scale (f : ℤ) (v : Ival)
  | scaleDiv (pos : Bool) (f : ℤ) (v : Ival)
  | scaleRem (pos : Bool) (f : ℤ) (v : Ival)
  | mul (v1 v2 : Ival)
  | div (x y : Ival)
  | cRem (x y : Ival)
  | shiftLeft (x y : Ival)
  | shiftRight (x y : Ival)
  | castIntToInt (size : ℤ) (signed : Bool) (value : Ival)
  | bitwiseAnd (v1 v2 : Ival)
  | bitwiseOr (v1 v2 : Ival)
  | bitwiseXor (v1 v2 : Ival)
  | bitwiseSignedNot (v : Ival)
  | extractBits (start stop : ℤ) (v : Ival)
  | diffIfOne (value rem : Ival)
  | backwardCompIntLeft (op : Comp) (l r : Ival)
  | widen (bitsize : ℤ) (wh : Finset ℤ) (t1 t2 : Ival)

namespace Call

def run (sc : ℕ) : Call → Res Ival
  | join v1 v2 => Ival.join sc v1 v2
  | meet v1 v2 => Ival.meet sc v1 v2
  | narrow v1 v2 => Ival.narrow sc v1 v2
  | addInt v1 v2 => Ival.addInt sc v1 v2
  | subInt v1 v2 => Ival.subInt sc v1 v2
  | negInt v => .ok (Ival.negInt v)
  | addSingletonInt i v => .ok (Ival.addSingletonInt i v)
  | scale f v => .ok (Ival.scale f v)
  | scaleDiv pos f v => Ival.scaleDiv sc pos f v
  | scaleRem pos f v => Ival.scaleRem sc pos f v
  | mul v1 v2 => Ival.mul sc v1 v2
  | div x y => Ival.div sc x y
  | cRem x y => Ival.cRem sc x y
  | shiftLeft x y => Ival.shiftLeft sc x y
  | shiftRight x y => Ival.shiftRight sc x y
  | castIntToInt size signed value => Ival.castIntToInt sc size signed value
  | bitwiseAnd v1 v2 => Ival.bitwiseAnd sc v1 v2
  | bitwiseOr v1 v2 => Ival.bitwiseOr sc v1 v2
  | bitwiseXor v1 v2 => Ival.bitwiseXor sc v1 v2
  | bitwiseSignedNot v => Ival.bitwiseSignedNot sc v
  | extractBits start stop v => Ival.extractBits sc start stop v
  | diffIfOne value rem => Ival.diffIfOne sc value rem
  | backwardCompIntLeft op l r => Ival.backwardCompIntLeft sc op l r
  | widen bitsize wh t1 t2 => Ival.widen sc bitsize wh t1 t2

@[grind =] def args : Call → List Ival
  | join v1 v2 | meet v1 v2 | narrow v1 v2 | addInt v1 v2 | subInt v1 v2 | mul v1 v2 | div v1 v2
  | cRem v1 v2 | shiftLeft v1 v2 | shiftRight v1 v2 | bitwiseAnd v1 v2 | bitwiseOr v1 v2
  | bitwiseXor v1 v2 | diffIfOne v1 v2 | backwardCompIntLeft _ v1 v2 | widen _ _ v1 v2 => [v1,v2]
  | negInt v | addSingletonInt _ v | scale _ v | scaleDiv _ _ v | scaleRem _ _ v
  | castIntToInt _ _ v | bitwiseSignedNot v | extractBits _ _ v => [v]

/-- The arguments an operation admits: `scale_div` asserts that its divisor is not zero, sizes
and bit positions are those for which the powers of two and the machine integers exist, and
`widen` is called on increasing arguments. -/
def Admits : Call → Prop
  | scaleDiv _ f _ => f ≠ 0
  | castIntToInt size _ _ => 1 ≤ size ∧ size ≤ 1024
  | extractBits start stop _ => 0 ≤ start ∧ start ≤ stop ∧ stop < 2 ^ 62 - 1
  | widen bitsize _ t1 t2 => 0 ≤ bitsize ∧ isIncluded t1 t2 = true
  | _ => True

end Call

theorem Call.run_sat {sc : ℕ} (hsc : 2 ≤ sc) (c : Call) (hargs : ∀ v ∈ c.args, Wf sc v) (hadm : c.Admits) :
    Sat (Wf sc) (fun e => e = .errorBottom ∧ bottom ∈ c.args) (c.run sc) := by
  have ret : ∀ {x : Res Ival} {E : Exn → Prop}, (∃ v, x = .ok v ∧ Wf sc v) → Sat (Wf sc) E x := by
    rintro x E ⟨v,hv,hw⟩
    exact Sat.of_ok hv hw
  have ret3 : ∀ {x : Res Ival} {E : Exn → Prop} {P : Ival → Prop},
      (∃ v, x = .ok v ∧ Wf sc v ∧ P v) → Sat (Wf sc) E x := by
    rintro x E P ⟨v,hv,hw,_⟩
    exact Sat.of_ok hv hw
  cases c with
  | join v1 v2 => exact ret3 (join_spec hsc (hargs _ (by simp [args])) (hargs _ (by simp [args])))
  | meet v1 v2 => exact ret3 (meet_spec hsc (hargs _ (by simp [args])) (hargs _ (by simp [args])))
  | narrow v1 v2 => exact ret3 (narrow_spec hsc (hargs _ (by simp [args])) (hargs _ (by simp [args])))
  | addInt v1 v2 => exact ret (addInt_wf hsc (hargs _ (by simp [args])) (hargs _ (by simp [args])))
  | subInt v1 v2 => exact ret (subInt_wf hsc (hargs _ (by simp [args])) (hargs _ (by simp [args])))
  | negInt v => exact negInt_wf (hargs _ (by simp [args]))
  | addSingletonInt i v => exact addSingletonInt_wf (hargs _ (by simp [args])) i
  | scale f v => exact scale_wf hsc (hargs _ (by simp [args])) f
  | scaleDiv pos f v => exact ret (scaleDiv_wf hsc (hargs _ (by simp [args])) pos hadm)
  | scaleRem pos f v => exact ret (scaleRem_wf hsc (hargs _ (by simp [args])) pos f)
  | mul v1 v2 => exact ret (mul_wf hsc (hargs _ (by simp [args])) (hargs _ (by simp [args])))
  | div x y =>
    refine (div_wf hsc (hargs x (by simp [args])) (hargs y (by simp [args]))).mono (fun _ => id) ?_
    rintro e ⟨he,rfl⟩
    exact ⟨he,by simp [args]⟩
  | cRem x y => exact ret (cRem_wf hsc (hargs _ (by simp [args])))
  | shiftLeft x y => exact ret (shiftLeft_wf hsc (hargs _ (by simp [args])) (hargs _ (by simp [args])))
  | shiftRight x y =>
    refine (shiftRight_wf hsc (hargs x (by simp [args])) (hargs y (by simp [args]))).mono (fun _ => id) ?_
    rintro e ⟨he,rfl⟩
    exact ⟨he,by simp [args]⟩
  | castIntToInt size signed v =>
    exact ret (castIntToInt_wf hsc (hargs _ (by simp [args])) hadm.1 hadm.2 signed)
  | bitwiseAnd v1 v2 =>
    exact ret (bitwiseForward_wf hsc opAnd_total (hargs _ (by simp [args])) (hargs _ (by simp [args])))
  | bitwiseOr v1 v2 =>
    exact ret (bitwiseForward_wf hsc opOr_total (hargs _ (by simp [args])) (hargs _ (by simp [args])))
  | bitwiseXor v1 v2 =>
    exact ret (bitwiseForward_wf hsc opXor_total (hargs _ (by simp [args])) (hargs _ (by simp [args])))
  | bitwiseSignedNot v => exact ret (bitwiseSignedNot_wf hsc (hargs _ (by simp [args])))
  | extractBits start stop v =>
    exact ret (extractBits_wf hsc (hargs _ (by simp [args])) hadm.1 hadm.2.1 hadm.2.2)
  | diffIfOne value rem => exact ret (diffIfOne_wf hsc (hargs _ (by simp [args])))
  | backwardCompIntLeft op l r =>
    exact ret (backwardCompIntLeft_wf hsc op (hargs _ (by simp [args])) (hargs _ (by simp [args])))
  | widen bitsize wh t1 t2 =>
    have h1 := hargs t1 (by simp [args])
    have h2 := hargs t2 (by simp [args])
    exact ret3 (widen_cover hsc hadm.1 wh h1 h2 ((isIncluded_iff_subset hsc h1 h2).mp hadm.2))

/-- Canonical form of the integer lattice: no call fails on well-formed arguments, its result
is well-formed, and well-formed ivals with the same members are equal. -/
theorem call_canonical {sc : ℕ} (hsc : 2 ≤ sc) :
    (∀ c : Call, (∀ v ∈ c.args, Wf sc v) → c.Admits →
      (∃ v, c.run sc = .ok v ∧ Wf sc v) ∨ (c.run sc = .error .errorBottom ∧ bottom ∈ c.args)) ∧
    ∀ v1 v2, Wf sc v1 → Wf sc v2 → (∀ x, x ∈ concr v1 ↔ x ∈ concr v2) → equal v1 v2 = true := by
  constructor
  · intro c hargs hadm
    have h := c.run_sat hsc hargs hadm
    cases hr : c.run sc with
    | ok v =>
      rw [hr] at h
      exact .inl ⟨v,rfl,h⟩
    | error e =>
      rw [hr] at h
      obtain ⟨rfl,hb⟩ := h
      exact .inr ⟨rfl,hb⟩
  · intro v1 v2 h1 h2 he
    rw [equal_iff]
    exact eq_of_concr_eq hsc h1 h2 (Set.ext he)

theorem call_canonical_eight :
    (∃ v, (Call.mul (.set [2,5]) (.topItv (some 3) none 3 5)).run 8 = .ok v ∧ Wf 8 v) ∨
      ((Call.mul (.set [2,5]) (.topItv (some 3) none 3 5)).run 8 = .error .errorBottom ∧
        bottom ∈ (Call.mul (.set [2,5]) (.topItv (some 3) none 3 5)).args) :=
  (@call_canonical 8 (by omega)).1 (.mul (.set [2,5]) (.topItv (some 3) none 3 5))
    (by simp [Call.args,Wf]) trivial

/-- The values reachable from the constants of the lattice by calls on admitted arguments. -/
inductive Built (sc : ℕ) : Ival → Prop
  | bottom : Built sc bottom
  | top : Built sc top
  | singleton (e : ℤ) : Built sc (injectSingleton e)
  | range {mn mx : Option ℤ} {v : Ival} : injectRange sc mn mx = .ok v → Built sc v
  | call {c : Call} {v : Ival} : (∀ w ∈ c.args, Built sc w) → c.Admits → c.run sc = .ok v → Built sc v

theorem Built.wf {sc : ℕ} (hsc : 2 ≤ sc) {v : Ival} (h : Built sc v) : Wf sc v := by
  induction h with
  | bottom => exact wf_bottom sc
  | top => exact wf_top sc
  | singleton e => exact wf_singleton hsc e
  | range hv =>
    obtain ⟨w,hw,hwf,_⟩ := injectRange_spec hsc _ _
    rw [hw] at hv
    cases hv
    exact hwf
  | @call c v _ hadm hrun ih =>
    have h := c.run_sat hsc ih hadm
    rwa [hrun] at h

end FramaC.Ival
