import FramaC.Integer
/-! # Runtime-error assertions

The generators of `rte.ml` emit alarms on the operands of an operation. With `remove_trivial` they
read the constants among them first.
-/

namespace FramaC
namespace Rte

structure IntType where
  bits : ℕ
  signed : Bool
  pos : 0 < bits

def minSignedNumber (n : ℕ) : ℤ := -2 ^ (n - 1)
def maxSignedNumber (n : ℕ) : ℤ := 2 ^ (n - 1) - 1
def maxUnsignedNumber (n : ℕ) : ℤ := 2 ^ n - 1

namespace IntType

def min (t : IntType) : ℤ := if t.signed then minSignedNumber t.bits else 0
def max (t : IntType) : ℤ := if t.signed then maxSignedNumber t.bits else maxUnsignedNumber t.bits

def Fits (t : IntType) (v : ℤ) : Prop := t.min ≤ v ∧ v ≤ t.max

end IntType

inductive BoundKind
  | lowerBound
  | upperBound
  deriving DecidableEq

inductive OverflowKind
  | signed
  | unsigned
  | signedDowncast
  | unsignedDowncast

inductive Binop
  | plusA
  | minusA
  | mult
  | div
  | shiftlt
  | shiftrt
  deriving DecidableEq

/-- The value in the integers, with no wrap around. -/
def Binop.eval : Binop → ℤ → ℤ → ℤ
  | .plusA,a,b => a + b
  | .minusA,a,b => a - b
  | .mult,a,b => a * b
  | .div,a,b => a.tdiv b
  | .shiftlt,a,b => a * 2 ^ b.toNat
  | .shiftrt,a,b => a / 2 ^ b.toNat

/-- What the generators read of the operands. -/
structure Operands (X : Type) where
  typeOf : X → IntType
  constFoldToInt : X → Option ℤ

inductive Exp (X : Type)
  | operand (e : X)
  | binOp (op : Binop) (lexp rexp : X)

inductive Alarm (X : Type)
  | divisionByZero (e : X)
  | indexOutOfBound (e : X) (up : Option ℤ)
  | invalidShift (e : X) (up : Option ℕ)
  | overflow (k : OverflowKind) (e : Exp X) (bound : ℤ) (b : BoundKind)

section Generators

variable {X : Type}

def Exp.eval (ρ : X → ℤ) : Exp X → ℤ
  | .operand e => ρ e
  | .binOp op l r => op.eval (ρ l) (ρ r)

/-- The predicate that `create_predicate` makes of an alarm. -/
def Alarm.Holds (ρ : X → ℤ) : Alarm X → Prop
  | .divisionByZero e => ρ e ≠ 0
  | .indexOutOfBound e none => 0 ≤ ρ e
  | .indexOutOfBound e (some up) => ρ e < up
  | .invalidShift e up => 0 ≤ ρ e ∧ ∀ n ∈ up, ρ e < n
  | .overflow _ e n .lowerBound => n ≤ e.eval ρ
  | .overflow _ e n .upperBound => e.eval ρ ≤ n

/-- Alarms in the order of the calls of `on_alarm`, each with its `invalid` flag. -/
abbrev Emitted (X : Type) := List (Bool × Alarm X)

variable (C : Operands X) (removeTrivial : Bool)

def validIndex (e : X) (size : ℤ) : Emitted X :=
  let alarm (bk : BoundKind) : Emitted X :=
    let b := match bk with
      | .lowerBound => none
      | .upperBound => some size
    if ¬(bk = .upperBound ∧ size = 0) then [(false,.indexOutOfBound e b)] else []
  if removeTrivial then
    let negOk := (C.constFoldToInt e).any (0 ≤ ·) || !(C.typeOf e).signed
    let posOk := (C.constFoldToInt e).any (· < size)
    (if negOk then [] else alarm .lowerBound) ++ if posOk then [] else alarm .upperBound
  else alarm .lowerBound ++ alarm .upperBound

def uminusAssertion (exp : X) : Emitted X :=
  let minTy := minSignedNumber (C.typeOf exp).bits
  let bound := 1 + minTy
  let alarm (invalid : Bool) : Emitted X := [(invalid,.overflow .signed (.operand exp) bound .lowerBound)]
  if removeTrivial then
    match C.constFoldToInt exp with
    | none => alarm false
    | some a => if a = minTy then alarm true else []
  else alarm false

/-- The alarm on an operation of type `t`. -/
def boundAlarm (t : IntType) (op : Binop) (lexp rexp : X) (invalid : Bool) (bk : BoundKind) : Emitted X :=
  let bound := match bk with
    | .upperBound => t.max
    | .lowerBound => t.min
  [(invalid,.overflow (if t.signed then .signed else .unsigned) (.binOp op lexp rexp) bound bk)]

def multSubAddAssertion (t : IntType) (op : Binop) (lexp rexp : X) : Res (Emitted X) :=
  let alarm := boundAlarm t op lexp rexp
  let alarms := alarm false .lowerBound ++ alarm false .upperBound
  if removeTrivial then
    match C.constFoldToInt lexp,C.constFoldToInt rexp,op with
    | some l,some r,_ =>
      let warn (v : ℤ) : Res (Emitted X) :=
        if v > t.max then .ok (alarm true .upperBound)
        else if v < t.min then .ok (alarm true .lowerBound) else .ok []
      match op with
      | .minusA => warn (l - r)
      | .plusA => warn (l + r)
      | .mult => warn (l * r)
      | _ => .error .assertFailure
    | _,some v,.plusA | some v,_,.plusA =>
      if v > 0 then .ok (alarm false .upperBound)
      else if v < 0 then .ok (alarm false .lowerBound) else .ok []
    | _,some r,.minusA =>
      if r > 0 then .ok (alarm false .lowerBound)
      else if r < 0 then .ok (alarm false .upperBound) else .ok []
    | some l,none,.minusA =>
      if t.signed then
        -- `-r` ranges over `min + 1 .. max + 1`
        if l > -1 then .ok (alarm false .upperBound)
        else if l < -1 then .ok (alarm false .lowerBound) else .ok []
      else .ok (alarm false .lowerBound)
    | some v,none,.mult | none,some v,.mult => if v = 0 ∨ v = 1 then .ok [] else .ok alarms
    | _,_,_ => .ok alarms
  else .ok alarms

def divmodAssertion (divisor : X) : Emitted X :=
  let alarm (invalid : Bool) : Emitted X := [(invalid,.divisionByZero divisor)]
  if removeTrivial then
    match C.constFoldToInt divisor with
    | none => alarm false
    | some v => if v = 0 then alarm true else []
  else alarm false

def signedDivAssertion (lexp rexp : X) : Emitted X :=
  let size := (C.typeOf rexp).bits
  let alarm (invalid : Bool) : Emitted X :=
    [(invalid,.overflow .signed (.binOp .div lexp rexp) (maxSignedNumber size) .upperBound)]
  if removeTrivial then
    if (C.constFoldToInt lexp).any (· ≠ minSignedNumber size) then []
    else if (C.constFoldToInt rexp).any (· ≠ -1) then []
    else match C.constFoldToInt lexp,C.constFoldToInt rexp with
      | some _,some _ => alarm true
      | _,_ => alarm false
  else alarm false

def shiftAssertion (exp : X) (upperBound : Option ℕ) : Emitted X :=
  let alarm (invalid : Bool) : Emitted X := [(invalid,.invalidShift exp upperBound)]
  if removeTrivial then
    match C.constFoldToInt exp with
    | none => alarm false
    | some c =>
      let upperBoundOk := upperBound.all fun u => c < u
      if ¬(c ≥ 0 ∧ upperBoundOk) then alarm true else []
  else alarm false

def shiftWidthAssertion (exp : X) (typ : IntType) : Emitted X :=
  shiftAssertion C removeTrivial exp (some typ.bits)

def shiftNegativeAssertion (exp : X) : Emitted X := shiftAssertion C removeTrivial exp none

/-- `Integer.shift_left` on an amount that is not negative. -/
def shiftLeft (x y : ℤ) : Res ℤ := do
  let n ← Integer.toInt y
  return x * 2 ^ n.toNat

def shiftOverflowAssertion (t : IntType) (op : Binop) (lexp rexp : X) : Res (Emitted X) :=
  if op = .shiftlt then
    let overflowAlarm (invalid : Bool) := boundAlarm t op lexp rexp invalid .upperBound
    if removeTrivial then
      match C.constFoldToInt lexp,C.constFoldToInt rexp with
      | some l,some r =>
        if r ≥ 0 then do
          let v ← shiftLeft l r
          return if v > t.max then overflowAlarm true else []
        else .ok []
      | _,_ => .ok (overflowAlarm false)
    else .ok (overflowAlarm false)
  else .ok []

/-- The bounds a downcast of `exp` into `lo .. hi` is checked against. -/
def downcastAlarms (k : OverflowKind) (exp : X) (lo hi : ℤ) : Emitted X :=
  let alarm (invalid : Bool) (bk : BoundKind) : Emitted X :=
    let b := match bk with
      | .lowerBound => lo
      | .upperBound => hi
    [(invalid,.overflow k (.operand exp) b bk)]
  let alarms :=
    if (C.typeOf exp).signed then alarm false .upperBound ++ alarm false .lowerBound
    else alarm false .upperBound
  if removeTrivial then
    match C.constFoldToInt exp with
    | none => alarms
    | some a =>
      if a < lo then alarm true .lowerBound else if a > hi then alarm true .upperBound else []
  else alarms

def unsignedDowncastAssertion (szTo : ℕ) (exp : X) : Emitted X :=
  let szFrom := (C.typeOf exp).bits
  if szTo < szFrom ∨ (C.typeOf exp).signed then
    downcastAlarms C removeTrivial .unsignedDowncast exp 0 (maxUnsignedNumber szTo)
  else []

def signedDowncastAssertion (szTo : ℕ) (exp : X) : Emitted X :=
  let szFrom := (C.typeOf exp).bits
  if szTo < szFrom ∨ (szTo = szFrom ∧ ¬(C.typeOf exp).signed) then
    downcastAlarms C removeTrivial .signedDowncast exp (minSignedNumber szTo) (maxSignedNumber szTo)
  else []

end Generators

section Exactness

variable {X : Type} (C : Operands X)

/-- Operand values of the right types, constants having their own value. -/
structure Valuation where
  val : X → ℤ
  fits : ∀ e, (C.typeOf e).Fits (val e)
  const : ∀ e, ∀ v ∈ C.constFoldToInt e, val e = v

instance : CoeFun (Valuation C) fun _ => X → ℤ := ⟨Valuation.val⟩

def Emitted.Holds (ρ : X → ℤ) (as : Emitted X) : Prop := ∀ a ∈ as, a.2.Holds ρ

/-- The conjunction of the alarms is `P`, and what is reported invalid never holds. -/
structure Means (as : Emitted X) (P : Valuation C → Prop) : Prop where
  holds_iff : ∀ ρ : Valuation C, (as.Holds ρ ↔ P ρ)
  invalid : ∀ a ∈ as, a.1 = true → ∀ ρ : Valuation C, ¬a.2.Holds ρ

/-- The operations the visitor has checked, converted operands having the type of the operation. -/
inductive Check
  | index (e : X) (size : ℤ) (pos : 0 < size)
  | uminus (exp : X) (signed : (C.typeOf exp).signed)
  | multSubAdd (op : Binop) (lexp rexp : X) (arith : op = .plusA ∨ op = .minusA ∨ op = .mult)
      (same : C.typeOf lexp = C.typeOf rexp)
  | div (lexp rexp : X) (same : C.typeOf lexp = C.typeOf rexp) (signed : (C.typeOf lexp).signed)
  | shift (op : Binop) (lexp rexp : X) (isShift : op = .shiftlt ∨ op = .shiftrt)
  | downcast (ty : IntType) (exp : X)

variable {C}

namespace Check

def alarms (removeTrivial : Bool) : Check C → Res (Emitted X)
  | .index e size _ => .ok (validIndex C removeTrivial e size)
  | .uminus exp _ => .ok (uminusAssertion C removeTrivial exp)
  | .multSubAdd op l r _ _ => multSubAddAssertion C removeTrivial (C.typeOf l) op l r
  | .div l r _ _ => .ok (divmodAssertion C removeTrivial r ++ signedDivAssertion C removeTrivial l r)
  | .shift op l r _ => do
    let t := C.typeOf l
    let neg := if t.signed then shiftNegativeAssertion C removeTrivial l else []
    let ov ← shiftOverflowAssertion C removeTrivial t op l r
    return shiftWidthAssertion C removeTrivial r t ++ neg ++ ov
  | .downcast ty exp => .ok <|
    if ty.signed then signedDowncastAssertion C removeTrivial ty.bits exp
    else unsignedDowncastAssertion C removeTrivial ty.bits exp

/-- The operation is defined, and its mathematical result fits its type. -/
def Fits (ρ : Valuation C) : Check C → Prop
  | .index e size _ => 0 ≤ ρ e ∧ ρ e < size
  | .uminus exp _ => (C.typeOf exp).Fits (-ρ exp)
  | .multSubAdd op l r _ _ => (C.typeOf l).Fits (op.eval (ρ l) (ρ r))
  | .div l r _ _ => ρ r ≠ 0 ∧ (C.typeOf l).Fits ((ρ l).tdiv (ρ r))
  | .shift op l r _ =>
    (0 ≤ ρ r ∧ ρ r < (C.typeOf l).bits) ∧ ((C.typeOf l).signed → 0 ≤ ρ l) ∧
      (C.typeOf l).Fits (op.eval (ρ l) (ρ r))
  | .downcast ty exp => ty.Fits (ρ exp)

/-- With and without `remove_trivial`, the conjunction of the alarms is the condition. -/
def Exact (c : Check C) : Prop :=
  ∀ removeTrivial, ∃ as, c.alarms removeTrivial = .ok as ∧ Means C as fun ρ => c.Fits ρ

def HugeShift : Check C → Prop
  | .shift op l r _ => op = .shiftlt ∧ (C.constFoldToInt l).isSome ∧ ∃ n ∈ C.constFoldToInt r, 2 ^ 62 ≤ n
  | _ => False

end Check

theorem IntType.signed_min (t : IntType) (h : t.signed) : t.min = -t.max - 1 := by
  simp [IntType.min,IntType.max,h,minSignedNumber,maxSignedNumber]

theorem IntType.unsigned_min (t : IntType) (h : ¬t.signed) : t.min = 0 := by
  simp [IntType.min,h]

theorem IntType.max_nonneg (t : IntType) : 0 ≤ t.max := by
  have h1 : (0 : ℤ) < 2 ^ (t.bits - 1) := by positivity
  have h2 : (0 : ℤ) < 2 ^ t.bits := by positivity
  unfold IntType.max maxSignedNumber maxUnsignedNumber
  split <;> omega

theorem IntType.min_cases (t : IntType) : t.min = (if t.signed then -t.max - 1 else 0) := by
  split_ifs with h
  · exact t.signed_min h
  · exact t.unsigned_min h

theorem IntType.fits_zero (t : IntType) : t.Fits 0 := by
  have h0 := t.max_nonneg
  have h := t.min_cases
  unfold IntType.Fits
  split_ifs at h <;> omega

namespace Means

variable {as bs : Emitted X} {P Q : Valuation C → Prop} {a : Bool × Alarm X}

theorem append (h : Means C as P) (h' : Means C bs Q) : Means C (as ++ bs) fun ρ => P ρ ∧ Q ρ where
  holds_iff ρ := by
    rw [← h.holds_iff ρ,← h'.holds_iff ρ]
    simp only [Emitted.Holds,List.forall_mem_append]
  invalid a ha := by
    rcases List.mem_append.mp ha with ha | ha
    · exact h.invalid a ha
    · exact h'.invalid a ha

theorem congr (h : Means C as P) (hPQ : ∀ ρ : Valuation C, (P ρ ↔ Q ρ)) : Means C as Q :=
  ⟨fun ρ => (h.holds_iff ρ).trans (hPQ ρ),h.invalid⟩

theorem nil (h : ∀ ρ : Valuation C, P ρ) : Means C [] P :=
  ⟨fun ρ => by simp [Emitted.Holds,h ρ],by simp⟩

theorem single (h : ∀ ρ : Valuation C, a.2.Holds ρ ↔ P ρ) (hi : a.1 = true → ∀ ρ : Valuation C, ¬P ρ) :
    Means C [a] P :=
  ⟨fun ρ => by simp [Emitted.Holds,h ρ],fun b hb => by rw [List.mem_singleton.mp hb]; simpa only [h] using hi⟩

theorem alarm {a : Alarm X} (h : ∀ ρ : Valuation C, a.Holds ρ ↔ P ρ) : Means C [(false,a)] P :=
  single h nofun

end Means

variable (removeTrivial : Bool)

theorem divmodAssertion_means (divisor : X) :
    Means C (divmodAssertion C removeTrivial divisor) fun ρ => ρ divisor ≠ 0 := by
  unfold divmodAssertion
  split
  · split
    · exact .alarm fun _ => .rfl
    · rename_i v hc
      split_ifs with h0
      · exact .single (fun _ => .rfl) fun _ ρ => by simp [ρ.const divisor v hc,h0]
      · exact .nil fun ρ => by rwa [ρ.const divisor v hc]
  · exact .alarm fun _ => .rfl

theorem shiftAssertion_means (exp : X) (up : Option ℕ) :
    Means C (shiftAssertion C removeTrivial exp up) fun ρ => 0 ≤ ρ exp ∧ ∀ n ∈ up, ρ exp < n := by
  unfold shiftAssertion
  split
  · split
    · exact .alarm fun _ => .rfl
    · rename_i c hc
      have hiff : (c ≥ 0 ∧ up.all fun u => c < u) ↔ 0 ≤ c ∧ ∀ n ∈ up, c < n := by
        cases up <;> simp
      simp only [hiff,ite_not]
      split_ifs with h0
      · exact .nil fun ρ => by rwa [ρ.const exp c hc]
      · exact .single (fun _ => .rfl) fun _ ρ => by rwa [ρ.const exp c hc]
  · exact .alarm fun _ => .rfl

theorem validIndex_means (e : X) {size : ℤ} (hs : 0 < size) :
    Means C (validIndex C removeTrivial e size) fun ρ => 0 ≤ ρ e ∧ ρ e < size := by
  have hlo : Means C [(false,.indexOutOfBound e none)] fun ρ => 0 ≤ ρ e := .alarm fun _ => .rfl
  have hup : Means C [(false,.indexOutOfBound e (some size))] fun ρ => ρ e < size :=
    .alarm fun _ => .rfl
  simp only [validIndex,hs.ne',and_false,not_false_eq_true,if_true]
  split
  · refine .append ?_ ?_
    · split_ifs with h
      · refine .nil fun ρ => ?_
        rcases Bool.or_eq_true _ _ ▸ h with h | h
        · obtain ⟨v,hv,h0⟩ := (Option.any_eq_true _ _).mp h
          rw [ρ.const e _ hv]
          exact of_decide_eq_true h0
        · exact (ρ.fits e).1.trans' (by simp_all [IntType.min])
      · exact hlo
    · split_ifs with h
      · refine .nil fun ρ => ?_
        obtain ⟨v,hv,h0⟩ := (Option.any_eq_true _ _).mp h
        rw [ρ.const e _ hv]
        exact of_decide_eq_true h0
      · exact hup
  · exact hlo.append hup

theorem uminusAssertion_means {exp : X} (hs : (C.typeOf exp).signed) :
    Means C (uminusAssertion C removeTrivial exp) fun ρ => (C.typeOf exp).Fits (-ρ exp) := by
  have hmin : minSignedNumber (C.typeOf exp).bits = (C.typeOf exp).min := by simp [IntType.min,hs]
  have hm := (C.typeOf exp).signed_min hs
  have hiff : ∀ ρ : Valuation C, (1 + (C.typeOf exp).min ≤ ρ exp ↔ (C.typeOf exp).Fits (-ρ exp)) := by
    intro ρ
    have := ρ.fits exp
    unfold IntType.Fits at *
    omega
  simp only [uminusAssertion,hmin]
  split
  · split
    · exact .alarm hiff
    · rename_i v hc
      split_ifs with h0
      · exact .single hiff fun _ ρ => by rw [← hiff ρ,ρ.const exp v hc,h0]; omega
      · refine .nil fun ρ => (hiff ρ).mp ?_
        have := (ρ.fits exp).1
        rw [ρ.const exp v hc] at *
        omega
  · exact .alarm hiff

theorem downcastAlarms_means {k : OverflowKind} {exp : X} {lo hi : ℤ}
    (hlo : ¬(C.typeOf exp).signed → lo ≤ 0) :
    Means C (downcastAlarms C removeTrivial k exp lo hi) fun ρ => lo ≤ ρ exp ∧ ρ exp ≤ hi := by
  have hu : Means C [(false,.overflow k (.operand exp) hi .upperBound)] fun ρ => ρ exp ≤ hi :=
    .alarm fun _ => .rfl
  have hl : Means C [(false,.overflow k (.operand exp) lo .lowerBound)] fun ρ => lo ≤ ρ exp :=
    .alarm fun _ => .rfl
  have hall : Means C (if (C.typeOf exp).signed then
      [(false,.overflow k (.operand exp) hi .upperBound)] ++ [(false,.overflow k (.operand exp) lo .lowerBound)]
      else [(false,.overflow k (.operand exp) hi .upperBound)]) fun ρ => lo ≤ ρ exp ∧ ρ exp ≤ hi := by
    split_ifs with h
    · exact (hu.append hl).congr fun _ => and_comm
    · refine hu.congr fun ρ => ?_
      have := (ρ.fits exp).1
      rw [IntType.unsigned_min _ h] at this
      have := hlo h
      omega
  simp only [downcastAlarms]
  cases removeTrivial with
  | false => simpa only [Bool.false_eq_true,if_false] using hall
  | true =>
    cases hc : C.constFoldToInt exp with
    | none => simpa only [if_true] using hall
    | some v =>
      simp only [if_true]
      have hv : ∀ ρ : Valuation C, ρ exp = v := fun ρ => ρ.const exp v hc
      split_ifs with h1 h2
      · exact .single (fun ρ => by simp only [Alarm.Holds,Exp.eval,hv ρ]; omega)
          fun _ ρ => by rw [hv ρ]; omega
      · exact .single (fun ρ => by simp only [Alarm.Holds,Exp.eval,hv ρ]; omega)
          fun _ ρ => by rw [hv ρ]; omega
      · exact .nil fun ρ => by rw [hv ρ]; omega

theorem IntType.tdiv_le_max {t : IntType} (hs : t.signed) {a b : ℤ} (ha : t.Fits a)
    (h : a ≠ t.min ∨ b ≠ -1) : a.tdiv b ≤ t.max := by
  have hm := t.signed_min hs
  have h0 := t.max_nonneg
  obtain ⟨h1,h2⟩ := ha
  by_cases hb : b < -1
  · by_cases ha : a ≤ 0
    · have hlt : -a / -b < t.max + 1 := by
        apply Int.ediv_lt_of_lt_mul (by omega)
        nlinarith
      rw [← Int.tdiv_eq_ediv_of_nonneg (by omega),Int.neg_tdiv_neg] at hlt
      omega
    · have := Int.natAbs_tdiv_le_natAbs a b
      omega
  · have hcases : b = -1 ∨ b = 0 ∨ 0 < b := by omega
    rcases hcases with rfl | rfl | hb
    · rw [Int.tdiv_neg,Int.tdiv_one]
      omega
    · rwa [Int.tdiv_zero]
    · rcases le_total 0 a with ha | ha
      · have := Int.natAbs_tdiv_le_natAbs a b
        omega
      · have := Int.tdiv_nonneg (Int.neg_nonneg_of_nonpos ha) hb.le
        rw [Int.neg_tdiv] at this
        omega

theorem signedDivAssertion_means {l r : X} (same : C.typeOf l = C.typeOf r) (hs : (C.typeOf l).signed) :
    Means C (signedDivAssertion C removeTrivial l r) fun ρ => (ρ l).tdiv (ρ r) ≤ (C.typeOf l).max := by
  have hmin : minSignedNumber (C.typeOf r).bits = (C.typeOf l).min := by simp [IntType.min,← same,hs]
  have hmax : maxSignedNumber (C.typeOf r).bits = (C.typeOf l).max := by simp [IntType.max,← same,hs]
  have hsafe := fun ρ : Valuation C => IntType.tdiv_le_max (b := ρ r) hs (ρ.fits l)
  simp only [signedDivAssertion,hmin,hmax]
  split
  · split_ifs with hl hr
    · obtain ⟨v,hv,hne⟩ := (Option.any_eq_true _ _).mp hl
      exact .nil fun ρ => hsafe ρ (.inl (by simpa [ρ.const l v hv] using hne))
    · obtain ⟨v,hv,hne⟩ := (Option.any_eq_true _ _).mp hr
      exact .nil fun ρ => hsafe ρ (.inr (by simpa [ρ.const r v hv] using hne))
    · split
      · rename_i v w hv hw
        refine .single (fun _ => .rfl) fun _ ρ => ?_
        rw [ρ.const l v hv,ρ.const r w hw]
        simp only [hv,hw,Option.any_some,ne_eq,decide_eq_true_eq,not_not] at hl hr
        have := (C.typeOf l).signed_min hs
        rw [hl,hr,Int.tdiv_neg,Int.tdiv_one]
        omega
      · exact .alarm fun _ => .rfl
  · exact .alarm fun _ => .rfl

section Bounds

variable {t : IntType} {op : Binop} {l r : X}

theorem boundAlarm_upper (invalid : Bool) (hi : invalid → ∀ ρ : Valuation C, t.max < op.eval (ρ l) (ρ r)) :
    Means C (boundAlarm t op l r invalid .upperBound) fun ρ => op.eval (ρ l) (ρ r) ≤ t.max :=
  .single (fun _ => .rfl) fun h ρ => not_le.mpr (hi h ρ)

theorem boundAlarm_lower (invalid : Bool) (hi : invalid → ∀ ρ : Valuation C, op.eval (ρ l) (ρ r) < t.min) :
    Means C (boundAlarm t op l r invalid .lowerBound) fun ρ => t.min ≤ op.eval (ρ l) (ρ r) :=
  .single (fun _ => .rfl) fun h ρ => not_le.mpr (hi h ρ)

theorem boundAlarm_upper_fits (h : ∀ ρ : Valuation C, t.min ≤ op.eval (ρ l) (ρ r)) :
    Means C (boundAlarm t op l r false .upperBound) fun ρ => t.Fits (op.eval (ρ l) (ρ r)) :=
  (boundAlarm_upper false (by simp)).congr fun ρ => by simp [IntType.Fits,h ρ]

theorem boundAlarm_lower_fits (h : ∀ ρ : Valuation C, op.eval (ρ l) (ρ r) ≤ t.max) :
    Means C (boundAlarm t op l r false .lowerBound) fun ρ => t.Fits (op.eval (ρ l) (ρ r)) :=
  (boundAlarm_lower false (by simp)).congr fun ρ => by simp [IntType.Fits,h ρ]

theorem boundAlarm_both : Means C (boundAlarm t op l r false .lowerBound ++ boundAlarm t op l r false .upperBound)
    fun ρ => t.Fits (op.eval (ρ l) (ρ r)) :=
  (boundAlarm_lower false (by simp)).append (boundAlarm_upper false (by simp))

theorem boundAlarm_warn (v : ℤ) (hv : ∀ ρ : Valuation C, op.eval (ρ l) (ρ r) = v) :
    ∃ as, (if v > t.max then .ok (boundAlarm t op l r true .upperBound)
      else if v < t.min then .ok (boundAlarm t op l r true .lowerBound) else .ok [] : Res (Emitted X)) = .ok as ∧
      Means C as fun ρ => t.Fits (op.eval (ρ l) (ρ r)) := by
  have h0 := t.fits_zero.1.trans t.fits_zero.2
  split_ifs with h1 h2
  · refine ⟨_,rfl,(boundAlarm_upper true fun _ ρ => by rw [hv ρ]; omega).congr fun ρ => ?_⟩
    rw [hv ρ,IntType.Fits]
    omega
  · refine ⟨_,rfl,(boundAlarm_lower true fun _ ρ => by rw [hv ρ]; omega).congr fun ρ => ?_⟩
    rw [hv ρ,IntType.Fits]
    omega
  · exact ⟨_,rfl,.nil fun ρ => by rw [hv ρ]; exact ⟨by omega,by omega⟩⟩

theorem boundAlarm_sign {v c : ℤ} (hup : v > c → ∀ ρ : Valuation C, t.min ≤ op.eval (ρ l) (ρ r))
    (hlo : v < c → ∀ ρ : Valuation C, op.eval (ρ l) (ρ r) ≤ t.max)
    (heq : v = c → ∀ ρ : Valuation C, t.Fits (op.eval (ρ l) (ρ r))) :
    ∃ as, (if v > c then .ok (boundAlarm t op l r false .upperBound)
      else if v < c then .ok (boundAlarm t op l r false .lowerBound) else .ok [] : Res (Emitted X)) = .ok as ∧
      Means C as fun ρ => t.Fits (op.eval (ρ l) (ρ r)) := by
  split_ifs with h1 h2
  · exact ⟨_,rfl,boundAlarm_upper_fits (hup h1)⟩
  · exact ⟨_,rfl,boundAlarm_lower_fits (hlo h2)⟩
  · exact ⟨_,rfl,.nil (heq (by omega))⟩

theorem boundAlarm_mult {v : ℤ} (h : v = 0 ∨ v = 1 → ∀ ρ : Valuation C, t.Fits (op.eval (ρ l) (ρ r))) :
    ∃ as, (if v = 0 ∨ v = 1 then .ok []
      else .ok (boundAlarm t op l r false .lowerBound ++ boundAlarm t op l r false .upperBound) : Res (Emitted X))
        = .ok as ∧ Means C as fun ρ => t.Fits (op.eval (ρ l) (ρ r)) := by
  split_ifs with hv
  · exact ⟨_,rfl,.nil (h hv)⟩
  · exact ⟨_,rfl,boundAlarm_both⟩

end Bounds

theorem multSubAddAssertion_means {t : IntType} {op : Binop} {l r : X}
    (arith : op = .plusA ∨ op = .minusA ∨ op = .mult) (htl : C.typeOf l = t) (htr : C.typeOf r = t) :
    ∃ as, multSubAddAssertion C removeTrivial t op l r = .ok as ∧
      Means C as fun ρ => t.Fits (op.eval (ρ l) (ρ r)) := by
  have hl : ∀ ρ : Valuation C, t.Fits (ρ l) := fun ρ => htl ▸ ρ.fits l
  have hr : ∀ ρ : Valuation C, t.Fits (ρ r) := fun ρ => htr ▸ ρ.fits r
  have hmin := t.min_cases
  have h0 := t.max_nonneg
  unfold IntType.Fits at hl hr
  simp only [multSubAddAssertion]
  cases removeTrivial with
  | false => exact ⟨_,rfl,boundAlarm_both⟩
  | true =>
    simp only [if_true]
    cases hcl : C.constFoldToInt l with
    | none =>
      cases hcr : C.constFoldToInt r with
      | none => rcases arith with rfl | rfl | rfl <;> exact ⟨_,rfl,boundAlarm_both⟩
      | some v =>
        have hv : ∀ ρ : Valuation C, ρ r = v := fun ρ => ρ.const r v hcr
        rcases arith with rfl | rfl | rfl
        · refine boundAlarm_sign (fun h ρ => ?_) (fun h ρ => ?_) fun h ρ => ?_
          all_goals
            simp only [Binop.eval,IntType.Fits,hv ρ]
            have := hl ρ
            omega
        · simp only []
          split_ifs with h1 h2
          · refine ⟨_,rfl,boundAlarm_lower_fits fun ρ => ?_⟩
            simp only [Binop.eval,hv ρ]
            have := hl ρ
            omega
          · refine ⟨_,rfl,boundAlarm_upper_fits fun ρ => ?_⟩
            simp only [Binop.eval,hv ρ]
            have := hl ρ
            omega
          · refine ⟨_,rfl,.nil fun ρ => ?_⟩
            simp only [Binop.eval,IntType.Fits,hv ρ]
            have := hl ρ
            omega
        · refine boundAlarm_mult fun h ρ => ?_
          have := hl ρ
          simp only [Binop.eval,hv ρ]
          rcases h with rfl | rfl
          · simpa only [mul_zero] using t.fits_zero
          · simpa only [mul_one,IntType.Fits] using this
    | some v =>
      have hv : ∀ ρ : Valuation C, ρ l = v := fun ρ => ρ.const l v hcl
      cases hcr : C.constFoldToInt r with
      | none =>
        rcases arith with rfl | rfl | rfl
        · refine boundAlarm_sign (fun h ρ => ?_) (fun h ρ => ?_) fun h ρ => ?_
          all_goals
            simp only [Binop.eval,IntType.Fits,hv ρ]
            have := hr ρ
            omega
        · simp only []
          by_cases hs : t.signed
          · rw [if_pos hs] at hmin ⊢
            refine boundAlarm_sign (fun h ρ => ?_) (fun h ρ => ?_) fun h ρ => ?_
            all_goals
              simp only [Binop.eval,IntType.Fits,hv ρ]
              have := hr ρ
              omega
          · rw [if_neg hs] at hmin ⊢
            refine ⟨_,rfl,boundAlarm_lower_fits fun ρ => ?_⟩
            simp only [Binop.eval]
            have := hl ρ
            have := hr ρ
            omega
        · refine boundAlarm_mult fun h ρ => ?_
          have := hr ρ
          simp only [Binop.eval,hv ρ]
          rcases h with rfl | rfl
          · simpa only [zero_mul] using t.fits_zero
          · simpa only [one_mul,IntType.Fits] using this
      | some w =>
        have hw : ∀ ρ : Valuation C, ρ r = w := fun ρ => ρ.const r w hcr
        rcases arith with rfl | rfl | rfl
        all_goals exact boundAlarm_warn _ fun ρ => by rw [hv ρ,hw ρ]; rfl

theorem shiftOverflowAssertion_means {l r : X}
    (h : (C.constFoldToInt l).isSome → ∀ n ∈ C.constFoldToInt r, n < 2 ^ 62) :
    ∃ as, shiftOverflowAssertion C removeTrivial (C.typeOf l) .shiftlt l r = .ok as ∧
      Means C as fun ρ => Binop.shiftlt.eval (ρ l) (ρ r) ≤ (C.typeOf l).max := by
  have halarm : Means C (boundAlarm (C.typeOf l) .shiftlt l r false .upperBound)
      fun ρ => Binop.shiftlt.eval (ρ l) (ρ r) ≤ (C.typeOf l).max := boundAlarm_upper false (by simp)
  simp only [shiftOverflowAssertion,if_true]
  split
  · split
    · rename_i v n hv hn
      have hval : ∀ ρ : Valuation C, ρ l = v ∧ ρ r = n := fun ρ => ⟨ρ.const l v hv,ρ.const r n hn⟩
      have hn62 : n < 2 ^ 62 := h (by simp [hv]) n hn
      split_ifs with h0
      · rw [shiftLeft,Integer.toInt_ok ⟨by omega,hn62⟩]
        refine ⟨_,rfl,?_⟩
        split_ifs with hmax
        · refine boundAlarm_upper true fun _ ρ => ?_
          rw [(hval ρ).1,(hval ρ).2]
          exact hmax
        · refine .nil fun ρ => ?_
          rw [(hval ρ).1,(hval ρ).2]
          exact not_lt.mp hmax
      · refine ⟨_,rfl,.nil fun ρ => ?_⟩
        have hn0 : (ρ r).toNat = 0 := by rw [(hval ρ).2]; omega
        simpa only [Binop.eval,hn0,pow_zero,mul_one] using (ρ.fits l).2
    · exact ⟨_,rfl,halarm⟩
  · exact ⟨_,rfl,halarm⟩

theorem signedDowncastAssertion_means {ty : IntType} (hs : ty.signed) (exp : X) :
    Means C (signedDowncastAssertion C removeTrivial ty.bits exp) fun ρ => ty.Fits (ρ exp) := by
  have h0 := ty.fits_zero
  simp only [IntType.Fits,IntType.min,IntType.max,hs,if_true] at h0 ⊢
  simp only [signedDowncastAssertion]
  split_ifs with hsz
  · exact downcastAlarms_means removeTrivial fun _ => h0.1
  · refine .nil fun ρ => ?_
    have hb := ρ.fits exp
    by_cases he : (C.typeOf exp).signed
    · have hp : (2 : ℤ) ^ ((C.typeOf exp).bits - 1) ≤ 2 ^ (ty.bits - 1) :=
        pow_le_pow_right₀ (by norm_num) (by omega)
      simp only [IntType.Fits,IntType.min,IntType.max,he,if_true,minSignedNumber,maxSignedNumber] at hb ⊢
      omega
    · have hne : ty.bits ≠ (C.typeOf exp).bits := fun h => hsz (.inr ⟨h,he⟩)
      have hp : (2 : ℤ) ^ (C.typeOf exp).bits ≤ 2 ^ (ty.bits - 1) :=
        pow_le_pow_right₀ (by norm_num) (by omega)
      simp only [IntType.Fits,IntType.min,IntType.max,if_neg he,minSignedNumber,maxSignedNumber,
        maxUnsignedNumber] at hb h0 ⊢
      omega

theorem unsignedDowncastAssertion_means {ty : IntType} (hs : ¬ty.signed) (exp : X) :
    Means C (unsignedDowncastAssertion C removeTrivial ty.bits exp) fun ρ => ty.Fits (ρ exp) := by
  simp only [IntType.Fits,IntType.min,IntType.max,if_neg hs,unsignedDowncastAssertion]
  split_ifs with hsz
  · exact downcastAlarms_means removeTrivial fun _ => le_rfl
  · refine .nil fun ρ => ?_
    have hb := ρ.fits exp
    obtain ⟨hsz,he⟩ := not_or.mp hsz
    have hp : (2 : ℤ) ^ (C.typeOf exp).bits ≤ 2 ^ ty.bits := pow_le_pow_right₀ (by norm_num) (by omega)
    simp only [IntType.Fits,IntType.min,IntType.max,if_neg he,maxUnsignedNumber] at hb ⊢
    omega

namespace Check

theorem div_fits {l r : X} (signed : (C.typeOf l).signed) (ρ : Valuation C) :
    (ρ l).tdiv (ρ r) ≤ (C.typeOf l).max ↔ (C.typeOf l).Fits ((ρ l).tdiv (ρ r)) := by
  have hb := ρ.fits l
  have := Int.natAbs_tdiv_le_natAbs (ρ l) (ρ r)
  have := (C.typeOf l).signed_min signed
  unfold IntType.Fits at *
  omega

theorem shift_fits {op : Binop} {l r : X} (isShift : op = .shiftlt ∨ op = .shiftrt) (ρ : Valuation C)
    (hl : (C.typeOf l).signed → 0 ≤ ρ l) :
    (op = .shiftlt → op.eval (ρ l) (ρ r) ≤ (C.typeOf l).max) ↔ (C.typeOf l).Fits (op.eval (ρ l) (ρ r)) := by
  have hb := ρ.fits l
  have hmin := (C.typeOf l).fits_zero.1
  have hl0 : 0 ≤ ρ l := by
    by_cases hs : (C.typeOf l).signed
    · exact hl hs
    · exact (C.typeOf l).unsigned_min hs ▸ hb.1
  have hp : (0 : ℤ) < 2 ^ (ρ r).toNat := by positivity
  rcases isShift with rfl | rfl
  · have : 0 ≤ ρ l * 2 ^ (ρ r).toNat := by positivity
    simp only [Binop.eval,IntType.Fits,true_implies]
    omega
  · have h1 : 0 ≤ ρ l / 2 ^ (ρ r).toNat := Int.ediv_nonneg hl0 hp.le
    have h2 : ρ l / 2 ^ (ρ r).toNat ≤ ρ l := Int.ediv_le_self _ hl0
    simp only [Binop.eval,IntType.Fits,reduceCtorEq,false_implies,true_iff]
    exact ⟨by omega,h2.trans hb.2⟩

theorem exact_of_not_hugeShift (c : Check C) (h : ¬c.HugeShift) : c.Exact := by
  intro rt
  cases c with
  | index e size pos => exact ⟨_,rfl,validIndex_means rt e pos⟩
  | uminus exp signed => exact ⟨_,rfl,uminusAssertion_means rt signed⟩
  | multSubAdd op l r arith same => exact multSubAddAssertion_means rt arith rfl same.symm
  | div l r same signed =>
    refine ⟨_,rfl,((divmodAssertion_means rt r).append (signedDivAssertion_means rt same signed)).congr ?_⟩
    exact fun ρ => and_congr_right' (div_fits signed ρ)
  | shift op l r isShift =>
    have hover : ∃ as, shiftOverflowAssertion C rt (C.typeOf l) op l r = .ok as ∧
        Means C as fun ρ => op = .shiftlt → op.eval (ρ l) (ρ r) ≤ (C.typeOf l).max := by
      rcases isShift with rfl | rfl
      · simpa using shiftOverflowAssertion_means rt (l := l) (r := r) fun hl n hn => by
          by_contra hlt
          exact h ⟨rfl,hl,n,hn,not_lt.mp hlt⟩
      · exact ⟨_,rfl,.nil fun _ h => by simp at h⟩
    obtain ⟨as,has,hmeans⟩ := hover
    have hneg : Means C (if (C.typeOf l).signed then shiftNegativeAssertion C rt l else [])
        fun ρ => (C.typeOf l).signed → 0 ≤ ρ l := by
      split_ifs with hs
      · exact (shiftAssertion_means rt l none).congr fun ρ => by simp [hs]
      · exact .nil fun _ h => absurd h hs
    have hwidth := shiftAssertion_means (C := C) rt r (some (C.typeOf l).bits)
    refine ⟨_,by simp only [alarms,has]; rfl,((hwidth.append hneg).append hmeans).congr fun ρ => ?_⟩
    simp only [Fits,Option.mem_some_iff,forall_eq',and_assoc]
    have := shift_fits (l := l) (r := r) isShift ρ
    tauto
  | downcast ty exp =>
    by_cases hs : ty.signed
    · exact ⟨_,rfl,by rw [if_pos hs]; exact signedDowncastAssertion_means rt hs exp⟩
    · exact ⟨_,rfl,by rw [if_neg hs]; exact unsignedDowncastAssertion_means rt hs exp⟩

theorem not_exact_of_hugeShift (c : Check C) (h : c.HugeShift) : ¬c.Exact := by
  intro he
  cases c with
  | shift op l r isShift =>
    obtain ⟨rfl,hl,n,hn,h62⟩ := h
    obtain ⟨v,hv⟩ := Option.isSome_iff_exists.mp hl
    obtain ⟨as,has,-⟩ := he true
    have hto : Integer.toInt n = .error .overflow := if_neg (by omega)
    simp [alarms,shiftOverflowAssertion,hv,Option.mem_def.mp hn,shiftLeft,hto,show n ≥ 0 by omega] at has
  | _ => exact h

/-- The alarms are exact, but for a constant shifted by a constant that is no OCaml integer. -/
theorem alarms_exact_iff (c : Check C) : c.Exact ↔ ¬c.HugeShift :=
  ⟨fun he hh => c.not_exact_of_hugeShift hh he,c.exact_of_not_hugeShift⟩

end Check

section Huge

/-- `1 << 4611686018427387904L`. -/
def hugeOperands : Operands Bool where
  typeOf e := if e then ⟨64,true,by decide⟩ else ⟨32,true,by decide⟩
  constFoldToInt e := if e then some (2 ^ 62) else some 1

theorem alarms_not_exact : ¬∀ c : Check hugeOperands, c.Exact := by
  intro h
  obtain ⟨as,has,-⟩ := h (.shift .shiftlt false true (.inl rfl)) true
  simp [Check.alarms,shiftOverflowAssertion,hugeOperands,shiftLeft,Integer.toInt] at has

end Huge

end Exactness

end Rte
end FramaC
