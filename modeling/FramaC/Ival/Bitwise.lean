import FramaC.Ival.Cast

/-! # Bitwise operators

The generic algorithm of `BitwiseOperator`: a congruence from the low bits, then either an
enumeration of a small set or two bounds, both from the highest bit down. Reducing an operand
may leave it empty, in which case `Error_Bottom` is raised and the whole result is bottom.
-/
namespace FramaC.Ival
open Integer Progression Outcome

inductive BitValue
  | on
  | off
  | both
  deriving DecidableEq, Repr

namespace BitValue

def union (b1 b2 : BitValue) : BitValue := if b1 = b2 then b1 else both

def not : BitValue → BitValue
  | on => off
  | off => on
  | both => both

end BitValue

/-- The signature `BitOperator`; the failing cases are `assert false`. -/
structure BitOperator where
  forward : BitValue → BitValue → BitValue
  backwardOff : BitValue → Res BitValue
  backwardOn : BitValue → Res BitValue

def opAnd : BitOperator where
  forward v1 v2 :=
    match v1 with
    | .off => .off
    | .on => v2
    | .both => if v2 = .off then .off else .both
  backwardOff
    | .off | .both => return .both
    | .on => return .off
  backwardOn
    | .off => .error .assertFailure
    | .on | .both => return .on

def opOr : BitOperator where
  forward v1 v2 :=
    match v1 with
    | .on => .on
    | .off => v2
    | .both => if v2 = .on then .on else .both
  backwardOff
    | .on => .error .assertFailure
    | .off | .both => return .off
  backwardOn
    | .on | .both => return .both
    | .off => return .on

def opXor : BitOperator where
  forward v1 v2 :=
    match v1 with
    | .both => .both
    | .off => v2
    | .on => v2.not
  backwardOff v := return v
  backwardOn v := return v.not

def significantBits (v : Ival) : Res (Option ℕ) := do
  match ← minAndMax v with
  | (none,_) | (_,none) => return none
  | (some l,some u) => return some (max (numbits l) (numbits u))

def extractSign (v : Ival) : Res BitValue := do
  let (l,u) ← minAndMax v
  if (u.map fun u => decide (u < 0)) = some true then return .on
  else if (l.map fun l => decide (l ≥ 0)) = some true then return .off
  else return .both

def bitValue (i : ℕ) (x : ℤ) : BitValue := if x.testBit i then .on else .off

def arrayMapReduce (f : ℤ → BitValue) (g : BitValue → BitValue → BitValue) : List ℤ → Res BitValue
  | [] => .error .errorBottom
  | x :: s => return s.foldl (fun acc y => g acc (f y)) (f x)

/-- The first `extract_bit`, at the index `i`. -/
def extractBitAt (i : ℕ) : Ival → Res BitValue
  | .set s => arrayMapReduce (bitValue i) BitValue.union s
  | .topItv none _ _ _ | .topItv _ none _ _ => return .both
  | .topItv (some l) (some u) _ _ =>
    if u - l ≥ 2 ^ i then return .both else return (bitValue i l).union (bitValue i u)

def reduceSign (sc : ℕ) (v : Ival) : BitValue → Res Ival
  | .both => return v
  | .on =>
    match v with
    | .set s => return arrayFilter (fun x => decide (0 > x)) s
    | .topItv l u r modu =>
      if (u.map fun u => decide (u < 0)) = some true then return v
      else injectTop sc l (some (roundDownToR (-1) r modu)) r modu
  | .off =>
    match v with
    | .set s => return arrayFilter (fun x => decide (0 ≤ x)) s
    | .topItv l u r modu =>
      if (l.map fun l => decide (l ≥ 0)) = some true then return v
      else injectTop sc (some (roundUpToR 0 r modu)) u r modu

def reducedMin (power mask l : ℤ) : BitValue → Res ℤ
  | .on => return logor (logand l (lognot mask)) power
  | .off => return logor l mask + 1
  | .both => .error .assertFailure

def reducedMax (power mask u : ℤ) : BitValue → Res ℤ
  | .on => return logand u (lognot mask) - 1
  | .off => return logand (logor u mask) (lognot power)
  | .both => .error .assertFailure

/-- The bounds of a progression, moved to the nearest ones with bit `i` equal to `b`. -/
def reduceLower (i : ℕ) (b : BitValue) (r modu : ℤ) : Option ℤ → Res (Option ℤ)
  | some l =>
    if bitValue i l ≠ b then do return some (roundUpToR (← reducedMin (2 ^ i) (2 ^ (i + 1) - 1) l b) r modu)
    else return some l
  | none => return none

def reduceUpper (i : ℕ) (b : BitValue) (r modu : ℤ) : Option ℤ → Res (Option ℤ)
  | some u =>
    if bitValue i u ≠ b then do return some (roundDownToR (← reducedMax (2 ^ i) (2 ^ (i + 1) - 1) u b) r modu)
    else return some u
  | none => return none

/-- The first `reduce_bit`, at the index `i`. -/
def reduceBitAt (sc : ℕ) (i : ℕ) (v : Ival) (b : BitValue) : Res Ival :=
  if b = .both then return v
  else
    match v with
    | .set s => return arrayFilter (fun x => decide (bitValue i x = b)) s
    | .topItv l u r modu => do
      let l' ← reduceLower i b r modu l
      let u' ← reduceUpper i b r modu u
      injectTop sc l' u' r modu

inductive Bit
  | sign
  | bit (i : ℕ)
  deriving DecidableEq, Repr

def extractBit : Bit → Ival → Res BitValue
  | .sign => extractSign
  | .bit i => extractBitAt i

def setBitOn (size : ℕ) (bit : Bit) (v : ℤ) : ℤ :=
  let mask := match bit with
    | .sign => -2 ^ size
    | .bit i => 2 ^ i
  logor mask v

def reduceBit (sc : ℕ) : Bit → Ival → BitValue → Res Ival
  | .sign => reduceSign sc
  | .bit i => reduceBitAt sc i

section Operator
variable (sc : ℕ) (op : BitOperator)

def backward (b : BitValue) : BitValue → Res BitValue
  | .on => op.backwardOn b
  | .off => op.backwardOff b
  | .both => .error .assertFailure

def intToBitArray (n : ℕ) (x : ℤ) : List BitValue := (List.range n).map fun i => bitValue i x

def lowBitMask : Ival → Res (List BitValue × BitValue)
  | .set [] => .error .errorBottom
  | .set [x] => return (intToBitArray (numbits x) x,if x ≥ 0 then .off else .on)
  | v => do
    let (_,_,r,modu) ← minMaxRMod v
    return (intToBitArray (trailingZeros modu) r,.both)

/-- The recursion `step`; the first argument is `size - i`. -/
def moduloStep (size : ℕ) (b1 : List BitValue) (s1 : BitValue) (b2 : List BitValue) (s2 : BitValue) :
    ℕ → ℕ → ℤ → ℤ × ℤ
  | 0, i, rem => (rem,2 ^ i)
  | n + 1, i, rem =>
    let b := op.forward (b1.getD i s1) (b2.getD i s2)
    if b = .both then (rem,2 ^ i)
    else
      let rem := if b = .on then setBitOn size (.bit i) rem else rem
      moduloStep size b1 s1 b2 s2 n (i + 1) rem

def computeModulo (v1 v2 : Ival) : Res (ℤ × ℤ) := do
  let (b1,s1) ← lowBitMask v1
  let (b2,s2) ← lowBitMask v2
  let size := max b1.length b2.length
  return moduloStep op size b1 s1 b2 s2 size 0 0

def n1Greater : Option ℕ → Option ℕ → Bool
  | none, _ => true
  | _, none => false
  | some n1, some n2 => decide (n1 ≥ n2)

def resultSize (v1 v2 : Ival) : Res (Option ℕ) := do
  let n1 ← significantBits v1
  let n2 ← significantBits v2
  if n1Greater n1 n2 then
    let s2 ← extractSign v2
    if op.forward .both s2 = .both then return n1 else return n2
  else
    let s1 ← extractSign v1
    if op.forward s1 .both = .both then return n2 else return n1

/-- `set_bit` of `compute_small_set`. -/
def smallSetBit (size : ℕ) (i : Bit) (acc : List (ℤ × Ival × Ival)) (t : ℤ × Ival × Ival) :
    Res (List (ℤ × Ival × Ival)) := do
  let (r,v1,v2) := t
  let b1 ← extractBit i v1
  let b2 ← extractBit i v2
  match op.forward b1 b2 with
  | .on => return (setBitOn size i r,v1,v2) :: acc
  | .off => return (r,v1,v2) :: acc
  | .both =>
    let v1Off ← reduceBit sc i v1 (← op.backwardOff b2)
    let v2Off ← reduceBit sc i v2 (← op.backwardOff b1)
    let v1On ← reduceBit sc i v1 (← op.backwardOn b2)
    let v2On ← reduceBit sc i v2 (← op.backwardOn b1)
    return (setBitOn size i r,v1On,v2On) :: (r,v1Off,v2Off) :: acc

/-- The loop on the bits below `n`, down to `low`; `none` is `Do_not_fit_small_sets`. -/
def smallSetLoop (size low : ℕ) : ℕ → List (ℤ × Ival × Ival) → Res (Option (List (ℤ × Ival × Ival)))
  | 0, acc => return some acc
  | i + 1, acc =>
    if i < low then return some acc
    else do
      let acc ← acc.foldlM (smallSetBit sc op size (.bit i)) []
      if acc.length > sc then return none else smallSetLoop size low i acc

def computeSmallSet (size : ℕ) (v1 v2 : Ival) (r modu : ℤ) : Res (Option Ival) := do
  let acc ← smallSetBit sc op size .sign [] (r,v1,v2)
  match ← smallSetLoop sc op size (numbits modu - 1) size acc with
  | none => return none
  | some acc =>
    let o := acc.foldl (fun o t => O.add t.1 o) []
    return some (shareSet o o.length)

/-- `set_bit` of `compute_bound`. -/
def boundSetBit (size : ℕ) (lower : Bool) (i : Bit) (t : ℤ × Ival × Ival) : Res (ℤ × Ival × Ival) := do
  let (r,v1,v2) := t
  let b1 ← extractBit i v1
  let b2 ← extractBit i v2
  match op.forward b1 b2 with
  | .on => return (setBitOn size i r,v1,v2)
  | .off => return (r,v1,v2)
  | .both =>
    let b := match i with
      | .sign => if lower then BitValue.on else .off
      | .bit _ => if lower then .off else .on
    let v1' ← reduceBit sc i v1 (← backward op b2 b)
    let v2' ← reduceBit sc i v2 (← backward op b1 b)
    return (if b = .on then setBitOn size i r else r,v1',v2')

def boundLoop (size : ℕ) (lower : Bool) : ℕ → ℤ × Ival × Ival → Res (ℤ × Ival × Ival)
  | 0, t => return t
  | i + 1, t => do boundLoop size lower i (← boundSetBit sc op size lower (.bit i) t)

def computeBound (size : ℕ) (v1 v2 : Ival) (lower : Bool) : Res ℤ := do
  let t ← boundSetBit sc op size lower .sign (0,v1,v2)
  let (bound,_,_) ← boundLoop sc op size lower size t
  return bound

def bitwiseForward (v1 v2 : Ival) : Res Ival :=
  catchBottom (do
    let (r,modu) ← computeModulo op v1 v2
    match ← resultSize op v1 v2 with
    | none => injectInterval sc none none r modu
    | some size =>
      match ← computeSmallSet sc op size v1 v2 r modu with
      | some v => return v
      | none =>
        let min ← computeBound sc op size v1 v2 true
        let max ← computeBound sc op size v1 v2 false
        injectInterval sc (some min) (some max) r modu)

end Operator

def bitwiseOr (sc : ℕ) : Ival → Ival → Res Ival := bitwiseForward sc opOr
def bitwiseAnd (sc : ℕ) : Ival → Ival → Res Ival := bitwiseForward sc opAnd
def bitwiseXor (sc : ℕ) : Ival → Ival → Res Ival := bitwiseForward sc opXor

/-! ## Outcomes

Every function below returns or raises `Error_Bottom`; operands stay well-formed. -/

section Reductions
variable {sc : ℕ} {v : Ival}

theorem minAndMax_sat (v : Ival) : Sat (fun _ => True) (fun e => e = .errorBottom) (minAndMax v) := by
  cases v with
  | set s =>
    rw [minAndMax]
    split
    · exact rfl
    · trivial
  | topItv l u r m => trivial

theorem significantBits_sat (v : Ival) :
    Sat (fun _ => True) (fun e => e = .errorBottom) (significantBits v) := by
  refine (minAndMax_sat v).bind fun b _ => ?_
  split <;> trivial

theorem extractBit_sat (i : Bit) (v : Ival) :
    Sat (fun _ => True) (fun e => e = .errorBottom) (extractBit i v) := by
  cases i with
  | sign =>
    refine (minAndMax_sat v).bind fun b _ => ?_
    simp only
    split
    · trivial
    · split <;> trivial
  | bit i =>
    cases v with
    | set s =>
      cases s with
      | nil => exact rfl
      | cons x s => trivial
    | topItv l u r m =>
      cases l with
      | none => trivial
      | some l =>
        cases u with
        | none => trivial
        | some u =>
          simp only [extractBit,extractBitAt]
          split <;> trivial

theorem reduceSign_wf (hsc : 2 ≤ sc) (h : Wf sc v) (b : BitValue) :
    ∃ v', reduceSign sc v b = .ok v' ∧ Wf sc v' := by
  cases b with
  | both => exact ⟨_,rfl,h⟩
  | on =>
    cases v with
    | set s => exact ⟨_,rfl,(arrayFilter_spec h _).1⟩
    | topItv l u r m =>
      have hr := (wf_topItv_iff.mp h).1
      simp only [reduceSign]
      split
      · exact ⟨_,rfl,h⟩
      · have hred : Reduced l (some (roundDownToR (-1) r m)) r m :=
          ⟨hr.pos,hr.nonneg,hr.lt,hr.lower,by rintro _ ⟨⟩; exact roundDownToR_emod hr.nonneg hr.lt⟩
        obtain ⟨w,hw,hww,_⟩ := injectTop_spec hsc hred
        exact ⟨w,hw,hww⟩
  | off =>
    cases v with
    | set s => exact ⟨_,rfl,(arrayFilter_spec h _).1⟩
    | topItv l u r m =>
      have hr := (wf_topItv_iff.mp h).1
      simp only [reduceSign]
      split
      · exact ⟨_,rfl,h⟩
      · have hred : Reduced (some (roundUpToR 0 r m)) u r m :=
          ⟨hr.pos,hr.nonneg,hr.lt,by rintro _ ⟨⟩; exact roundUpToR_emod hr.nonneg hr.lt,hr.upper⟩
        obtain ⟨w,hw,hww,_⟩ := injectTop_spec hsc hred
        exact ⟨w,hw,hww⟩

theorem reduceLower_emod {i : ℕ} {b : BitValue} (hb : b ≠ .both) {r m : ℤ} (h0 : 0 ≤ r) (hr : r < m)
    {l : Option ℤ} (hl : ∀ a ∈ l, a % m = r) :
    ∃ l', reduceLower i b r m l = .ok l' ∧ ∀ a ∈ l', a % m = r := by
  cases l with
  | none => exact ⟨none,rfl,by simp⟩
  | some a =>
    simp only [reduceLower]
    split
    · cases b with
      | on => exact ⟨_,rfl,by rintro _ ⟨⟩; exact roundUpToR_emod h0 hr⟩
      | off => exact ⟨_,rfl,by rintro _ ⟨⟩; exact roundUpToR_emod h0 hr⟩
      | both => exact absurd rfl hb
    · exact ⟨_,rfl,hl⟩

theorem reduceUpper_emod {i : ℕ} {b : BitValue} (hb : b ≠ .both) {r m : ℤ} (h0 : 0 ≤ r) (hr : r < m)
    {u : Option ℤ} (hu : ∀ a ∈ u, a % m = r) :
    ∃ u', reduceUpper i b r m u = .ok u' ∧ ∀ a ∈ u', a % m = r := by
  cases u with
  | none => exact ⟨none,rfl,by simp⟩
  | some a =>
    simp only [reduceUpper]
    split
    · cases b with
      | on => exact ⟨_,rfl,by rintro _ ⟨⟩; exact roundDownToR_emod h0 hr⟩
      | off => exact ⟨_,rfl,by rintro _ ⟨⟩; exact roundDownToR_emod h0 hr⟩
      | both => exact absurd rfl hb
    · exact ⟨_,rfl,hu⟩

theorem reduceBitAt_wf (hsc : 2 ≤ sc) (h : Wf sc v) (i : ℕ) (b : BitValue) :
    ∃ v', reduceBitAt sc i v b = .ok v' ∧ Wf sc v' := by
  unfold reduceBitAt
  split
  · exact ⟨_,rfl,h⟩
  · rename_i hb
    cases v with
    | set s => exact ⟨_,rfl,(arrayFilter_spec h _).1⟩
    | topItv l u r m =>
      have hr := (wf_topItv_iff.mp h).1
      obtain ⟨l',hl',hl⟩ := reduceLower_emod (i := i) hb hr.nonneg hr.lt hr.lower
      obtain ⟨u',hu',hu⟩ := reduceUpper_emod (i := i) hb hr.nonneg hr.lt hr.upper
      obtain ⟨w,hw,hww,_⟩ := injectTop_spec hsc ⟨hr.pos,hr.nonneg,hr.lt,hl,hu⟩
      exact ⟨w,by simp only [hl',hu',Res.ok_bind,hw],hww⟩

theorem reduceBit_wf (hsc : 2 ≤ sc) (h : Wf sc v) (i : Bit) (b : BitValue) :
    ∃ v', reduceBit sc i v b = .ok v' ∧ Wf sc v' := by
  cases i with
  | sign => exact reduceSign_wf hsc h b
  | bit i => exact reduceBitAt_wf hsc h i b

end Reductions

/-- When the result of a bit is unknown, neither operand makes a backward function fail. -/
def BitOperator.Total (op : BitOperator) : Prop :=
  ∀ b1 b2, op.forward b1 b2 = .both →
    (∃ c, op.backwardOff b1 = .ok c) ∧ (∃ c, op.backwardOff b2 = .ok c) ∧
      (∃ c, op.backwardOn b1 = .ok c) ∧ ∃ c, op.backwardOn b2 = .ok c

theorem opAnd_total : opAnd.Total := by
  intro b1 b2 h
  cases b1 <;> cases b2 <;> first | exact ⟨⟨_,rfl⟩,⟨_,rfl⟩,⟨_,rfl⟩,⟨_,rfl⟩⟩ | cases h

theorem opOr_total : opOr.Total := by
  intro b1 b2 h
  cases b1 <;> cases b2 <;> first | exact ⟨⟨_,rfl⟩,⟨_,rfl⟩,⟨_,rfl⟩,⟨_,rfl⟩⟩ | cases h

theorem opXor_total : opXor.Total := fun _ _ _ => ⟨⟨_,rfl⟩,⟨_,rfl⟩,⟨_,rfl⟩,⟨_,rfl⟩⟩

section Outcomes
variable {sc : ℕ} {op : BitOperator} {v1 v2 : Ival}

theorem BitOperator.Total.backward (hop : op.Total) {b1 b2 : BitValue} (hb : op.forward b1 b2 = .both)
    {b : BitValue} (hne : b ≠ .both) : (∃ c, backward op b1 b = .ok c) ∧ ∃ c, backward op b2 b = .ok c := by
  obtain ⟨h1,h2,h3,h4⟩ := hop b1 b2 hb
  cases b with
  | on => exact ⟨h3,h4⟩
  | off => exact ⟨h1,h2⟩
  | both => exact absurd rfl hne

theorem lowBitMask_sat {v : Ival} (h : Wf sc v) :
    Sat (fun _ => True) (fun e => e = .errorBottom) (lowBitMask v) := by
  cases v with
  | topItv l u r m => trivial
  | set s =>
    cases s with
    | nil => exact rfl
    | cons x s =>
      cases s with
      | nil => trivial
      | cons y s =>
        have h2 : 2 ≤ (x :: y :: s).length := by simp
        have h2' : (x :: y :: s).length ≥ 2 := h2
        simp only [lowBitMask,minMaxRMod,decide_eq_true h2',assertion_true,Res.ok_bind,
          unsafeMakeTopFromArray4_ok h.1 h2]
        trivial

theorem moduloStep_spec (op : BitOperator) (size : ℕ) (b1 : List BitValue) (s1 : BitValue) (b2 : List BitValue)
    (s2 : BitValue) (n i : ℕ) {rem : ℤ} (h0 : 0 ≤ rem) (hlt : rem < 2 ^ i) :
    ∃ j : ℕ, (moduloStep op size b1 s1 b2 s2 n i rem).2 = 2 ^ j ∧
      0 ≤ (moduloStep op size b1 s1 b2 s2 n i rem).1 ∧ (moduloStep op size b1 s1 b2 s2 n i rem).1 < 2 ^ j := by
  induction n generalizing i rem with
  | zero => exact ⟨i,rfl,h0,hlt⟩
  | succ n ih =>
    simp only [moduloStep]
    split
    · exact ⟨i,rfl,h0,hlt⟩
    · have hset : setBitOn size (.bit i) rem = 2 ^ i + rem := Bits.lor_two_pow i h0 hlt
      have hpow : (0 : ℤ) < 2 ^ i := by positivity
      refine ih (i + 1) ?_ ?_
      · split
        · rw [hset]
          omega
        · exact h0
      · rw [pow_succ]
        split
        · rw [hset]
          omega
        · omega

theorem computeModulo_sat (h1 : Wf sc v1) (h2 : Wf sc v2) :
    Sat (fun p => 0 ≤ p.1 ∧ p.1 < p.2 ∧ 1 ≤ p.2) (fun e => e = .errorBottom) (computeModulo op v1 v2) := by
  refine (lowBitMask_sat h1).bind fun m1 _ => (lowBitMask_sat h2).bind fun m2 _ => ?_
  obtain ⟨j,hj,h0,hlt⟩ := moduloStep_spec op (max m1.1.length m2.1.length) m1.1 m1.2 m2.1 m2.2
    (max m1.1.length m2.1.length) 0 le_rfl (by simp)
  refine ⟨h0,by rwa [hj],?_⟩
  rw [hj]
  exact one_le_pow₀ (by omega)

theorem resultSize_sat (v1 v2 : Ival) :
    Sat (fun _ => True) (fun e => e = .errorBottom) (resultSize op v1 v2) := by
  refine (significantBits_sat v1).bind fun n1 _ => (significantBits_sat v2).bind fun n2 _ => ?_
  split
  · refine (extractBit_sat .sign v2).bind fun b _ => ?_
    split <;> trivial
  · refine (extractBit_sat .sign v1).bind fun b _ => ?_
    split <;> trivial

def WfTriple (sc : ℕ) (t : ℤ × Ival × Ival) : Prop := Wf sc t.2.1 ∧ Wf sc t.2.2

theorem smallSetBit_sat (hsc : 2 ≤ sc) (hop : op.Total) (size : ℕ) (i : Bit) {acc : List (ℤ × Ival × Ival)}
    (hacc : ∀ t ∈ acc, WfTriple sc t) {t : ℤ × Ival × Ival} (ht : WfTriple sc t) :
    Sat (fun l => (∀ t ∈ l, WfTriple sc t) ∧ l.length ≤ acc.length + 2) (fun e => e = .errorBottom)
      (smallSetBit sc op size i acc t) := by
  obtain ⟨r,v1,v2⟩ := t
  obtain ⟨h1,h2⟩ := ht
  refine (extractBit_sat i v1).bind fun b1 _ => (extractBit_sat i v2).bind fun b2 _ => ?_
  cases hb : op.forward b1 b2 with
  | on => exact ⟨List.forall_mem_cons.mpr ⟨⟨h1,h2⟩,hacc⟩,by simp⟩
  | off => exact ⟨List.forall_mem_cons.mpr ⟨⟨h1,h2⟩,hacc⟩,by simp⟩
  | both =>
    obtain ⟨⟨c1,hc1⟩,⟨c2,hc2⟩,⟨c3,hc3⟩,c4,hc4⟩ := hop b1 b2 hb
    obtain ⟨w1,hw1,hww1⟩ := reduceBit_wf hsc h1 i c2
    obtain ⟨w2,hw2,hww2⟩ := reduceBit_wf hsc h2 i c1
    obtain ⟨w3,hw3,hww3⟩ := reduceBit_wf hsc h1 i c4
    obtain ⟨w4,hw4,hww4⟩ := reduceBit_wf hsc h2 i c3
    simp only [hc1,hc2,hc3,hc4,Res.ok_bind,hw1,hw2,hw3,hw4]
    exact ⟨List.forall_mem_cons.mpr ⟨⟨hww3,hww4⟩,List.forall_mem_cons.mpr ⟨⟨hww1,hww2⟩,hacc⟩⟩,by simp⟩

theorem smallSetLoop_sat (hsc : 2 ≤ sc) (hop : op.Total) (size low n : ℕ) {acc : List (ℤ × Ival × Ival)}
    (hacc : ∀ t ∈ acc, WfTriple sc t) (hlen : acc.length ≤ sc) :
    Sat (fun l => ∀ acc' ∈ l, acc'.length ≤ sc) (fun e => e = .errorBottom)
      (smallSetLoop sc op size low n acc) := by
  induction n generalizing acc with
  | zero =>
    rintro _ ⟨⟩
    exact hlen
  | succ i ih =>
    simp only [smallSetLoop]
    split
    · rintro _ ⟨⟩
      exact hlen
    · have hfold : Sat (fun l => ∀ t ∈ l, WfTriple sc t) (fun e => e = .errorBottom)
          (acc.foldlM (smallSetBit sc op size (.bit i)) []) := by
        refine Sat.foldlM (by simp) fun l t ht hl => ?_
        exact (smallSetBit_sat hsc hop size (.bit i) hl (hacc t ht)).mono (fun _ h => h.1) fun _ => id
      refine hfold.bind fun l hl => ?_
      split
      · rintro _ ⟨⟩
      · exact ih hl (by omega)

theorem O.length_add_le (x : ℤ) (o : List ℤ) : (O.add x o).length ≤ o.length + 1 := by
  induction o with
  | nil => simp [O.add]
  | cons y o ih =>
    unfold O.add
    split
    · simp
    · split
      · simp
      · simpa using ih

theorem foldl_add_spec (l : List (ℤ × Ival × Ival)) {o : List ℤ} (ho : o.Pairwise (· < ·)) :
    (l.foldl (fun o t => O.add t.1 o) o).Pairwise (· < ·) ∧
      (l.foldl (fun o t => O.add t.1 o) o).length ≤ o.length + l.length := by
  induction l generalizing o with
  | nil => exact ⟨ho,by simp⟩
  | cons t l ih =>
    obtain ⟨h1,h2⟩ := ih (O.add_pairwise (x := t.1) ho)
    have := O.length_add_le t.1 o
    refine ⟨h1,h2.trans ?_⟩
    simp only [List.length_cons]
    omega

theorem computeSmallSet_sat (hsc : 2 ≤ sc) (hop : op.Total) (size : ℕ) (h1 : Wf sc v1) (h2 : Wf sc v2)
    (r modu : ℤ) : Sat (fun o => ∀ v ∈ o, Wf sc v) (fun e => e = .errorBottom)
      (computeSmallSet sc op size v1 v2 r modu) := by
  have hnil : ∀ t ∈ ([] : List (ℤ × Ival × Ival)), WfTriple sc t := by simp
  refine (smallSetBit_sat hsc hop size .sign hnil (t := (r,v1,v2)) ⟨h1,h2⟩).bind fun acc hacc => ?_
  refine (smallSetLoop_sat hsc hop size (numbits modu - 1) size hacc.1 (by
    have := hacc.2
    simp only [List.length_nil] at this
    omega)).bind fun l hl => ?_
  cases l with
  | none => exact fun v hv => by cases hv
  | some acc' =>
    rintro _ ⟨⟩
    obtain ⟨hp,hlen⟩ := foldl_add_spec acc' List.Pairwise.nil
    rw [shareSet_eq]
    exact ⟨hp,hlen.trans (by simpa using hl acc' rfl)⟩

theorem boundSetBit_sat (hsc : 2 ≤ sc) (hop : op.Total) (size : ℕ) (lower : Bool) (i : Bit)
    {t : ℤ × Ival × Ival} (ht : WfTriple sc t) :
    Sat (WfTriple sc) (fun e => e = .errorBottom) (boundSetBit sc op size lower i t) := by
  obtain ⟨r,v1,v2⟩ := t
  obtain ⟨h1,h2⟩ := ht
  refine (extractBit_sat i v1).bind fun b1 _ => (extractBit_sat i v2).bind fun b2 _ => ?_
  cases hb : op.forward b1 b2 with
  | on => exact ⟨h1,h2⟩
  | off => exact ⟨h1,h2⟩
  | both =>
    simp only
    generalize hB : (match i with
      | .sign => if lower then BitValue.on else .off
      | .bit _ => if lower then .off else .on) = b
    have hne : b ≠ .both := by
      subst hB
      cases i <;> cases lower <;> simp
    obtain ⟨⟨c1,hc1⟩,c2,hc2⟩ := hop.backward hb hne
    obtain ⟨w1,hw1,hww1⟩ := reduceBit_wf hsc h1 i c2
    obtain ⟨w2,hw2,hww2⟩ := reduceBit_wf hsc h2 i c1
    simp only [hc1,hc2,Res.ok_bind,hw1,hw2]
    exact ⟨hww1,hww2⟩

theorem boundLoop_sat (hsc : 2 ≤ sc) (hop : op.Total) (size : ℕ) (lower : Bool) (n : ℕ)
    {t : ℤ × Ival × Ival} (ht : WfTriple sc t) :
    Sat (WfTriple sc) (fun e => e = .errorBottom) (boundLoop sc op size lower n t) := by
  induction n generalizing t with
  | zero => exact ht
  | succ i ih => exact (boundSetBit_sat hsc hop size lower (.bit i) ht).bind fun t' ht' => ih ht'

theorem computeBound_sat (hsc : 2 ≤ sc) (hop : op.Total) (size : ℕ) (h1 : Wf sc v1) (h2 : Wf sc v2)
    (lower : Bool) : Sat (fun _ => True) (fun e => e = .errorBottom) (computeBound sc op size v1 v2 lower) := by
  refine (boundSetBit_sat hsc hop size lower .sign (t := (0,v1,v2)) ⟨h1,h2⟩).bind fun t ht => ?_
  exact (boundLoop_sat hsc hop size lower size ht).bind fun _ _ => trivial

theorem bitwiseForward_wf (hsc : 2 ≤ sc) (hop : op.Total) (h1 : Wf sc v1) (h2 : Wf sc v2) :
    ∃ v, bitwiseForward sc op v1 v2 = .ok v ∧ Wf sc v := by
  have hinj : ∀ {mn mx : Option ℤ} {p : ℤ × ℤ} {E : Exn → Prop}, 0 ≤ p.1 ∧ p.1 < p.2 ∧ 1 ≤ p.2 →
      Sat (Wf sc) E (injectInterval sc mn mx p.1 p.2) := by
    intro mn mx p E hp
    obtain ⟨v,hv,hw,_⟩ := injectInterval_spec hsc mn mx hp.2.2 hp.1 hp.2.1
    exact Sat.of_ok hv hw
  refine catchBottom_wf ?_
  refine (computeModulo_sat h1 h2).bind fun p hp => (resultSize_sat v1 v2).bind fun n _ => ?_
  cases n with
  | none => exact hinj hp
  | some size =>
    refine (computeSmallSet_sat hsc hop size h1 h2 p.1 p.2).bind fun o ho => ?_
    cases o with
    | some v => exact ho v rfl
    | none =>
      refine (computeBound_sat hsc hop size h1 h2 true).bind fun mn _ => ?_
      exact (computeBound_sat hsc hop size h1 h2 false).bind fun mx _ => hinj hp

end Outcomes

end FramaC.Ival
