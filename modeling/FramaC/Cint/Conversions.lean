import FramaC.Cint.Bitwise
import FramaC.Ival.CastSound

/-! # Conversions to the integer types

Every type has a conversion, which wraps a number into its range, and a predicate, which tests the range. Nested conversions
are collapsed by their widths and their signs, and conversions to unsigned types commute with bitwise operations.
-/
namespace FramaC.Cint
open Qed Integer Bits
variable {ADT Field Fun : Type}

inductive CInt
  | cBool
  | uInt8
  | sInt8
  | uInt16
  | sInt16
  | uInt32
  | sInt32
  | uInt64
  | sInt64
  deriving DecidableEq, Ord

namespace CInt

def signed : CInt → Bool
  | .cBool => false
  | .uInt8 | .uInt16 | .uInt32 | .uInt64 => false
  | .sInt8 | .sInt16 | .sInt32 | .sInt64 => true

def iBits : CInt → ℤ
  | .cBool => 1
  | .uInt8 | .sInt8 => 8
  | .uInt16 | .sInt16 => 16
  | .uInt32 | .sInt32 => 32
  | .uInt64 | .sInt64 => 64

/-- The bounds, which are computed from powers that are always defined. -/
def iBounds (i : CInt) : ℤ × ℤ :=
  if i.signed then
    let m := 2 ^ (i.iBits - 1).toNat
    (-m,m - 1)
  else
    let m := 2 ^ i.iBits.toNat
    (0,m - 1)

def all : List CInt := [.cBool,.uInt8,.sInt8,.uInt16,.sInt16,.uInt32,.sInt32,.uInt64,.sInt64]

/-- The number, wrapped into the range of the type; a number other than 0 is true. -/
def wrap (i : CInt) (x : ℤ) : ℤ :=
  if i = .cBool then if x = 0 then 0 else 1 else Ival.wrap i.iBits i.signed x

def inRange (i : CInt) (x : ℤ) : Bool := i.iBounds.1 ≤ x ∧ x ≤ i.iBounds.2

end CInt

/-- The conversions and the predicates of the types, which are different functions. -/
structure Symbols (Fun : Type) [FunSymbol Fun] extends Cbits Fun where
  fToInt : CInt → Fun
  pIsInt : CInt → Fun
  fToInt_injective : Function.Injective fToInt
  fToInt_ne : ∀ i, fToInt i ∉ [lnot,lor,land,lxor,lsl,lsr,bitPositive]
  pIsInt_ne : ∀ i, pIsInt i ∉ [lnot,lor,land,lxor,lsl,lsr,bitPositive]

section Rules
variable [DecidableEq Fun] [FunSymbol Fun] (S : Symbols Fun) (E : Build ADT Field Fun)

def toCint (f : Fun) : Res CInt :=
  match CInt.all.find? (fun i => S.fToInt i = f) with
  | some i => .ok i
  | none => .error .notFound

def decideTrue (e : Term ADT Field Fun) : Bool := isTrue e = some true

def simplifyRangeComp (f : Fun) (iota : CInt) (e : Term ADT Field Fun) (conv : Fun) (e' : Term ADT Field Fun) :
    Res (Term ADT Field Fun) := do
  let iota' ← toCint S conv
  let size' := iota'.iBits
  let size := iota.iBits
  if size ≤ size' then return E.eFun f [e']
  else if iota.signed || !iota'.signed then return e
  else .error .notFound

def simplifyFToBounds (iota : CInt) (e : Term ADT Field Fun) : Res (Term ADT Field Fun) :=
  let (lower,upper) := iota.iBounds
  if decideTrue (E.eLeq e (eZint upper)) && decideTrue (E.eLeq (eZint lower) e) then .ok e else .error .notFound

/-- The operand of a negation is a conversion by `f`. -/
def simplifyNot (f : Fun) (e : Term ADT Field Fun) : Res (Term ADT Field Fun) :=
  match e with
  | .node (.func f') w => if f' = f then .ok (E.eFun f [E.eFun S.lnot w]) else .error .notFound
  | _ => .error .notFound

def simplifyRange (f : Fun) (iota : CInt) (e : Term ADT Field Fun) : Res (Term ADT Field Fun) :=
  handle
    (match e with
    | .node (.kint value) _ => do return eZint (← cast iota.iBits iota.signed value)
    | .node (.func g) es =>
      if g = S.land ∧ !iota.signed ∧ anyPositiveOrNull S.toCbits E es then
        .ok (E.eFun S.land (eZint iota.iBounds.2 :: es))
      else if g = S.lor ∧ !iota.signed then .ok (E.eFun S.lor (es.map fun e' => E.eFun f [e']))
      else
        match es with
        | [e'] => if g = S.lnot ∧ !iota.signed then simplifyNot S E f e' else simplifyRangeComp S E f iota e g e'
        | _ => .error .notFound
    | _ => .error .notFound)
    (simplifyFToBounds E iota e)

def simplifyConv (f : Fun) (iota : CInt) (e : Term ADT Field Fun) : Res (Term ADT Field Fun) :=
  if iota = .cBool then
    match isTrue (E.eEq e eZero) with
    | some true => .ok eZero
    | some false => .ok (eZint 1)
    | none => .error .notFound
  else simplifyRange S E f iota e

def isConv (f : Fun) (t : Term ADT Field Fun) : Bool :=
  match t with
  | .node (.func conv) [_] => conv = f
  | _ => false

def simplifyLeq (f : Fun) (iota : CInt) (x y : Term ADT Field Fun) : Res (Term ADT Field Fun) :=
  let (lower,upper) := iota.iBounds
  if isConv f y && decideTrue (E.eLeq x (eZint lower)) then .ok eTrue
  else if isConv f x && decideTrue (E.eLeq (eZint upper) y) then .ok eTrue
  else .error .notFound

def simplifyPIsBounds (iota : CInt) (e : Term ADT Field Fun) : Res (Term ADT Field Fun) :=
  let bounds := iota.iBounds
  match isTrue (E.eAnd [E.eLeq (eZint bounds.1) e,E.eLeq e (eZint bounds.2)]) with
  | some true => .ok eTrue
  | some false => .ok eFalse
  | none => .error .notFound

def simplifyIsInt (f : Fun) (iota : CInt) : List (Term ADT Field Fun) → Res (Term ADT Field Fun)
  | [e] =>
    match e with
    | .node (.kint k) _ => .ok (if iota.iBounds.1 ≤ k ∧ k ≤ iota.iBounds.2 then eTrue else eFalse)
    | .node (.func g) es =>
      if g = S.lor ∧ !iota.signed then .ok (E.eAnd (es.map fun e' => E.eFun f [e'])) else simplifyPIsBounds E iota e
    | _ => simplifyPIsBounds E iota e
  | _ => .error .notFound

end Rules

section Numbers
namespace CInt

theorem iBits_pos (i : CInt) : 1 ≤ i.iBits := by cases i <;> decide

theorem iBits_le (i : CInt) : i.iBits ≤ 1024 := by cases i <;> decide

theorem iBounds_eq (i : CInt) : i.iBounds = (Ival.typeMin i.iBits i.signed,Ival.typeMax i.iBits i.signed) := by
  unfold iBounds Ival.typeMin Ival.typeMax
  cases i.signed <;> rfl

theorem inRange_iff (i : CInt) (x : ℤ) : i.inRange x = true ↔ i.iBounds.1 ≤ x ∧ x ≤ i.iBounds.2 := by
  rw [inRange,decide_eq_true_eq]

theorem wrap_inRange (i : CInt) (x : ℤ) : i.inRange (i.wrap x) = true := by
  rw [inRange_iff,wrap]
  split
  · next h =>
    subst h
    split <;> decide
  · rw [iBounds_eq]
    exact Ival.wrap_range i.iBits_pos _ _

theorem wrap_of_ne {i : CInt} (h : i ≠ .cBool) (x : ℤ) : i.wrap x = Ival.wrap i.iBits i.signed x := if_neg h

theorem wrap_of_inRange {i : CInt} (hi : i ≠ .cBool) {x : ℤ} (h : i.inRange x = true) : i.wrap x = x := by
  rw [inRange_iff,iBounds_eq] at h
  rw [wrap_of_ne hi,Ival.wrap_of_range i.iBits_pos h]

theorem wrap_eq_of_emod {i : CInt} (hi : i ≠ .cBool) {x y : ℤ} (h : x % 2 ^ i.iBits.toNat = y % 2 ^ i.iBits.toNat) :
    i.wrap x = i.wrap y := by
  rw [wrap_of_ne hi,wrap_of_ne hi,Ival.wrap,Ival.wrap,Int.sub_emod,h,← Int.sub_emod]

theorem wrap_emod {i j : CInt} (hj : j ≠ .cBool) (h : i.iBits ≤ j.iBits) (x : ℤ) :
    j.wrap x % 2 ^ i.iBits.toNat = x % 2 ^ i.iBits.toNat := by
  rw [wrap_of_ne hj]
  exact Ival.wrap_emod (pow_dvd_pow 2 (by omega))

theorem iBounds_unsigned {i : CInt} (hs : i.signed = false) : i.iBounds = (0,2 ^ i.iBits.toNat - 1) := by
  simp [iBounds,hs]

theorem wrap_unsigned {i : CInt} (hi : i ≠ .cBool) (hs : i.signed = false) (x : ℤ) : i.wrap x = x % 2 ^ i.iBits.toNat := by
  rw [wrap_of_ne hi,hs]
  simp [Ival.wrap,Ival.typeMin]

theorem inRange_mono {i j : CInt} (h : j.iBits < i.iBits) (hs : i.signed = true ∨ j.signed = false) {x : ℤ}
    (hx : j.inRange x = true) : i.inRange x = true := by
  rw [inRange_iff] at hx ⊢
  revert h hs hx
  cases i <;> cases j <;> simp only [iBounds,iBits,signed] <;> intro h hs hx <;> simp at h hs hx ⊢ <;> omega

end CInt

theorem testBit_wrap {i : CInt} (hi : i ≠ .cBool) (hs : i.signed = false) (x : ℤ) (k : ℕ) :
    (i.wrap x).testBit k = (decide (k < i.iBits.toNat) && x.testBit k) := by
  rw [CInt.wrap_unsigned hi hs,testBit_emod_two_pow]

theorem wrap_eq_land {i : CInt} (hi : i ≠ .cBool) (hs : i.signed = false) (x : ℤ) :
    i.wrap x = Int.land i.iBounds.2 x := by
  rw [CInt.wrap_unsigned hi hs,CInt.iBounds_unsigned hs,land_comm,land_two_pow_sub_one]

theorem wrap_lorAll {i : CInt} (hi : i ≠ .cBool) (hs : i.signed = false) (xs : List ℤ) :
    i.wrap (lorAll xs) = lorAll (xs.map i.wrap) := by
  refine eq_of_testBit fun k => ?_
  rw [testBit_wrap hi hs,lorAll_testBit,lorAll_testBit,List.any_map]
  induction xs with
  | nil => simp
  | cons x xs ih =>
    rw [List.any_cons,List.any_cons,← ih,Bool.and_or_distrib_left]
    simp [testBit_wrap hi hs]

theorem wrap_lnot_wrap {i : CInt} (hi : i ≠ .cBool) (hs : i.signed = false) (x : ℤ) :
    i.wrap (Int.lnot (i.wrap x)) = i.wrap (Int.lnot x) := by
  refine eq_of_testBit fun k => ?_
  rw [testBit_wrap hi hs,testBit_wrap hi hs,Int.testBit_lnot,Int.testBit_lnot,testBit_wrap hi hs]
  cases hk : decide (k < i.iBits.toNat) <;> rfl

theorem mem_unsigned_range {i : CInt} (hs : i.signed = false) {x : ℤ} :
    i.inRange x = true ↔ ∀ k, i.iBits.toNat ≤ k → x.testBit k = false := by
  have hpos : (0 : ℤ) < 2 ^ i.iBits.toNat := by positivity
  rw [CInt.inRange_iff,CInt.iBounds_unsigned hs]
  simp only
  constructor
  · rintro ⟨h0,hlt⟩ k hk
    have hf : Fits i.iBits.toNat x := ⟨by omega,by omega⟩
    rw [hf.testBit hk]
    simpa using h0
  · intro h
    have hx : x % 2 ^ i.iBits.toNat = x := by
      refine eq_of_testBit fun k => ?_
      rw [testBit_emod_two_pow]
      by_cases hk : k < i.iBits.toNat
      · simp [hk]
      · simp [hk,h k (by omega)]
    have h0 := Int.emod_nonneg x hpos.ne'
    have hlt := Int.emod_lt_of_pos x hpos
    omega

theorem inRange_lorAll {i : CInt} (hs : i.signed = false) (xs : List ℤ) : i.inRange (lorAll xs) = xs.all i.inRange := by
  rw [Bool.eq_iff_iff,mem_unsigned_range hs,List.all_eq_true]
  simp only [lorAll_testBit,mem_unsigned_range hs,List.any_eq_false,Bool.not_eq_true]
  tauto

end Numbers

section Soundness
variable [DecidableEq Fun] [FunSymbol Fun] {S : Symbols Fun} {E : Build ADT Field Fun} {I : Interp ADT Field Fun}

/-- The conversions wrap and the predicates test the range. -/
structure Interp.Machine (S : Symbols Fun) (I : Interp ADT Field Fun) : Prop where
  toInt : ∀ i vs, I.atom (.func (S.fToInt i)) vs = onInts (unary fun x => .int (i.wrap x)) vs
  isInt : ∀ i vs, I.atom (.func (S.pIsInt i)) vs = onInts (unary fun x => .prop (i.inRange x)) vs

theorem func_atom {S : Cbits Fun} {f : Fun} (hf : f ∉ [S.lnot,S.lor,S.land,S.lxor,S.lsl,S.lsr,S.bitPositive])
    (ts : List (Term ADT Field Fun)) : I.value S (.node (.func f) ts) = I.atom (.func f) (ts.map (I.value S)) := by
  simp only [List.mem_cons,not_or,List.not_mem_nil,not_false_eq_true,and_true] at hf
  obtain ⟨h1,h2,h3,h4,h5,h6,h7⟩ := hf
  rw [value_node,Interp.node,Interp.func,if_neg h1,if_neg h2,if_neg h3,if_neg h4,if_neg h5,if_neg h6,if_neg h7]

theorem value_fToInt (hM : I.Machine S) {i : CInt} {ts : List (Term ADT Field Fun)} {z : ℤ} :
    I.value S.toCbits (.node (.func (S.fToInt i)) ts) = .int z ↔ ∃ x, I.Ints S.toCbits ts [x] ∧ z = i.wrap x := by
  rw [func_atom (S.fToInt_ne i),hM.toInt]
  exact onInts_unary_eq

theorem value_pIsInt (hM : I.Machine S) {i : CInt} {ts : List (Term ADT Field Fun)} {p : Bool} :
    I.value S.toCbits (.node (.func (S.pIsInt i)) ts) = .prop p ↔ ∃ x, I.Ints S.toCbits ts [x] ∧ p = i.inRange x := by
  rw [func_atom (S.pIsInt_ne i),hM.isInt,onInts_eq_int (by simp)]
  constructor
  · rintro ⟨xs,hxs,h⟩
    obtain ⟨x,rfl,h⟩ := (unary_eq (by simp)).mp h
    exact ⟨x,hxs,(Value.prop.inj h).symm⟩
  · rintro ⟨x,hx,rfl⟩
    exact ⟨[x],hx,rfl⟩

theorem ints_singleton {t : Term ADT Field Fun} {x : ℤ} (h : I.value S.toCbits t = .int x) : I.Ints S.toCbits [t] [x] :=
  .cons h .nil

theorem value_conversion (hE : E.Sound S.toCbits I) (hM : I.Machine S) (i : CInt) {t : Term ADT Field Fun} {x : ℤ}
    (h : I.value S.toCbits t = .int x) : I.value S.toCbits (E.eFun (S.fToInt i) [t]) = .int (i.wrap x) :=
  hE.func_int ((value_fToInt hM).mpr ⟨x,ints_singleton h,rfl⟩)

theorem toCint_ok {f : Fun} {i : CInt} (h : toCint S f = .ok i) : S.fToInt i = f := by
  unfold toCint at h
  split at h
  · next j hj =>
    obtain rfl := Except.ok.inj h
    simpa using List.find?_some hj
  · cases h

theorem leq_of_decide (hE : E.Sound S.toCbits I) {a b : Term ADT Field Fun} {x y : ℤ} (ha : I.value S.toCbits a = .int x)
    (hb : I.value S.toCbits b = .int y) (h : decideTrue (E.eLeq a b) = true) : x ≤ y := by
  have hv := value_of_isTrue (S := S.toCbits) (I := I) (of_decide_eq_true h)
  rw [hE.leq ha hb] at hv
  simpa using hv

theorem simplifyFToBounds_ok (hE : E.Sound S.toCbits I) {i : CInt} {e r : Term ADT Field Fun} {x : ℤ}
    (he : I.value S.toCbits e = .int x) (h : simplifyFToBounds E i e = .ok r) : r = e ∧ i.inRange x = true := by
  simp only [simplifyFToBounds] at h
  split at h
  · next hb =>
    rw [Bool.and_eq_true] at hb
    exact ⟨(Except.ok.inj h).symm,i.inRange_iff x |>.mpr
      ⟨leq_of_decide hE (value_eZint ..) he hb.2,leq_of_decide hE he (value_eZint ..) hb.1⟩⟩
  · cases h

theorem simplifyRangeComp_sound (hE : E.Sound S.toCbits I) (hM : I.Machine S) {i : CInt} (hi : i ≠ .cBool)
    {conv : Fun} {e' r : Term ADT Field Fun} {x : ℤ} (he : I.value S.toCbits (.node (.func conv) [e']) = .int x)
    (h : simplifyRangeComp S E (S.fToInt i) i (.node (.func conv) [e']) conv e' = .ok r) :
    I.value S.toCbits r = .int (i.wrap x) := by
  simp only [simplifyRangeComp,bind_ok] at h
  obtain ⟨j,hj,h⟩ := h
  obtain rfl := toCint_ok hj
  obtain ⟨y,hy,hxy⟩ := (value_fToInt hM).mp he
  split at h
  · next hle =>
    obtain rfl := Except.ok.inj h
    -- only the type of one bit is not above another type, and its conversion is not modular
    have hjb : j ≠ .cBool := by
      rintro rfl
      revert hle hi
      cases i <;> simp [CInt.iBits]
    rw [hxy,CInt.wrap_eq_of_emod hi (CInt.wrap_emod hjb hle y)]
    exact value_conversion hE hM i (List.forall₂_cons.mp hy).1
  · next hlt =>
    split at h
    · next hs =>
      obtain rfl := Except.ok.inj h
      rw [he,CInt.wrap_of_inRange hi]
      refine CInt.inRange_mono (j := j) (by omega) (by simpa using hs) ?_
      rw [hxy]
      exact j.wrap_inRange y
    · cases h

theorem simplifyNot_sound (hE : E.Sound S.toCbits I) (hM : I.Machine S) {i : CInt} (hi : i ≠ .cBool)
    (hs : i.signed = false) {e r : Term ADT Field Fun} {x : ℤ} (he : I.value S.toCbits e = .int x)
    (h : simplifyNot S E (S.fToInt i) e = .ok r) : I.value S.toCbits r = .int (i.wrap (Int.lnot x)) := by
  unfold simplifyNot at h
  split at h
  · next f' w =>
    split at h
    · next hf =>
      subst hf
      obtain rfl := Except.ok.inj h
      obtain ⟨y,hy,hxy⟩ := (value_fToInt hM).mp he
      rw [hxy,wrap_lnot_wrap hi hs]
      exact value_conversion hE hM i (hE.func_int (value_lnot.mpr ⟨y,hy,rfl⟩))
    · cases h
  · cases h

theorem ints_conversions (hE : E.Sound S.toCbits I) (hM : I.Machine S) (i : CInt) {es : List (Term ADT Field Fun)}
    {xs : List ℤ} (h : I.Ints S.toCbits es xs) :
    I.Ints S.toCbits (es.map fun e => E.eFun (S.fToInt i) [e]) (xs.map i.wrap) := by
  induction h with
  | nil => exact .nil
  | cons he _ ih => exact .cons (value_conversion hE hM i he) ih

theorem simplifyRange_sound (hE : E.Sound S.toCbits I) (hM : I.Machine S) {i : CInt} (hi : i ≠ .cBool)
    {e r : Term ADT Field Fun} {x : ℤ} (he : I.value S.toCbits e = .int x)
    (h : simplifyRange S E (S.fToInt i) i e = .ok r) : I.value S.toCbits r = .int (i.wrap x) := by
  simp only [simplifyRange,handle_ok] at h
  rcases h with h | ⟨_,h⟩
  · split at h
    · next value ts =>
      rw [value_kint] at he
      obtain rfl := Value.int.inj he
      rw [Ival.cast_eq_wrap i.iBits_pos i.iBits_le,← CInt.wrap_of_ne hi] at h
      obtain rfl := Except.ok.inj h
      exact value_eZint ..
    · next g es =>
      split at h
      · next hg =>
        obtain ⟨rfl,hs,_⟩ := hg
        obtain rfl := Except.ok.inj h
        obtain ⟨xs,hxs,rfl⟩ := value_land.mp he
        rw [wrap_eq_land hi (by simpa using hs)]
        exact hE.func_int (value_land.mpr ⟨_ :: xs,.cons (value_eZint ..) hxs,rfl⟩)
      split at h
      · next hg =>
        obtain ⟨rfl,hs⟩ := hg
        obtain rfl := Except.ok.inj h
        obtain ⟨xs,hxs,rfl⟩ := value_lor.mp he
        rw [wrap_lorAll hi (by simpa using hs)]
        exact hE.func_int (value_lor.mpr ⟨_,ints_conversions hE hM i hxs,rfl⟩)
      split at h
      · next e' =>
        split at h
        · next hg =>
          obtain ⟨rfl,hs⟩ := hg
          obtain ⟨y,hy,rfl⟩ := value_lnot.mp he
          exact simplifyNot_sound hE hM hi (by simpa using hs) (List.forall₂_cons.mp hy).1 h
        · exact simplifyRangeComp_sound hE hM hi he h
      · cases h
    · cases h
  · obtain ⟨rfl,hx⟩ := simplifyFToBounds_ok hE he h
    rw [he,CInt.wrap_of_inRange hi hx]

theorem simplifyConv_sound (hE : E.Sound S.toCbits I) (hM : I.Machine S) {i : CInt} {e r : Term ADT Field Fun}
    (h : simplifyConv S E (S.fToInt i) i e = .ok r) : I.Keeps S.toCbits (.node (.func (S.fToInt i)) [e]) r := by
  intro z hz
  obtain ⟨x,hx,rfl⟩ := (value_fToInt hM).mp hz
  have he := (List.forall₂_cons.mp hx).1
  unfold simplifyConv at h
  split at h
  · next hi =>
    subst hi
    have hzero := hE.eq_int he (value_eZero S.toCbits I)
    split at h
    · next ht =>
      obtain rfl := Except.ok.inj h
      have hx0 : x = 0 := by simpa using (value_of_isTrue ht).symm.trans hzero
      simp [CInt.wrap,hx0]
    · next ht =>
      obtain rfl := Except.ok.inj h
      have hx0 : x ≠ 0 := by simpa using (value_of_isTrue ht).symm.trans hzero
      simp [CInt.wrap,hx0]
    · cases h
  · next hi => exact simplifyRange_sound hE hM hi he h

theorem isConv_value (hM : I.Machine S) {i : CInt} {t : Term ADT Field Fun} {z : ℤ} (h : isConv (S.fToInt i) t = true)
    (ht : I.value S.toCbits t = .int z) : i.inRange z = true := by
  unfold isConv at h
  split at h
  · rw [of_decide_eq_true h] at ht
    obtain ⟨x,_,rfl⟩ := (value_fToInt hM).mp ht
    exact i.wrap_inRange x
  · cases h

theorem simplifyLeq_sound (hE : E.Sound S.toCbits I) (hM : I.Machine S) {i : CInt} {a b r : Term ADT Field Fun} {x y : ℤ}
    (ha : I.value S.toCbits a = .int x) (hb : I.value S.toCbits b = .int y)
    (h : simplifyLeq E (S.fToInt i) i a b = .ok r) : I.value S.toCbits r = .prop (x ≤ y) := by
  simp only [simplifyLeq] at h
  split at h
  · next hc =>
    obtain rfl := Except.ok.inj h
    rw [Bool.and_eq_true] at hc
    have hy := (i.inRange_iff y).mp (isConv_value hM hc.1 hb)
    have hx := leq_of_decide hE ha (value_eZint ..) hc.2
    rw [value_eTrue,decide_eq_true (show x ≤ y by omega)]
  split at h
  · next hc =>
    obtain rfl := Except.ok.inj h
    rw [Bool.and_eq_true] at hc
    have hx := (i.inRange_iff x).mp (isConv_value hM hc.1 ha)
    have hy := leq_of_decide hE (value_eZint ..) hb hc.2
    rw [value_eTrue,decide_eq_true (show x ≤ y by omega)]
  · cases h

theorem simplifyPIsBounds_sound (hE : E.Sound S.toCbits I) {i : CInt} {e r : Term ADT Field Fun} {x : ℤ}
    (he : I.value S.toCbits e = .int x) (h : simplifyPIsBounds E i e = .ok r) :
    I.value S.toCbits r = .prop (i.inRange x) := by
  have hv := hE.and (.cons (hE.leq (value_eZint S.toCbits I i.iBounds.1) he)
    (.cons (hE.leq he (value_eZint S.toCbits I i.iBounds.2)) .nil))
  have hr : [decide (i.iBounds.1 ≤ x),decide (x ≤ i.iBounds.2)].all id = i.inRange x := by simp [CInt.inRange]
  rw [hr] at hv
  simp only [simplifyPIsBounds] at h
  split at h
  · next ht =>
    obtain rfl := Except.ok.inj h
    rw [value_eTrue,← hv,value_of_isTrue ht]
  · next ht =>
    obtain rfl := Except.ok.inj h
    rw [value_eFalse,← hv,value_of_isTrue ht]
  · cases h

theorem props_predicates (hE : E.Sound S.toCbits I) (hM : I.Machine S) (i : CInt) {es : List (Term ADT Field Fun)}
    {xs : List ℤ} (h : I.Ints S.toCbits es xs) :
    List.Forall₂ (fun t b => I.value S.toCbits t = .prop b) (es.map fun e => E.eFun (S.pIsInt i) [e])
      (xs.map i.inRange) := by
  induction h with
  | nil => exact .nil
  | @cons e x _ _ he _ ih =>
    have hv : I.value S.toCbits (.node (.func (S.pIsInt i)) [e]) = .prop (i.inRange x) :=
      (value_pIsInt hM).mpr ⟨x,ints_singleton he,rfl⟩
    exact .cons (by rw [hE.func _ _ (by simp [hv]),hv]) ih

theorem simplifyIsInt_sound (hE : E.Sound S.toCbits I) (hM : I.Machine S) {i : CInt} {es : List (Term ADT Field Fun)}
    {r : Term ADT Field Fun} {p : Bool} (hp : I.value S.toCbits (.node (.func (S.pIsInt i)) es) = .prop p)
    (h : simplifyIsInt S E (S.pIsInt i) i es = .ok r) : I.value S.toCbits r = .prop p := by
  obtain ⟨x,hx,rfl⟩ := (value_pIsInt hM).mp hp
  unfold simplifyIsInt at h
  split at h
  · next e =>
    have he := (List.forall₂_cons.mp hx).1
    split at h
    · next k ts =>
      obtain rfl := Except.ok.inj h
      rw [value_kint] at he
      obtain rfl := Value.int.inj he
      rw [CInt.inRange]
      split
      · next hk => rw [value_eTrue,decide_eq_true hk]
      · next hk => rw [value_eFalse,decide_eq_false hk]
    · next g es =>
      split at h
      · next hg =>
        obtain ⟨rfl,hs⟩ := hg
        obtain rfl := Except.ok.inj h
        obtain ⟨xs,hxs,rfl⟩ := value_lor.mp he
        rw [inRange_lorAll (by simpa using hs)]
        rw [hE.and (props_predicates hE hM i hxs),List.all_map]
        rfl
      · exact simplifyPIsBounds_sound hE he h
    · exact simplifyPIsBounds_sound hE he h
  · cases h

end Soundness

section Examples

inductive MachineSymbol
  | bits (s : Symbol)
  | toInt (i : CInt)
  | isInt (i : CInt)
  deriving DecidableEq, Ord

instance machineFunSymbol : FunSymbol MachineSymbol where
  category
    | .bits .lor => .operator opLor
    | .bits .land => .operator opLand
    | .bits .lxor => .operator opLxor
    | _ => .function
  sort
    | .bits .bitPositive => .prop
    | .isInt _ => .prop
    | _ => .int

def machine : Symbols MachineSymbol where
  lnot := .bits .lnot
  lor := .bits .lor
  land := .bits .land
  lxor := .bits .lxor
  lsl := .bits .lsl
  lsr := .bits .lsr
  bitPositive := .bits .bitPositive
  nodup := by decide
  category_lor := rfl
  category_land := rfl
  category_lxor := rfl
  fToInt := .toInt
  pIsInt := .isInt
  fToInt_injective _ _ h := MachineSymbol.toInt.inj h
  fToInt_ne _ := by simp
  pIsInt_ne _ := by simp

/-- The values of the variables by their rank, and of the conversions. -/
def Interp.ofConversions (ρ : ℤ → ℤ) : Interp Empty Empty MachineSymbol where
  atom
    | .fvar x, _ => .int (ρ x.vid)
    | .func (.toInt i), vs => onInts (unary fun x => .int (i.wrap x)) vs
    | .func (.isInt i), vs => onInts (unary fun x => .prop (i.inRange x)) vs
    | _, _ => .other
  lsl x _ := x
  lsr x _ := x
  bitTest _ _ := false

theorem ofConversions_machine (ρ : ℤ → ℤ) : (Interp.ofConversions ρ).Machine machine where
  toInt _ _ := rfl
  isInt _ _ := rfl

def machineVariable (k : ℤ) : Term Empty Empty MachineSymbol := .node (.fvar ⟨k,"x",k,.node .int []⟩) []

def convertVariable (i : CInt) (k : ℤ) : Term Empty Empty MachineSymbol := .node (.func (.toInt i)) [machineVariable k]

end Examples
end FramaC.Cint
