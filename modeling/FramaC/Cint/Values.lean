import FramaC.Cint.Terms
import FramaC.Lib.Bits

/-! # Values of bitwise terms

The operations are those of two's complement integers without bound. A shift by a negative amount is any integer.
-/
set_option linter.unusedSectionVars false
namespace FramaC.Cint
open Qed Integer Bits
variable {ADT Field Fun : Type}

inductive Value
  | int (z : ℤ)
  | prop (b : Bool)
  | other
  deriving DecidableEq

variable (ADT Field Fun) in
/-- The values of the variables and of the other constructors, and what is left open: the results of shifts by a negative
amount, and the tests of bits at a negative position. -/
structure Interp where
  atom : Repr ADT Field Fun → List Value → Value
  lsl : ℤ → ℤ → ℤ
  lsr : ℤ → ℤ → ℤ
  bitTest : ℤ → ℤ → Bool

@[grind =] def ints : List Value → Option (List ℤ)
  | [] => some []
  | .int x :: vs => (ints vs).map (x :: ·)
  | _ :: _ => none

@[grind =] def props : List Value → Option (List Bool)
  | [] => some []
  | .prop b :: vs => (props vs).map (b :: ·)
  | _ :: _ => none

def onInts (f : List ℤ → Value) (vs : List Value) : Value :=
  match ints vs with
  | some xs => f xs
  | none => .other

def onProps (f : List Bool → Bool) (vs : List Value) : Value :=
  match props vs with
  | some bs => .prop (f bs)
  | none => .other

def landAll (xs : List ℤ) : ℤ := xs.foldr Int.land (-1)
def lorAll (xs : List ℤ) : ℤ := xs.foldr Int.lor 0
def lxorAll (xs : List ℤ) : ℤ := xs.foldr Int.xor 0

section Interpretation
variable [DecidableEq Fun] [FunSymbol Fun] (S : Cbits Fun) (I : Interp ADT Field Fun)

def Interp.shl (x n : ℤ) : ℤ := if 0 ≤ n then x * 2 ^ n.toNat else I.lsl x n
def Interp.shr (x n : ℤ) : ℤ := if 0 ≤ n then x / 2 ^ n.toNat else I.lsr x n
def Interp.bit (x k : ℤ) : Bool := if 0 ≤ k then x.testBit k.toNat else I.bitTest x k

def unary (f : ℤ → Value) : List ℤ → Value
  | [x] => f x
  | _ => .other

def binary (f : ℤ → ℤ → Value) : List ℤ → Value
  | [x,y] => f x y
  | _ => .other

def Interp.func (f : Fun) (vs : List Value) : Value :=
  if f = S.lnot then onInts (unary fun x => .int (Int.lnot x)) vs
  else if f = S.lor then onInts (fun xs => .int (lorAll xs)) vs
  else if f = S.land then onInts (fun xs => .int (landAll xs)) vs
  else if f = S.lxor then onInts (fun xs => .int (lxorAll xs)) vs
  else if f = S.lsl then onInts (binary fun x n => .int (I.shl x n)) vs
  else if f = S.lsr then onInts (binary fun x n => .int (I.shr x n)) vs
  else if f = S.bitPositive then onInts (binary fun x k => .prop (I.bit x k)) vs
  else I.atom (.func f) vs

def sum : List ℤ → Value
  | [] => .other
  | x :: xs => .int (x :: xs).sum

def eqValue : List Value → Value
  | [.int x,.int y] => .prop (x = y)
  | [.prop p,.prop q] => .prop (p == q)
  | _ => .other

@[grind =] def Interp.node : Repr ADT Field Fun → List Value → Value
  | .true, _ => .prop true
  | .false, _ => .prop false
  | .kint z, _ => .int z
  | .add, vs => onInts sum vs
  | .eq, vs => eqValue vs
  | .leq, vs => onInts (binary fun x y => .prop (x ≤ y)) vs
  | .lt, vs => onInts (binary fun x y => .prop (x < y)) vs
  | .and, vs => onProps (·.all id) vs
  | .not, vs => onProps (fun bs => !bs.headD true) vs
  | .func f, vs => I.func S f vs
  | r, vs => I.atom r vs

def Interp.value : Term ADT Field Fun → Value := Rose.fold (I.node S)

theorem value_node (r : Repr ADT Field Fun) (ts : List (Term ADT Field Fun)) :
    I.value S (.node r ts) = I.node S r (ts.map (I.value S)) := Rose.fold_node ..

@[simp] theorem value_eZint (z : ℤ) : I.value S (eZint z) = .int z := value_node ..

@[simp] theorem value_eZero : I.value S eZero = .int 0 := value_node ..
@[simp] theorem value_eMinusOne : I.value S eMinusOne = .int (-1) := value_node ..

@[simp] theorem value_kint (z : ℤ) (ts : List (Term ADT Field Fun)) : I.value S (.node (.kint z) ts) = .int z := value_node ..

@[simp] theorem value_eTrue : I.value S eTrue = .prop true := value_node ..
@[simp] theorem value_eFalse : I.value S eFalse = .prop false := value_node ..

def Interp.Ints (ts : List (Term ADT Field Fun)) (xs : List ℤ) : Prop := List.Forall₂ (fun t x => I.value S t = .int x) ts xs

variable {S I}

theorem ints_eq_some {vs : List Value} {xs : List ℤ} : ints vs = some xs ↔ vs = xs.map .int := by
  induction vs generalizing xs with
  | nil => cases xs <;> simp [ints]
  | cons v vs ih => cases v <;> cases xs <;> simp [ints,ih,and_comm]

theorem props_eq_some {vs : List Value} {bs : List Bool} : props vs = some bs ↔ vs = bs.map .prop := by
  induction vs generalizing bs with
  | nil => cases bs <;> simp [props]
  | cons v vs ih => cases v <;> cases bs <;> simp [props,ih,and_comm]

section Valuations
variable {v : Term ADT Field Fun → Value}

theorem map_eq_ints {ts : List (Term ADT Field Fun)} {xs : List ℤ} :
    ts.map v = xs.map .int ↔ List.Forall₂ (fun t x => v t = .int x) ts xs := by
  induction ts generalizing xs with
  | nil => cases xs <;> simp
  | cons t ts ih => cases xs <;> simp [ih]

theorem onInts_eq_int {f : List ℤ → Value} {ts : List (Term ADT Field Fun)} {w : Value} (hw : w ≠ .other) :
    onInts f (ts.map v) = w ↔ ∃ xs, List.Forall₂ (fun t x => v t = .int x) ts xs ∧ f xs = w := by
  unfold onInts
  constructor
  · intro h
    cases hxs : ints (ts.map v) with
    | none =>
      rw [hxs] at h
      exact absurd h.symm hw
    | some xs =>
      rw [hxs] at h
      exact ⟨xs,(map_eq_ints).mp (ints_eq_some.mp hxs),h⟩
  · rintro ⟨xs,hxs,h⟩
    rw [(ints_eq_some).mpr (map_eq_ints.mpr hxs)]
    exact h

theorem unary_eq {f : ℤ → Value} {xs : List ℤ} {w : Value} (hw : w ≠ .other) :
    unary f xs = w ↔ ∃ x, xs = [x] ∧ f x = w := by
  match xs with
  | [] => simp [unary,hw.symm]
  | [x] => simp [unary]
  | x :: y :: xs => simp [unary,hw.symm]

theorem binary_eq {f : ℤ → ℤ → Value} {xs : List ℤ} {w : Value} (hw : w ≠ .other) :
    binary f xs = w ↔ ∃ x y, xs = [x,y] ∧ f x y = w := by
  match xs with
  | [] => simp [binary,hw.symm]
  | [x] => simp [binary,hw.symm]
  | [x,y] => simp [binary]
  | x :: y :: z :: xs => simp [binary,hw.symm]

theorem onInts_unary_eq {f : ℤ → ℤ} {ts : List (Term ADT Field Fun)} {z : ℤ} :
    onInts (unary fun x => .int (f x)) (ts.map v) = .int z ↔
      ∃ x, List.Forall₂ (fun t x => v t = .int x) ts [x] ∧ z = f x := by
  rw [onInts_eq_int (by simp)]
  constructor
  · rintro ⟨xs,hxs,h⟩
    obtain ⟨x,rfl,h⟩ := (unary_eq (by simp)).mp h
    exact ⟨x,hxs,(Value.int.inj h).symm⟩
  · rintro ⟨x,hx,rfl⟩
    exact ⟨[x],hx,rfl⟩

theorem onInts_binary_eq {f : ℤ → ℤ → ℤ} {ts : List (Term ADT Field Fun)} {z : ℤ} :
    onInts (binary fun x y => .int (f x y)) (ts.map v) = .int z ↔
      ∃ x y, List.Forall₂ (fun t x => v t = .int x) ts [x,y] ∧ z = f x y := by
  rw [onInts_eq_int (by simp)]
  constructor
  · rintro ⟨xs,hxs,h⟩
    obtain ⟨x,y,rfl,h⟩ := (binary_eq (by simp)).mp h
    exact ⟨x,y,hxs,(Value.int.inj h).symm⟩
  · rintro ⟨x,y,hxy,rfl⟩
    exact ⟨[x,y],hxy,rfl⟩

theorem onInts_list_eq {f : List ℤ → ℤ} {ts : List (Term ADT Field Fun)} {z : ℤ} :
    onInts (fun xs => .int (f xs)) (ts.map v) = .int z ↔
      ∃ xs, List.Forall₂ (fun t x => v t = .int x) ts xs ∧ z = f xs := by
  rw [onInts_eq_int (by simp)]
  simp [eq_comm]

theorem onInts_sum_eq {ts : List (Term ADT Field Fun)} {z : ℤ} : onInts sum (ts.map v) = .int z ↔
    ∃ xs, List.Forall₂ (fun t x => v t = .int x) ts xs ∧ xs ≠ [] ∧ z = xs.sum := by
  rw [onInts_eq_int (by simp)]
  constructor
  · rintro ⟨xs,hxs,h⟩
    cases xs with
    | nil => cases h
    | cons x xs => exact ⟨x :: xs,hxs,by simp,(Value.int.inj h).symm⟩
  · rintro ⟨xs,hxs,hne,rfl⟩
    cases xs with
    | nil => exact absurd rfl hne
    | cons x xs => exact ⟨x :: xs,hxs,rfl⟩

end Valuations

end Interpretation

section Applications
variable [DecidableEq Fun] [FunSymbol Fun] {S : Cbits Fun} {I : Interp ADT Field Fun}

theorem Cbits.ne (S : Cbits Fun) : S.lor ≠ S.lnot ∧ S.land ≠ S.lnot ∧ S.land ≠ S.lor ∧ S.lxor ≠ S.lnot ∧ S.lxor ≠ S.lor ∧
    S.lxor ≠ S.land ∧ S.lsl ≠ S.lnot ∧ S.lsl ≠ S.lor ∧ S.lsl ≠ S.land ∧ S.lsl ≠ S.lxor ∧ S.lsr ≠ S.lnot ∧
    S.lsr ≠ S.lor ∧ S.lsr ≠ S.land ∧ S.lsr ≠ S.lxor ∧ S.lsr ≠ S.lsl ∧ S.bitPositive ≠ S.lnot ∧ S.bitPositive ≠ S.lor ∧
    S.bitPositive ≠ S.land ∧ S.bitPositive ≠ S.lxor ∧ S.bitPositive ≠ S.lsl ∧ S.bitPositive ≠ S.lsr := by
  have h := S.nodup
  simp only [List.nodup_cons,List.mem_cons,not_or,List.not_mem_nil,not_false_eq_true,List.nodup_nil,and_true] at h
  tauto

section Functions
variable (S I) (vs : List Value)

theorem func_lnot : I.func S S.lnot vs = onInts (unary fun x => .int (Int.lnot x)) vs := if_pos rfl

theorem func_lor : I.func S S.lor vs = onInts (fun xs => .int (lorAll xs)) vs := by
  obtain ⟨h1,_⟩ := S.ne
  rw [Interp.func,if_neg h1,if_pos rfl]

theorem func_land : I.func S S.land vs = onInts (fun xs => .int (landAll xs)) vs := by
  obtain ⟨_,h1,h2,_⟩ := S.ne
  rw [Interp.func,if_neg h1,if_neg h2,if_pos rfl]

theorem func_lxor : I.func S S.lxor vs = onInts (fun xs => .int (lxorAll xs)) vs := by
  obtain ⟨_,_,_,h1,h2,h3,_⟩ := S.ne
  rw [Interp.func,if_neg h1,if_neg h2,if_neg h3,if_pos rfl]

theorem func_lsl : I.func S S.lsl vs = onInts (binary fun x n => .int (I.shl x n)) vs := by
  obtain ⟨_,_,_,_,_,_,h1,h2,h3,h4,_⟩ := S.ne
  rw [Interp.func,if_neg h1,if_neg h2,if_neg h3,if_neg h4,if_pos rfl]

theorem func_lsr : I.func S S.lsr vs = onInts (binary fun x n => .int (I.shr x n)) vs := by
  obtain ⟨_,_,_,_,_,_,_,_,_,_,h1,h2,h3,h4,h5,_⟩ := S.ne
  rw [Interp.func,if_neg h1,if_neg h2,if_neg h3,if_neg h4,if_neg h5,if_pos rfl]

end Functions

theorem value_lnot {ts : List (Term ADT Field Fun)} {z : ℤ} :
    I.value S (.node (.func S.lnot) ts) = .int z ↔ ∃ x, I.Ints S ts [x] ∧ z = Int.lnot x := by
  rw [value_node,Interp.node,func_lnot]
  exact onInts_unary_eq

theorem value_lor {ts : List (Term ADT Field Fun)} {z : ℤ} :
    I.value S (.node (.func S.lor) ts) = .int z ↔ ∃ xs, I.Ints S ts xs ∧ z = lorAll xs := by
  rw [value_node,Interp.node,func_lor]
  exact onInts_list_eq

theorem value_land {ts : List (Term ADT Field Fun)} {z : ℤ} :
    I.value S (.node (.func S.land) ts) = .int z ↔ ∃ xs, I.Ints S ts xs ∧ z = landAll xs := by
  rw [value_node,Interp.node,func_land]
  exact onInts_list_eq

theorem value_lxor {ts : List (Term ADT Field Fun)} {z : ℤ} :
    I.value S (.node (.func S.lxor) ts) = .int z ↔ ∃ xs, I.Ints S ts xs ∧ z = lxorAll xs := by
  rw [value_node,Interp.node,func_lxor]
  exact onInts_list_eq

theorem value_lsl {ts : List (Term ADT Field Fun)} {z : ℤ} :
    I.value S (.node (.func S.lsl) ts) = .int z ↔ ∃ x n, I.Ints S ts [x,n] ∧ z = I.shl x n := by
  rw [value_node,Interp.node,func_lsl]
  exact onInts_binary_eq

theorem value_lsr {ts : List (Term ADT Field Fun)} {z : ℤ} :
    I.value S (.node (.func S.lsr) ts) = .int z ↔ ∃ x n, I.Ints S ts [x,n] ∧ z = I.shr x n := by
  rw [value_node,Interp.node,func_lsr]
  exact onInts_binary_eq

theorem value_bitPositive {e k : Term ADT Field Fun} {x n : ℤ} (he : I.value S e = .int x) (hk : I.value S k = .int n) :
    I.value S (.node (.func S.bitPositive) [e,k]) = .prop (I.bit x n) := by
  obtain ⟨_,_,_,_,_,_,_,_,_,_,_,_,_,_,_,h1,h2,h3,h4,h5,h6⟩ := S.ne
  rw [value_node,Interp.node,Interp.func,if_neg h1,if_neg h2,if_neg h3,if_neg h4,if_neg h5,if_neg h6,if_pos rfl]
  simp [he,hk,onInts,ints,binary]

theorem value_add {ts : List (Term ADT Field Fun)} {z : ℤ} :
    I.value S (.node .add ts) = .int z ↔ ∃ xs, I.Ints S ts xs ∧ xs ≠ [] ∧ z = xs.sum := by
  rw [value_node,Interp.node]
  exact onInts_sum_eq

end Applications

section Constructors
variable [DecidableEq Fun] [FunSymbol Fun]

/-- The constructors make terms with the values of what they construct. -/
structure Build.Sound (E : Build ADT Field Fun) (S : Cbits Fun) (I : Interp ADT Field Fun) : Prop where
  eq_int : ∀ {a b : Term ADT Field Fun} {x y : ℤ}, I.value S a = .int x → I.value S b = .int y →
    I.value S (E.eEq a b) = .prop (x = y)
  eq_prop : ∀ {a b : Term ADT Field Fun} {p q : Bool}, I.value S a = .prop p → I.value S b = .prop q →
    I.value S (E.eEq a b) = .prop (p == q)
  leq : ∀ {a b : Term ADT Field Fun} {x y : ℤ}, I.value S a = .int x → I.value S b = .int y →
    I.value S (E.eLeq a b) = .prop (x ≤ y)
  lt : ∀ {a b : Term ADT Field Fun} {x y : ℤ}, I.value S a = .int x → I.value S b = .int y →
    I.value S (E.eLt a b) = .prop (x < y)
  add : ∀ {a b : Term ADT Field Fun} {x y : ℤ}, I.value S a = .int x → I.value S b = .int y →
    I.value S (E.eAdd a b) = .int (x + y)
  and : ∀ {ts : List (Term ADT Field Fun)} {bs : List Bool}, List.Forall₂ (fun t b => I.value S t = .prop b) ts bs →
    I.value S (E.eAnd ts) = .prop (bs.all id)
  not : ∀ {t : Term ADT Field Fun} {b : Bool}, I.value S t = .prop b → I.value S (E.eNot t) = .prop !b
  func : ∀ (f : Fun) (ts : List (Term ADT Field Fun)), I.value S (.node (.func f) ts) ≠ .other →
    I.value S (E.eFun f ts) = I.value S (.node (.func f) ts)

def compareConstants (r : Repr ADT Field Fun) (cmp : ℤ → ℤ → Bool) (a b : Term ADT Field Fun) : Term ADT Field Fun :=
  match a, b with
  | .node (.kint x) _, .node (.kint y) _ => if cmp x y then eTrue else eFalse
  | a, b => .node r [a,b]

variable (ADT Field Fun) in
/-- The constructors that simplify nothing but inequalities of constants. -/
def Build.free : Build ADT Field Fun where
  eEq a b := .node .eq [a,b]
  eLeq := compareConstants .leq fun x y => x ≤ y
  eLt := compareConstants .lt fun x y => x < y
  eAdd a b := .node .add [a,b]
  eAnd ts := .node .and ts
  eNot t := .node .not [t]
  eFun f ts := .node (.func f) ts

theorem value_compareConstants {S : Cbits Fun} {I : Interp ADT Field Fun} {r : Repr ADT Field Fun} {cmp : ℤ → ℤ → Bool}
    (hr : ∀ x y : ℤ, I.node S r [.int x,.int y] = .prop (cmp x y)) {a b : Term ADT Field Fun} {x y : ℤ}
    (ha : I.value S a = .int x) (hb : I.value S b = .int y) : I.value S (compareConstants r cmp a b) = .prop (cmp x y) := by
  unfold compareConstants
  split
  · rw [value_kint] at ha hb
    obtain rfl := Value.int.inj ha
    obtain rfl := Value.int.inj hb
    split
    · next h => simp [h]
    · next h => simp [h]
  · rw [value_node]
    simp [ha,hb,hr]

theorem Build.free_sound (S : Cbits Fun) (I : Interp ADT Field Fun) : (Build.free ADT Field Fun).Sound S I where
  eq_int ha hb := by simp [Build.free,value_node,Interp.node,ha,hb,eqValue]
  eq_prop ha hb := by simp [Build.free,value_node,Interp.node,ha,hb,eqValue]
  leq ha hb := value_compareConstants (by simp [Interp.node,onInts,ints,binary]) ha hb
  lt ha hb := value_compareConstants (by simp [Interp.node,onInts,ints,binary]) ha hb
  add ha hb := by simp [Build.free,value_node,Interp.node,ha,hb,onInts,ints,sum]
  and {ts bs} h := by
    have hmap : ts.map (I.value S) = bs.map .prop := by
      induction h with
      | nil => rfl
      | cons ht _ ih => rw [List.map_cons,List.map_cons,ht,ih]
    rw [Build.free,value_node,Interp.node,onProps,(props_eq_some).mpr hmap]
  not ht := by simp [Build.free,value_node,Interp.node,ht,onProps,props]
  func f ts _ := rfl

variable {S : Cbits Fun} {I : Interp ADT Field Fun} {E : Build ADT Field Fun}

theorem Build.Sound.func_int (hE : E.Sound S I) {f : Fun} {ts : List (Term ADT Field Fun)} {z : ℤ}
    (h : I.value S (.node (.func f) ts) = .int z) : I.value S (E.eFun f ts) = .int z := by
  rw [hE.func f ts (by simp [h]),h]

theorem value_of_isTrue {t : Term ADT Field Fun} {b : Bool} (h : isTrue t = some b) : I.value S t = .prop b := by
  obtain ⟨r,ts⟩ := t
  rw [value_node]
  cases r <;> simp_all [isTrue,Interp.node]

end Constructors

inductive Symbol
  | lnot
  | lor
  | land
  | lxor
  | lsl
  | lsr
  | bitPositive
  deriving DecidableEq, Ord

instance cbitsFunSymbol : FunSymbol Symbol where
  category
    | .lor => .operator opLor
    | .land => .operator opLand
    | .lxor => .operator opLxor
    | _ => .function
  sort
    | .bitPositive => .prop
    | _ => .int

def cbits : Cbits Symbol where
  lnot := .lnot
  lor := .lor
  land := .land
  lxor := .lxor
  lsl := .lsl
  lsr := .lsr
  bitPositive := .bitPositive
  nodup := by decide
  category_lor := rfl
  category_land := rfl
  category_lxor := rfl

def freeVariable (k : ℤ) : Term Empty Empty Symbol := .node (.fvar ⟨k,"x",k,.node .int []⟩) []

def Interp.ofVariables (ρ : ℤ → ℤ) : Interp Empty Empty Symbol where
  atom
    | .fvar x, _ => .int (ρ x.vid)
    | _, _ => .other
  lsl x _ := x
  lsr x _ := x
  bitTest _ _ := false

end FramaC.Cint
