import FramaC.Cint.Signs

/-! # Rewriting of lists

Equalities of lists peel the leftmost or the rightmost terms of both sides, and unfold one copy of a repetition to reach them.
-/
set_option linter.unusedSectionVars false
namespace FramaC.Vlist
open Qed Integer Cint
variable {ADT Field Fun : Type}

/-- The symbols of lists, next to those of bitwise operations. -/
structure Symbols (Fun : Type) [FunSymbol Fun] extends Cbits Fun where
  fNil : Fun
  fElt : Fun
  fConcat : Fun
  fRepeat : Fun
  fNth : Fun
  fLength : Fun
  lists_nodup : [fNil,fElt,fConcat,fRepeat,fNth,fLength].Nodup
  lists_disjoint : ∀ f ∈ [fNil,fElt,fConcat,fRepeat,fNth,fLength], f ∉ [lnot,lor,land,lxor,lsl,lsr,bitPositive]

variable (ADT Field Fun) in
/-- The constructors of `Lang.F` that lists use. -/
structure Build extends Cint.Build ADT Field Fun where
  eOr : List (Term ADT Field Fun) → Term ADT Field Fun
  eSum : List (Term ADT Field Fun) → Term ADT Field Fun
  eMul : Term ADT Field Fun → Term ADT Field Fun → Term ADT Field Fun
  eSub : Term ADT Field Fun → Term ADT Field Fun → Term ADT Field Fun

section Rewriters
variable [FunSymbol Fun] (S : Symbols Fun) (E : Build ADT Field Fun)

def vNil : Term ADT Field Fun := E.eFun S.fNil []
def vElt (e : Term ADT Field Fun) : Term ADT Field Fun := E.eFun S.fElt [e]
def vConcat (es : List (Term ADT Field Fun)) : Term ADT Field Fun := E.eFun S.fConcat es
def vLength (l : Term ADT Field Fun) : Term ADT Field Fun := E.eFun S.fLength [l]
def vRepeat (s n : Term ADT Field Fun) : Term ADT Field Fun := E.eFun S.fRepeat [s,n]

variable [DecidableEq Fun]

def rewriteLength (e : Term ADT Field Fun) : Res (Term ADT Field Fun) :=
  match e with
  | .node (.func f) es =>
    if f = S.fNil ∧ es = [] then .ok eZero
    else if f = S.fElt ∧ es.length = 1 then .ok (eZint 1)
    else if f = S.fConcat then .ok (E.eSum (es.map (vLength S E)))
    else
      match es with
      | [u,n] =>
        if f = S.fRepeat ∧ isPositiveOrNull S.toCbits E.toBuild n then .ok (E.eMul (vLength S E u) n)
        else .error .notFound
      | _ => .error .notFound
  | _ => .error .notFound

def isNil (e : Term ADT Field Fun) : Bool :=
  match e with
  | .node (.func f) _ => f = S.fNil
  | _ => false

def getNthList (k : ℤ) : List (Term ADT Field Fun) → Res (Term ADT Field Fun)
  | head :: tail =>
    match head with
    | .node (.func f) [x] => if f = S.fElt then if k = 0 then .ok x else getNthList (k - 1) tail else .error .notFound
    | _ => .error .notFound
  | [] => .error .notFound

def getNth (k : ℤ) (e : Term ADT Field Fun) : Res (Term ADT Field Fun) :=
  match e with
  | .node (.func f) es =>
    if f = S.fConcat then getNthList S k es
    else
      match es with
      | [x] => if f = S.fElt ∧ k = 0 then .ok x else .error .notFound
      | _ => .error .notFound
  | _ => .error .notFound

def rewriteNth (s k : Term ADT Field Fun) : Res (Term ADT Field Fun) :=
  match k with
  | .node (.kint z) _ =>
    match toInt z with
    | .ok k => if 0 ≤ k then getNth S k s else .error .notFound
    | .error _ => .error .notFound
  | _ => .error .notFound

section
variable [DecidableEq ADT] [DecidableEq Field]

def rewriteRepeat (s n : Term ADT Field Fun) : Res (Term ADT Field Fun) :=
  if n = eZero then .ok (vNil S E)
  else if n = eZint 1 then .ok s
  else if isNil S s then .ok s
  else
    match s with
    | .node (.func f) [s0,n0] =>
      if f = S.fRepeat ∧ isPositiveOrNull S.toCbits E.toBuild n ∧ isPositiveOrNull S.toCbits E.toBuild n0 then
        .ok (vRepeat S E s0 (E.eMul n0 n))
      else .error .notFound
    | _ => .error .notFound

end

def leftmost (a : Term ADT Field Fun) (ms : List (Term ADT Field Fun)) :
    Term ADT Field Fun × List (Term ADT Field Fun) :=
  match a with
  | .node (.func f) (e :: es) =>
    if f = S.fConcat then leftmost e (es ++ ms)
    else
      match es with
      | [n] =>
        if f = S.fRepeat ∧ isPositiveOrNull S.toCbits E.toBuild n then
          leftmost e (vRepeat S E e (E.eSub n (eZint 1)) :: ms)
        else (a,ms)
      | _ => (a,ms)
  | _ => (a,ms)

def rightmost (ms : List (Term ADT Field Fun)) (a : Term ADT Field Fun) :
    List (Term ADT Field Fun) × Term ADT Field Fun :=
  match a with
  | .node (.func f) es =>
    if f = S.fConcat then
      match _ : es.reverse with
      | [] => (ms,a)
      | e :: es' => rightmost (ms ++ es'.reverse) e
    else
      match es with
      | [u,n] =>
        if f = S.fRepeat ∧ isPositiveOrNull S.toCbits E.toBuild n then
          rightmost (ms ++ [vRepeat S E u (E.eSub n (eZint 1))]) u
        else (ms,a)
      | _ => (ms,a)
  | _ => (ms,a)
termination_by a.height
decreasing_by
  · next h => exact Rose.height_lt (List.mem_reverse.mp (by rw [h]; exact List.mem_cons_self ..))
  · exact Rose.height_lt (List.mem_cons_self ..)

def leftmostEq (a b : Term ADT Field Fun) : Res (Term ADT Field Fun) :=
  let (a,u) := leftmost S E a []
  let (b,v) := leftmost S E b []
  if u ≠ [] ∨ v ≠ [] then
    match isTrue (E.eEq a b) with
    | some true => .ok (E.eEq (vConcat S E u) (vConcat S E v))
    | some false => .ok eFalse
    | none => .error .notFound
  else .error .notFound

def rightmostEq (a b : Term ADT Field Fun) : Res (Term ADT Field Fun) :=
  let (u,a) := rightmost S E [] a
  let (v,b) := rightmost S E [] b
  if u ≠ [] ∨ v ≠ [] then
    match isTrue (E.eEq a b) with
    | some true => .ok (E.eEq (vConcat S E u) (vConcat S E v))
    | some false => .ok eFalse
    | none => .error .notFound
  else .error .notFound

def pIsNil (a : Term ADT Field Fun) : Term ADT Field Fun := E.eEq a (vNil S E)

def pAllNil (es : List (Term ADT Field Fun)) : Term ADT Field Fun := E.eAnd (es.map (pIsNil S E))

def rewriteIsNil (a : Term ADT Field Fun) : Res (Term ADT Field Fun) :=
  match a with
  | .node (.func f) es =>
    if f = S.fConcat then .ok (pAllNil S E es)
    else if f = S.fElt ∧ es.length = 1 then .ok eFalse
    else
      match es with
      | [u,n] => if f = S.fRepeat then .ok (E.eOr [E.eLeq n eZero,pIsNil S E u]) else .error .notFound
      | _ => .error .notFound
  | _ => .error .notFound

def elements (a : Term ADT Field Fun) : List (Term ADT Field Fun) :=
  match a with
  | .node (.func f) es => if f = S.fNil ∧ es = [] then [] else if f = S.fConcat then es else [a]
  | _ => [a]

def isEmptyList (a : Term ADT Field Fun) : Bool :=
  match a with
  | .node (.func f) [] => f = S.fNil
  | _ => false

variable [DecidableEq ADT] [DecidableEq Field]

/-- The elements before the first `x`, in reverse order before `rs`, and those after it. -/
def omitElement (rs : List (Term ADT Field Fun)) (x : Term ADT Field Fun) :
    List (Term ADT Field Fun) → Res (List (Term ADT Field Fun) × List (Term ADT Field Fun))
  | [] => .error .notFound
  | y :: ys => if x = y then .ok (rs,ys) else omitElement (y :: rs) x ys

/-- What remains of `ys` when the elements of `xs` are omitted in order. -/
def subsequence (rs : List (Term ADT Field Fun)) :
    List (Term ADT Field Fun) → List (Term ADT Field Fun) → Res (List (Term ADT Field Fun))
  | [],ys => .ok (rs.reverse ++ ys)
  | x :: xs,ys => do
    let (rs,ys) ← omitElement rs x ys
    subsequence rs xs ys

def rewriteEq (a b : Term ADT Field Fun) : Res (Term ADT Field Fun) :=
  if isEmptyList S a then rewriteIsNil S E b
  else if isEmptyList S b then rewriteIsNil S E a
  else
    handle (leftmostEq S E a b) (handle (rightmostEq S E a b) (do
      let xs := elements S a
      let ys := elements S b
      if xs.length < ys.length then return pAllNil S E (← subsequence [] xs ys)
      else return pAllNil S E (← subsequence [] ys xs)))

end Rewriters
end FramaC.Vlist

/-! ## Lists as values

Terms are interpreted as integers, truth values, lists of values and objects. A repetition by a negative number is empty, and
an index out of range gives an arbitrary value.
-/
set_option linter.unusedSectionVars false
namespace FramaC.Vlist
open Qed Integer Cint
variable {ADT Field Fun Obj : Type}

inductive Value (Obj : Type)
  | int (z : ℤ)
  | prop (b : Bool)
  | list (vs : List (Value Obj))
  | obj (o : Obj)
  | other

variable (ADT Field Fun Obj) in
/-- The values of what is neither arithmetic nor a list, of shifts by negative numbers and of indices out of range. -/
structure Interp where
  arith : Cint.Interp ADT Field Fun
  atom : Repr ADT Field Fun → List (Value Obj) → Value Obj
  outOfRange : List (Value Obj) → ℤ → Value Obj

def toArith : Value Obj → Cint.Value
  | .int z => .int z
  | .prop b => .prop b
  | _ => .other

def ofArith : Cint.Value → Value Obj
  | .int z => .int z
  | .prop b => .prop b
  | .other => .other

@[simp] theorem toArith_ofArith (w : Cint.Value) : toArith (ofArith w : Value Obj) = w := by cases w <;> rfl

theorem toArith_eq_int {v : Value Obj} {z : ℤ} : toArith v = .int z ↔ v = .int z := by cases v <;> simp [toArith]

@[grind =] def lists : List (Value Obj) → Option (List (List (Value Obj)))
  | [] => some []
  | .list l :: vs => (lists vs).map (l :: ·)
  | _ :: _ => none

def copies (l : List (Value Obj)) (n : ℤ) : List (Value Obj) := (List.replicate n.toNat l).flatten

section Interpretation
variable [DecidableEq Fun] [FunSymbol Fun] (S : Symbols Fun) (I : Interp ADT Field Fun Obj)

def Interp.nth (l : List (Value Obj)) (k : ℤ) : Value Obj :=
  if 0 ≤ k then (l[k.toNat]?).getD (I.outOfRange l k) else I.outOfRange l k

def Interp.listFun (f : Fun) (vs : List (Value Obj)) : Value Obj :=
  if f = S.fNil then
    match vs with
    | [] => .list []
    | _ => .other
  else if f = S.fElt then
    match vs with
    | [v] => .list [v]
    | _ => .other
  else if f = S.fConcat then
    match lists vs with
    | some ls => .list ls.flatten
    | none => .other
  else if f = S.fRepeat then
    match vs with
    | [.list l,.int n] => .list (copies l n)
    | _ => .other
  else if f = S.fLength then
    match vs with
    | [.list l] => .int l.length
    | _ => .other
  else
    match vs with
    | [.list l,.int k] => I.nth l k
    | _ => .other

/-- An equality of values. -/
noncomputable def eqValues (x y : Value Obj) : Value Obj := by
  classical exact match x,y with
    | .other,_ => .other
    | _,.other => .other
    | x,y => .prop (x = y)

@[grind =] noncomputable def Interp.node (r : Repr ADT Field Fun) (vs : List (Value Obj)) : Value Obj :=
  match r with
  | .func f =>
    if f ∈ [S.fNil,S.fElt,S.fConcat,S.fRepeat,S.fNth,S.fLength] then I.listFun S f vs
    else if f ∈ [S.lnot,S.lor,S.land,S.lxor,S.lsl,S.lsr,S.bitPositive] then
      ofArith (I.arith.func S.toCbits f (vs.map toArith))
    else I.atom r vs
  | .eq =>
    match vs with
    | [x,y] => eqValues x y
    | _ => .other
  | .mul => ofArith (onInts (fun xs => .int xs.prod) (vs.map toArith))
  | .true | .false | .kint _ | .add | .leq | .lt | .and | .not =>
    ofArith (I.arith.node S.toCbits r (vs.map toArith))
  | _ => I.atom r vs

noncomputable def Interp.value : Term ADT Field Fun → Value Obj := Rose.fold (I.node S)

theorem value_node (r : Repr ADT Field Fun) (ts : List (Term ADT Field Fun)) :
    I.value S (.node r ts) = I.node S r (ts.map (I.value S)) := Rose.fold_node ..

@[simp] theorem value_eZint (z : ℤ) : I.value S (eZint z) = .int z := value_node ..
@[simp] theorem value_eZero : I.value S eZero = .int 0 := value_node ..
@[simp] theorem value_kint (z : ℤ) (ts : List (Term ADT Field Fun)) : I.value S (.node (.kint z) ts) = .int z := value_node ..
@[simp] theorem value_eTrue : I.value S eTrue = .prop true := value_node ..
@[simp] theorem value_eFalse : I.value S eFalse = .prop false := value_node ..

theorem value_of_isTrue {t : Term ADT Field Fun} {b : Bool} (h : isTrue t = some b) : I.value S t = .prop b := by
  obtain ⟨r,ts⟩ := t
  rw [value_node]
  cases r <;> simp_all [Cint.isTrue,Interp.node,Cint.Interp.node,ofArith]

def Interp.Lists (ts : List (Term ADT Field Fun)) (ls : List (List (Value Obj))) : Prop :=
  List.Forall₂ (fun t l => I.value S t = .list l) ts ls

variable {S I}

theorem lists_eq_some {vs : List (Value Obj)} {ls : List (List (Value Obj))} : lists vs = some ls ↔ vs = ls.map .list := by
  induction vs generalizing ls with
  | nil => cases ls <;> simp [lists]
  | cons v vs ih => cases v <;> cases ls <;> simp [lists,ih,and_comm]

theorem map_eq_lists {ts : List (Term ADT Field Fun)} {ls : List (List (Value Obj))} :
    ts.map (I.value S) = ls.map .list ↔ I.Lists S ts ls := by
  unfold Interp.Lists
  induction ts generalizing ls with
  | nil => cases ls <;> simp
  | cons t ts ih => cases ls <;> simp [ih]

theorem value_listFun {f : Fun} (hf : f ∈ [S.fNil,S.fElt,S.fConcat,S.fRepeat,S.fNth,S.fLength])
    (ts : List (Term ADT Field Fun)) : I.value S (.node (.func f) ts) = I.listFun S f (ts.map (I.value S)) := by
  rw [value_node,Interp.node,if_pos hf]

theorem Symbols.ne (S : Symbols Fun) : S.fElt ≠ S.fNil ∧ S.fConcat ≠ S.fNil ∧ S.fConcat ≠ S.fElt ∧ S.fRepeat ≠ S.fNil ∧
    S.fRepeat ≠ S.fElt ∧ S.fRepeat ≠ S.fConcat ∧ S.fNth ≠ S.fNil ∧ S.fNth ≠ S.fElt ∧ S.fNth ≠ S.fConcat ∧
    S.fNth ≠ S.fRepeat ∧ S.fLength ≠ S.fNil ∧ S.fLength ≠ S.fElt ∧ S.fLength ≠ S.fConcat ∧ S.fLength ≠ S.fRepeat ∧
    S.fLength ≠ S.fNth := by
  have h := S.lists_nodup
  simp only [List.nodup_cons,List.mem_cons,not_or,List.not_mem_nil,not_false_eq_true,List.nodup_nil,and_true] at h
  tauto

theorem value_nil : I.value S (.node (.func S.fNil) []) = .list [] := by
  rw [value_listFun (by simp)]
  unfold Interp.listFun
  rw [if_pos rfl]
  rfl

theorem value_elt (e : Term ADT Field Fun) : I.value S (.node (.func S.fElt) [e]) = .list [I.value S e] := by
  obtain ⟨h1,_⟩ := S.ne
  rw [value_listFun (by simp)]
  unfold Interp.listFun
  rw [if_neg h1,if_pos rfl]
  rfl

theorem value_concat {es : List (Term ADT Field Fun)} {l : List (Value Obj)} :
    I.value S (.node (.func S.fConcat) es) = .list l ↔ ∃ ls, I.Lists S es ls ∧ l = ls.flatten := by
  obtain ⟨_,h1,h2,_⟩ := S.ne
  rw [value_listFun (by simp)]
  unfold Interp.listFun
  rw [if_neg h1,if_neg h2,if_pos rfl]
  constructor
  · intro h
    split at h
    · next ls hls =>
      exact ⟨ls,(map_eq_lists).mp (lists_eq_some.mp hls),(Value.list.inj h).symm⟩
    · cases h
  · rintro ⟨ls,hls,rfl⟩
    rw [(lists_eq_some).mpr (map_eq_lists.mpr hls)]

theorem value_repeat {u n : Term ADT Field Fun} {l : List (Value Obj)} :
    I.value S (.node (.func S.fRepeat) [u,n]) = .list l ↔
      ∃ l' z, I.value S u = .list l' ∧ I.value S n = .int z ∧ l = copies l' z := by
  obtain ⟨_,_,_,h1,h2,h3,_⟩ := S.ne
  rw [value_listFun (by simp)]
  unfold Interp.listFun
  rw [if_neg h1,if_neg h2,if_neg h3,if_pos rfl]
  cases hu : I.value S u <;> cases hn : I.value S n <;> simp [hu,hn,eq_comm]

theorem value_length {u : Term ADT Field Fun} {l : List (Value Obj)} (hu : I.value S u = .list l) :
    I.value S (.node (.func S.fLength) [u]) = .int l.length := by
  obtain ⟨_,_,_,_,_,_,_,_,_,_,h1,h2,h3,h4,_⟩ := S.ne
  rw [value_listFun (by simp)]
  unfold Interp.listFun
  rw [if_neg h1,if_neg h2,if_neg h3,if_neg h4,if_pos rfl]
  simp [hu]

theorem value_nth {u k : Term ADT Field Fun} {l : List (Value Obj)} {z : ℤ} (hu : I.value S u = .list l)
    (hk : I.value S k = .int z) : I.value S (.node (.func S.fNth) [u,k]) = I.nth l z := by
  obtain ⟨_,_,_,_,_,_,h1,h2,h3,h4,_,_,_,_,h5⟩ := S.ne
  rw [value_listFun (by simp)]
  unfold Interp.listFun
  rw [if_neg h1,if_neg h2,if_neg h3,if_neg h4,if_neg h5.symm]
  simp [hu,hk]

end Interpretation
end FramaC.Vlist
