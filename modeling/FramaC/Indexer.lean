import FramaC.Lib.Cut
import Mathlib.Data.Int.Order.Basic

/-! # Indexed collections

Ordered collections with random access. Nodes store the number of elements below them, and the
rotations of `balance` follow these sizes to any depth.
-/
namespace FramaC
open Cut

/-- A node stores its size, including its own element. -/
inductive Indexer (E : Type) where
  | empty
  | branch (size : Nat) (p : Indexer E) (e : E) (q : Indexer E)
  deriving DecidableEq,Repr

namespace Indexer
variable {E : Type} (cmp : E → E → Ordering)

def size : Indexer E → Nat
  | empty => 0
  | branch n _ _ _ => n

def isEmpty : Indexer E → Bool
  | empty => true
  | branch _ _ _ _ => false

/-- `none` is `Not_found`. -/
@[grind =] def lookup (n : Nat) (a : E) : Indexer E → Option Nat
  | empty => none
  | branch _ p e q =>
    match cmp a e with
    | .lt => lookup n a p
    | .gt => lookup (n + size p + 1) a q
    | .eq => some (n + size p)

def index (a : E) (t : Indexer E) : Option Nat := lookup cmp 0 a t

def rindex (e : E) (t : Indexer E) : Int :=
  match index cmp e t with
  | some i => i
  | none => -1

def mem (a : E) : Indexer E → Bool
  | empty => false
  | branch _ p e q =>
    match cmp a e with
    | .lt => mem a p
    | .gt => mem a q
    | .eq => true

/-- `none` is `Not_found`. -/
def get (k : Int) : Indexer E → Option E
  | empty => none
  | branch _ p e q =>
    let n : Int := size p
    if k < n then get k p
    else if k > n then get (k - n - 1) q
    else some e

/-- The elements in the order of `iter`. -/
def elements : Indexer E → List E
  | empty => []
  | branch _ p e q => p.elements ++ e :: q.elements

def node (p : Indexer E) (e : E) (q : Indexer E) : Indexer E := branch (size p + size q + 1) p e q

@[grind =] def balance (p : Indexer E) (e : E) (q : Indexer E) : Indexer E :=
  match p,q with
  | branch n p1 x p2,branch m q1 y q2 =>
    if m < size p1 then node p1 x (balance p2 e (branch m q1 y q2))
    else if n < size q2 then node (balance (branch n p1 x p2) e q1) y q2
    else node (branch n p1 x p2) e (branch m q1 y q2)
  | branch n p1 x p2,empty =>
    if 0 < size p1 then node p1 x (balance p2 e empty)
    else node (branch n p1 x p2) e empty
  | empty,branch m q1 y q2 =>
    if 0 < size q2 then node (balance empty e q1) y q2
    else node empty e (branch m q1 y q2)
  | empty,empty => node empty e empty
termination_by sizeOf p + sizeOf q

def add (a : E) : Indexer E → Indexer E
  | empty => branch 1 empty a empty
  | branch n p e q =>
    match cmp a e with
    | .lt => balance (add a p) e q
    | .gt => balance p e (add a q)
    | .eq => branch n p a q

@[grind =] def join : Indexer E → Indexer E → Indexer E
  | empty,r => r
  | r,empty => r
  | branch n p1 x p2,branch m q1 y q2 =>
    if n ≥ m then balance p1 x (join p2 (branch m q1 y q2))
    else balance (join (branch n p1 x p2) q1) y q2
termination_by p q => sizeOf p + sizeOf q
decreasing_by
  · simp only [branch.sizeOf_spec]; omega
  · simp only [branch.sizeOf_spec]; omega

@[grind =] def remove (a : E) : Indexer E → Indexer E
  | empty => empty
  | branch _ p e q =>
    match cmp a e with
    | .lt => balance (remove a p) e q
    | .gt => balance p e (remove a q)
    | .eq => join p q

@[grind =] def filter (f : E → Bool) : Indexer E → Indexer E
  | empty => empty
  | branch _ p e q => if f e then balance (filter f p) e (filter f q) else join (filter f p) (filter f q)

/-- Replaces `x` by `y` and returns the range of modified indices; `none` is `Not_found`. -/
def update (x y : Option E) (t : Indexer E) : Option (Int × Int × Indexer E) :=
  match x,y with
  | none,none => some (0,-1,t)
  | some x,none =>
    let i := rindex cmp x t
    if i < 0 then some (0,-1,t) else some (i,size t - 1,remove cmp x t)
  | none,some y => do
    let t := add cmp y t
    let j ← index cmp y t
    some (j,size t - 1,t)
  | some x,some y =>
    let i := rindex cmp x t
    if i < 0 then
      let t := add cmp y t
      let j := rindex cmp y t
      some (j,size t - 1,t)
    else
      let t := add cmp y (remove cmp x t)
      let j := rindex cmp y t
      some (min i j,max i j,t)

def Exact : Indexer E → Prop
  | empty => True
  | branch n p _ q => n = size p + size q + 1 ∧ Exact p ∧ Exact q

variable {cmp} {p q t : Indexer E} {e : E}

theorem Exact.size_eq (h : t.Exact) : t.size = t.elements.length := by
  induction t with
  | empty => rfl
  | branch n p e q ihp ihq =>
    obtain ⟨hn,hp,hq⟩ := h
    rw [elements,List.length_append,List.length_cons,← ihp hp,← ihq hq,size,hn]
    omega

theorem Exact.node (hp : p.Exact) (hq : q.Exact) : (node p e q).Exact := ⟨rfl,hp,hq⟩

theorem balance_spec (p : Indexer E) (e : E) (q : Indexer E) :
    (balance p e q).elements = p.elements ++ e :: q.elements ∧ (p.Exact → q.Exact → (balance p e q).Exact) := by
  fun_induction balance p e q with
  | case1 n p1 x p2 m q1 y q2 h ih =>
    refine ⟨by simp [Indexer.node,elements,ih.1],fun hp hq => ?_⟩
    exact hp.2.1.node (ih.2 hp.2.2 hq)
  | case2 n p1 x p2 m q1 y q2 h h' ih =>
    refine ⟨by simp [Indexer.node,elements,ih.1],fun hp hq => ?_⟩
    exact (ih.2 hp hq.2.1).node hq.2.2
  | case3 n p1 x p2 m q1 y q2 h h' => exact ⟨rfl,Exact.node⟩
  | case4 n p1 x p2 h ih =>
    refine ⟨by simp [Indexer.node,elements,ih.1],fun hp hq => ?_⟩
    exact hp.2.1.node (ih.2 hp.2.2 hq)
  | case5 n p1 x p2 h => exact ⟨rfl,Exact.node⟩
  | case6 m q1 y q2 h ih =>
    refine ⟨by simp [Indexer.node,elements,ih.1],fun hp hq => ?_⟩
    exact (ih.2 hp hq.2.1).node hq.2.2
  | case7 m q1 y q2 h => exact ⟨rfl,Exact.node⟩
  | case8 => exact ⟨rfl,Exact.node⟩

@[simp] theorem elements_balance : (balance p e q).elements = p.elements ++ e :: q.elements := (balance_spec p e q).1

theorem Exact.balance (hp : p.Exact) (hq : q.Exact) : (balance p e q).Exact := (balance_spec p e q).2 hp hq

theorem join_spec (p q : Indexer E) :
    (join p q).elements = p.elements ++ q.elements ∧ (p.Exact → q.Exact → (join p q).Exact) := by
  fun_induction join p q with
  | case1 r => exact ⟨rfl,fun _ hr => hr⟩
  | case2 r _ => exact ⟨(List.append_nil _).symm,fun hr _ => hr⟩
  | case3 n p1 x p2 m q1 y q2 h ih =>
    refine ⟨by simp [elements,ih.1],fun hp hq => ?_⟩
    exact hp.2.1.balance (ih.2 hp.2.2 hq)
  | case4 n p1 x p2 m q1 y q2 h ih =>
    refine ⟨by simp [elements,ih.1],fun hp hq => ?_⟩
    exact (ih.2 hp hq.2.1).balance hq.2.2

@[simp] theorem elements_join : (join p q).elements = p.elements ++ q.elements := (join_spec p q).1

theorem Exact.join (hp : p.Exact) (hq : q.Exact) : (join p q).Exact := (join_spec p q).2 hp hq

theorem Exact.add (h : t.Exact) (a : E) : (add cmp a t).Exact := by
  induction t with
  | empty => exact ⟨rfl,trivial,trivial⟩
  | branch n p e q ihp ihq =>
    obtain ⟨hn,hp,hq⟩ := h
    rw [Indexer.add]
    cases cmp a e with
    | lt => exact (ihp hp).balance hq
    | gt => exact hp.balance (ihq hq)
    | eq => exact ⟨hn,hp,hq⟩

theorem Exact.remove (h : t.Exact) (a : E) : (remove cmp a t).Exact := by
  induction t with
  | empty => trivial
  | branch n p e q ihp ihq =>
    obtain ⟨hn,hp,hq⟩ := h
    rw [Indexer.remove]
    cases cmp a e with
    | lt => exact (ihp hp).balance hq
    | gt => exact hp.balance (ihq hq)
    | eq => exact hp.join hq

theorem Exact.filter (h : t.Exact) (f : E → Bool) : (filter f t).Exact := by
  induction t with
  | empty => trivial
  | branch n p e q ihp ihq =>
    obtain ⟨hn,hp,hq⟩ := h
    rw [Indexer.filter]
    split_ifs
    · exact (ihp hp).balance (ihq hq)
    · exact (ihp hp).join (ihq hq)

theorem elements_filter (f : E → Bool) (t : Indexer E) : (filter f t).elements = t.elements.filter f := by
  induction t with
  | empty => rfl
  | branch n p e q ihp ihq =>
    rw [filter,elements,List.filter_append,List.filter_cons]
    split_ifs
    · rw [elements_balance,ihp,ihq]
    · rw [elements_join,ihp,ihq]

theorem elements_add {a : E} (h : Strict (cmp a) t.elements) :
    (add cmp a t).elements = lower (cmp a) t.elements ++ a :: upper (cmp a) t.elements := by
  induction t with
  | empty => rfl
  | branch n p e q ihp ihq =>
    obtain ⟨hp,hq,-,-⟩ := h.around
    rw [add,elements]
    cases hc : cmp a e with
    | eq =>
      obtain ⟨hlo,hup⟩ := h.sides_eq hc
      rw [hlo,hup]
      rfl
    | lt =>
      obtain ⟨hlo,hup⟩ := h.sides_lt hc
      rw [hlo,hup]
      exact elements_balance.trans (by rw [ihp hp,List.append_assoc,List.cons_append])
    | gt =>
      obtain ⟨hlo,hup⟩ := h.sides_gt hc
      rw [hlo,hup]
      exact elements_balance.trans (by rw [ihq hq,List.append_assoc,List.cons_append])

theorem elements_remove {a : E} (h : Strict (cmp a) t.elements) :
    (remove cmp a t).elements = lower (cmp a) t.elements ++ upper (cmp a) t.elements := by
  induction t with
  | empty => rfl
  | branch n p e q ihp ihq =>
    obtain ⟨hp,hq,-,-⟩ := h.around
    rw [remove,elements]
    cases hc : cmp a e with
    | eq =>
      obtain ⟨hlo,hup⟩ := h.sides_eq hc
      rw [hlo,hup]
      exact elements_join
    | lt =>
      obtain ⟨hlo,hup⟩ := h.sides_lt hc
      rw [hlo,hup]
      exact elements_balance.trans (by rw [ihp hp,List.append_assoc])
    | gt =>
      obtain ⟨hlo,hup⟩ := h.sides_gt hc
      rw [hlo,hup]
      exact elements_balance.trans (by rw [ihq hq,List.append_assoc,List.cons_append])

theorem eq_mem_sides {l l' : List E} {v a : E} (h : Strict (cmp a) (l ++ v :: l')) (hm : ∃ e ∈ l ++ v :: l', cmp a e = .eq) :
    (cmp a v = .lt → ∃ e ∈ l, cmp a e = .eq) ∧ (cmp a v = .gt → ∃ e ∈ l', cmp a e = .eq) := by
  obtain ⟨-,-,hl,hr⟩ := h.around
  obtain ⟨e,he,heq⟩ := hm
  refine ⟨fun hv => ?_,fun hv => ?_⟩ <;> rcases List.mem_append.mp he with he | he
  · exact ⟨e,he,heq⟩
  · rcases List.mem_cons.mp he with rfl | he
    · simp [hv] at heq
    · simp [hr e he (by simp [hv])] at heq
  · simp [hl e he (by simp [hv])] at heq
  · rcases List.mem_cons.mp he with rfl | he
    · simp [hv] at heq
    · exact ⟨e,he,heq⟩

theorem lookup_of_mem (hx : t.Exact) {a : E} (h : Strict (cmp a) t.elements) (hm : ∃ e ∈ t.elements, cmp a e = .eq)
    (n : Nat) : lookup cmp n a t = some (n + (lower (cmp a) t.elements).length) := by
  induction t generalizing n with
  | empty =>
    obtain ⟨e,he,-⟩ := hm
    cases he
  | branch m p e q ihp ihq =>
    obtain ⟨hp,hq,-,-⟩ := h.around
    obtain ⟨-,hxp,hxq⟩ := hx
    obtain ⟨hlt,hgt⟩ := eq_mem_sides h hm
    rw [lookup,elements]
    cases hc : cmp a e with
    | eq => rw [(h.sides_eq hc).1,hxp.size_eq]
    | lt => rw [(h.sides_lt hc).1,ihp hxp hp (hlt hc)]
    | gt =>
      rw [(h.sides_gt hc).1,ihq hxq hq (hgt hc),hxp.size_eq,List.length_append,List.length_cons]
      exact congrArg some (by omega)

theorem lookup_of_not_mem {a : E} (hm : ∀ e ∈ t.elements, cmp a e ≠ .eq) (n : Nat) : lookup cmp n a t = none := by
  induction t generalizing n with
  | empty => rfl
  | branch m p e q ihp ihq =>
    rw [lookup]
    cases hc : cmp a e with
    | eq => exact absurd hc (hm e (by simp [elements]))
    | lt => exact ihp (fun x hx => hm x (by simp [elements,hx])) n
    | gt => exact ihq (fun x hx => hm x (by simp [elements,hx])) _

theorem mem_iff {a : E} (h : Strict (cmp a) t.elements) : mem cmp a t = true ↔ ∃ e ∈ t.elements, cmp a e = .eq := by
  induction t with
  | empty => simp [mem,elements]
  | branch m p e q ihp ihq =>
    obtain ⟨hp,hq,-,-⟩ := h.around
    rw [mem]
    cases hc : cmp a e with
    | eq => exact iff_of_true rfl ⟨e,by simp [elements],hc⟩
    | lt =>
      refine (ihp hp).trans ⟨fun ⟨x,hx,he⟩ => ⟨x,by simp [elements,hx],he⟩,fun hm => (eq_mem_sides h hm).1 hc⟩
    | gt =>
      refine (ihq hq).trans ⟨fun ⟨x,hx,he⟩ => ⟨x,by simp [elements,hx],he⟩,fun hm => (eq_mem_sides h hm).2 hc⟩

def nth (k : Int) (l : List E) : Option E := if k < 0 then none else l[k.toNat]?

theorem get_eq (hx : t.Exact) (k : Int) : get k t = nth k t.elements := by
  induction t generalizing k with
  | empty => simp [get,elements,nth]
  | branch n p e q ihp ihq =>
    obtain ⟨-,hp,hq⟩ := hx
    simp only [nth] at ihp ihq ⊢
    simp only [get,elements,ihp hp,ihq hq,hp.size_eq]
    by_cases hk : k < 0
    · rw [if_pos (by omega),if_pos hk,if_pos hk]
    · rw [if_neg hk,if_neg hk]
      rcases lt_trichotomy k p.elements.length with h | h | h
      · rw [if_pos h,List.getElem?_append_left (by omega)]
      · rw [if_neg (by omega),if_neg (by omega),List.getElem?_append_right (by omega)]
        have hk' : k.toNat - p.elements.length = 0 := by omega
        rw [hk',List.getElem?_cons_zero]
      · rw [if_neg (by omega),if_pos h,if_neg (by omega),List.getElem?_append_right (by omega)]
        have hk' : k.toNat - p.elements.length = (k - p.elements.length - 1).toNat + 1 := by omega
        rw [hk',List.getElem?_cons_succ]

theorem nth_agree {P : List E} (M M' S : List E) (hlen : M'.length = M.length) {k : Int}
    (hk : k < P.length ∨ P.length + M.length ≤ k) : nth k (P ++ M' ++ S) = nth k (P ++ M ++ S) := by
  unfold nth
  by_cases hneg : k < 0
  · rw [if_pos hneg,if_pos hneg]
  · rw [if_neg hneg,if_neg hneg,List.append_assoc,List.append_assoc]
    rcases hk with hk | hk
    · rw [List.getElem?_append_left (by omega),List.getElem?_append_left (by omega)]
    · rw [List.getElem?_append_right (by omega),List.getElem?_append_right (by omega),
        List.getElem?_append_right (by omega),List.getElem?_append_right (by omega),hlen]

theorem nth_agree_tail {P M M' : List E} {b k : Int} (hM : P.length + M.length ≤ b + 1)
    (hM' : P.length + M'.length ≤ b + 1) (hk : k < P.length ∨ b < k) : nth k (P ++ M') = nth k (P ++ M) := by
  unfold nth
  by_cases hneg : k < 0
  · rw [if_pos hneg,if_pos hneg]
  · rw [if_neg hneg,if_neg hneg]
    rcases hk with hk | hk
    · rw [List.getElem?_append_left (by omega),List.getElem?_append_left (by omega)]
    · rw [List.getElem?_eq_none (by rw [List.length_append]; omega),List.getElem?_eq_none (by rw [List.length_append]; omega)]

theorem nth_ne_of_length {L L' : List E} (h : L'.length < L.length) : nth L'.length L' ≠ nth L'.length L := by
  unfold nth
  rw [if_neg (by omega),if_neg (by omega),Int.toNat_natCast,List.getElem?_eq_none (Nat.le_refl _),
    List.getElem?_eq_getElem h]
  simp

/-- Sizes are exact and the elements increase strictly. -/
structure Good (cmp : E → E → Ordering) (t : Indexer E) : Prop where
  exact : t.Exact
  sorted : Sorted cmp id t.elements

section
variable [Std.TransCmp cmp] (h : Good cmp t)
include h

theorem Good.strict (a : E) : Strict (cmp a) t.elements := h.sorted.strict a

theorem Good.add (a : E) : Good cmp (add cmp a t) := by
  refine ⟨h.exact.add a,?_⟩
  rw [elements_add (h.strict a)]
  exact h.sorted.insert Std.ReflCmp.compare_self

theorem Good.remove (a : E) : Good cmp (remove cmp a t) := by
  refine ⟨h.exact.remove a,?_⟩
  rw [elements_remove (h.strict a)]
  exact h.sorted.delete a

omit [Std.TransCmp cmp] in
theorem Good.filter (f : E → Bool) : Good cmp (filter f t) := by
  refine ⟨h.exact.filter f,?_⟩
  rw [elements_filter]
  exact List.Pairwise.filter f h.sorted

theorem Good.rindex_of_mem {a : E} (hm : ∃ e ∈ t.elements, cmp a e = .eq) :
    rindex cmp a t = (lower (cmp a) t.elements).length := by
  rw [rindex,index,lookup_of_mem h.exact (h.strict a) hm]
  simp

omit [Std.TransCmp cmp] h in
theorem rindex_of_not_mem {a : E} (hm : ¬ ∃ e ∈ t.elements, cmp a e = .eq) : rindex cmp a t = -1 := by
  rw [rindex,index,lookup_of_not_mem fun e he hc => hm ⟨e,he,hc⟩]

theorem Good.mem_add {a e : E} : e ∈ (Indexer.add cmp a t).elements ↔ e = a ∨ e ∈ t.elements ∧ cmp a e ≠ .eq := by
  rw [elements_add (h.strict a),List.mem_append,List.mem_cons,mem_lower,mem_upper]
  cases cmp a e <;> simp [or_comm]

theorem Good.mem_remove {a e : E} : e ∈ (Indexer.remove cmp a t).elements ↔ e ∈ t.elements ∧ cmp a e ≠ .eq := by
  rw [elements_remove (h.strict a),List.mem_append,mem_lower,mem_upper]
  cases cmp a e <;> simp

end

/-- The elements without those equal to `x`, and with `y` in place of its equals. -/
def Replaces (xo yo : Option E) (cmp : E → E → Ordering) (t t' : Indexer E) : Prop :=
  ∀ e, e ∈ t'.elements ↔ yo = some e ∨ e ∈ t.elements ∧ (∀ x ∈ xo, cmp x e ≠ .eq) ∧ ∀ y ∈ yo, cmp y e ≠ .eq

def SameOutside (a b : Int) (t t' : Indexer E) : Prop := ∀ k, k < a ∨ b < k → get k t' = get k t

/-- An element that is not the last is replaced by another one that is already present. -/
def Shrinks (xo yo : Option E) (cmp : E → E → Ordering) (t : Indexer E) : Prop :=
  ∃ x ∈ xo, ∃ y ∈ yo, mem cmp x t = true ∧ mem cmp y t = true ∧ cmp x y ≠ .eq ∧ ∃ e ∈ t.elements, cmp x e = .lt

theorem sameOutside_of_elements {t t' : Indexer E} (ht : t.Exact) (ht' : t'.Exact) {a b : Int}
    (h : ∀ k, k < a ∨ b < k → nth k t'.elements = nth k t.elements) : SameOutside a b t t' := fun k hk => by
  rw [get_eq ht',get_eq ht]
  exact h k hk

section
variable [Std.TransCmp cmp] (h : Good cmp t)
include h

theorem Good.split {x : E} (hm : ∃ e ∈ t.elements, cmp x e = .eq) : ∃ e, cmp x e = .eq ∧
    t.elements = lower (cmp x) t.elements ++ e :: upper (cmp x) t.elements ∧
    size t = (lower (cmp x) t.elements).length + (upper (cmp x) t.elements).length + 1 := by
  obtain ⟨e,he,hc⟩ := hm
  have hsplit := (h.strict x).split_of_mem he hc
  refine ⟨e,hc,hsplit.symm,?_⟩
  rw [h.exact.size_eq]
  refine (congrArg List.length hsplit).symm.trans ?_
  rw [List.length_append,List.length_cons,Nat.add_assoc]

theorem Good.sameOutside_remove {x : E} (hm : ∃ e ∈ t.elements, cmp x e = .eq) :
    SameOutside (rindex cmp x t) (size t - 1) t (Indexer.remove cmp x t) := by
  obtain ⟨e,-,hsplit,hsize⟩ := h.split hm
  refine sameOutside_of_elements h.exact (h.remove x).exact fun k hk => ?_
  rw [h.rindex_of_mem hm] at hk
  rw [elements_remove (h.strict x)]
  conv_rhs => rw [hsplit]
  refine nth_agree_tail ?_ ?_ hk
  · rw [hsize,List.length_cons]
    omega
  · rw [hsize]
    omega

theorem Good.rindex_add (y : E) : rindex cmp y (Indexer.add cmp y t) = (lower (cmp y) t.elements).length := by
  have hself : cmp y y = .eq := Std.ReflCmp.compare_self
  have hs := (h.add y).strict y
  rw [(h.add y).rindex_of_mem ⟨y,h.mem_add.mpr (.inl rfl),hself⟩]
  rw [elements_add (h.strict y)] at hs ⊢
  rw [(hs.sides_eq hself).1]

theorem Good.size_add (y : E) :
    size (Indexer.add cmp y t) = (lower (cmp y) t.elements).length + (upper (cmp y) t.elements).length + 1 := by
  rw [(h.add y).exact.size_eq,elements_add (h.strict y),List.length_append,List.length_cons,Nat.add_assoc]

theorem Good.sameOutside_add (y : E) :
    SameOutside (rindex cmp y (Indexer.add cmp y t)) (size (Indexer.add cmp y t) - 1) t (Indexer.add cmp y t) := by
  refine sameOutside_of_elements h.exact (h.add y).exact fun k hk => ?_
  rw [h.rindex_add,h.size_add] at hk
  rw [elements_add (h.strict y)]
  by_cases hm : ∃ e ∈ t.elements, cmp y e = .eq
  · obtain ⟨e,-,hsplit,-⟩ := h.split hm
    conv_rhs => rw [hsplit]
    refine nth_agree_tail ?_ ?_ hk
    · rw [List.length_cons]
      omega
    · rw [List.length_cons]
      omega
  · have hsplit := (h.strict y).split_of_not_mem fun e he hc => hm ⟨e,he,hc⟩
    conv_rhs => rw [← hsplit]
    refine nth_agree_tail ?_ ?_ hk
    · omega
    · rw [List.length_cons]
      omega

theorem Good.sides_above {x y : E} (hxy : cmp x y = .lt) :
    lower (cmp y) (Indexer.remove cmp x t).elements =
        lower (cmp x) t.elements ++ lower (cmp y) (upper (cmp x) t.elements) ∧
      upper (cmp y) (Indexer.remove cmp x t).elements = upper (cmp y) (upper (cmp x) t.elements) := by
  have hbelow : ∀ a ∈ lower (cmp x) t.elements, cmp y a = .gt := fun a ha =>
    Std.TransCmp.gt_trans (Std.OrientedCmp.gt_of_lt hxy) (mem_lower.mp ha).2
  rw [elements_remove (h.strict x),lower_append,upper_append,lower_eq_self hbelow,upper_eq_nil hbelow]
  exact ⟨rfl,rfl⟩

theorem Good.sides_below {x y : E} (hxy : cmp x y = .gt) :
    lower (cmp y) (Indexer.remove cmp x t).elements = lower (cmp y) (lower (cmp x) t.elements) ∧
      upper (cmp y) (Indexer.remove cmp x t).elements =
        upper (cmp y) (lower (cmp x) t.elements) ++ upper (cmp x) t.elements := by
  have habove : ∀ a ∈ upper (cmp x) t.elements, cmp y a = .lt := fun a ha =>
    Std.TransCmp.lt_trans (Std.OrientedCmp.lt_of_gt hxy) (mem_upper.mp ha).2
  rw [elements_remove (h.strict x),lower_append,upper_append,lower_eq_nil habove,upper_eq_self habove]
  exact ⟨List.append_nil _,rfl⟩

section
variable {x y : E} (hm : ∃ e ∈ t.elements, cmp x e = .eq)
include hm

theorem Good.move_eq (hxy : cmp x y = .eq) :
    let t' := Indexer.add cmp y (Indexer.remove cmp x t)
    SameOutside (min (rindex cmp x t) (rindex cmp y t')) (max (rindex cmp x t) (rindex cmp y t')) t t' := by
  intro t'
  have hcut : cmp y = cmp x := funext fun e => (Std.TransCmp.congr_left hxy).symm
  obtain ⟨e,-,hsplit,-⟩ := h.split hm
  have h1 := h.remove x
  have hlo : lower (cmp y) (Indexer.remove cmp x t).elements = lower (cmp x) t.elements := by
    rw [elements_remove (h.strict x),hcut,lower_append,lower_eq_self fun a ha => (mem_lower.mp ha).2,
      lower_eq_nil fun a ha => (mem_upper.mp ha).2,List.append_nil]
  have hup : upper (cmp y) (Indexer.remove cmp x t).elements = upper (cmp x) t.elements := by
    rw [elements_remove (h.strict x),hcut,upper_append,upper_eq_self fun a ha => (mem_upper.mp ha).2,
      upper_eq_nil fun a ha => (mem_lower.mp ha).2,List.nil_append]
  refine sameOutside_of_elements h.exact (h1.add y).exact fun k hk => ?_
  rw [h.rindex_of_mem hm,h1.rindex_add,hlo] at hk
  rw [elements_add (h1.strict y),hlo,hup]
  conv_rhs => rw [hsplit]
  have hk' : k < (lower (cmp x) t.elements).length ∨ (lower (cmp x) t.elements).length + [e].length ≤ k := by
    rw [List.length_singleton]
    omega
  simpa using nth_agree [e] [y] (upper (cmp x) t.elements) rfl hk'

theorem Good.move_up (hxy : cmp x y = .lt) (hy : ¬ ∃ e ∈ t.elements, cmp y e = .eq) :
    let t' := Indexer.add cmp y (Indexer.remove cmp x t)
    SameOutside (min (rindex cmp x t) (rindex cmp y t')) (max (rindex cmp x t) (rindex cmp y t')) t t' := by
  intro t'
  obtain ⟨e,-,hsplit,-⟩ := h.split hm
  have h1 := h.remove x
  obtain ⟨hlo,hup⟩ := h.sides_above hxy
  have hB : lower (cmp y) (upper (cmp x) t.elements) ++ upper (cmp y) (upper (cmp x) t.elements) =
      upper (cmp x) t.elements :=
    Strict.split_of_not_mem (List.Pairwise.filter _ (h.strict y)) fun a ha hc => hy ⟨a,(mem_upper.mp ha).1,hc⟩
  refine sameOutside_of_elements h.exact (h1.add y).exact fun k hk => ?_
  rw [h.rindex_of_mem hm,h1.rindex_add,hlo,List.length_append] at hk
  rw [elements_add (h1.strict y),hlo,hup]
  conv_rhs => rw [hsplit,← hB]
  generalize lower (cmp y) (upper (cmp x) t.elements) = A at *
  have hk' : k < (lower (cmp x) t.elements).length ∨ (lower (cmp x) t.elements).length + (e :: A).length ≤ k := by
    rw [List.length_cons]
    omega
  simpa using nth_agree (e :: A) (A ++ [y]) (upper (cmp y) (upper (cmp x) t.elements)) (by simp) hk'

theorem Good.move_down (hxy : cmp x y = .gt) (hy : ¬ ∃ e ∈ t.elements, cmp y e = .eq) :
    let t' := Indexer.add cmp y (Indexer.remove cmp x t)
    SameOutside (min (rindex cmp x t) (rindex cmp y t')) (max (rindex cmp x t) (rindex cmp y t')) t t' := by
  intro t'
  obtain ⟨e,-,hsplit,-⟩ := h.split hm
  have h1 := h.remove x
  obtain ⟨hlo,hup⟩ := h.sides_below hxy
  have hA : lower (cmp y) (lower (cmp x) t.elements) ++ upper (cmp y) (lower (cmp x) t.elements) =
      lower (cmp x) t.elements :=
    Strict.split_of_not_mem (List.Pairwise.filter _ (h.strict y)) fun a ha hc => hy ⟨a,(mem_lower.mp ha).1,hc⟩
  refine sameOutside_of_elements h.exact (h1.add y).exact fun k hk => ?_
  rw [h.rindex_of_mem hm,h1.rindex_add,hlo] at hk
  rw [elements_add (h1.strict y),hlo,hup]
  conv_rhs => rw [hsplit]
  generalize lower (cmp x) t.elements = A at *
  generalize upper (cmp y) A = U at *
  generalize lower (cmp y) A = L at *
  subst hA
  rw [List.length_append] at hk
  have hk' : k < L.length ∨ L.length + (U ++ [e]).length ≤ k := by
    rw [List.length_append,List.length_singleton]
    omega
  simpa using nth_agree (U ++ [e]) (y :: U) (upper (cmp x) t.elements) (by simp) hk'

theorem Good.size_shrinks (hxy : cmp x y ≠ .eq) (hy : ∃ e ∈ t.elements, cmp y e = .eq) :
    size (Indexer.add cmp y (Indexer.remove cmp x t)) + 1 = size t := by
  have h1 := h.remove x
  obtain ⟨e,he,hc⟩ := hy
  have he1 : e ∈ (Indexer.remove cmp x t).elements :=
    h.mem_remove.mpr ⟨he,fun hxe => hxy ((Std.TransCmp.congr_right hc).trans hxe)⟩
  obtain ⟨-,-,-,hsize⟩ := h.split hm
  obtain ⟨-,-,-,hsize1⟩ := h1.split ⟨e,he1,hc⟩
  rw [h1.size_add,← hsize1,h1.exact.size_eq,elements_remove (h.strict x),List.length_append,hsize]

theorem Good.merge_last (hxy : cmp x y ≠ .eq) (hy : ∃ e ∈ t.elements, cmp y e = .eq)
    (hlast : ∀ e ∈ t.elements, cmp x e ≠ .lt) :
    let t' := Indexer.add cmp y (Indexer.remove cmp x t)
    SameOutside (min (rindex cmp x t) (rindex cmp y t')) (max (rindex cmp x t) (rindex cmp y t')) t t' := by
  intro t'
  have h1 := h.remove x
  obtain ⟨e,-,hsplit,-⟩ := h.split hm
  obtain ⟨d,hd,hc⟩ := hy
  have hxd : cmp x y = cmp x d := Std.TransCmp.congr_right hc
  have hgt : cmp x y = .gt := by
    cases hcase : cmp x y with
    | lt => exact absurd (hxd.symm.trans hcase) (hlast d hd)
    | eq => exact absurd hcase hxy
    | gt => rfl
  have hnone : upper (cmp x) t.elements = [] := List.eq_nil_iff_forall_not_mem.mpr fun a ha =>
    hlast a (mem_upper.mp ha).1 (mem_upper.mp ha).2
  obtain ⟨hlo,hup⟩ := h.sides_below hgt
  have hA : lower (cmp y) (lower (cmp x) t.elements) ++ d :: upper (cmp y) (lower (cmp x) t.elements) =
      lower (cmp x) t.elements :=
    Strict.split_of_mem (List.Pairwise.filter _ (h.strict y)) (mem_lower.mpr ⟨hd,hxd.symm.trans hgt⟩) hc
  refine sameOutside_of_elements h.exact (h1.add y).exact fun k hk => ?_
  rw [h.rindex_of_mem hm,h1.rindex_add,hlo] at hk
  rw [elements_add (h1.strict y),hlo,hup,hnone,List.append_nil]
  conv_rhs => rw [hsplit,hnone]
  generalize lower (cmp x) t.elements = A at *
  generalize upper (cmp y) A = U at *
  generalize lower (cmp y) A = L at *
  subst hA
  rw [List.length_append,List.length_cons] at hk
  rw [List.append_assoc]
  refine nth_agree_tail (b := L.length + (U.length + 1)) ?_ ?_ (by omega)
  · rw [List.length_append,List.length_cons,List.length_singleton]
    omega
  · rw [List.length_cons]
    omega

end

theorem Good.not_sameOutside {x y : E} (hxy : cmp x y ≠ .eq) (hx : ∃ e ∈ t.elements, cmp x e = .eq)
    (hy : ∃ e ∈ t.elements, cmp y e = .eq) (hlater : ∃ e ∈ t.elements, cmp x e = .lt) :
    let t' := Indexer.add cmp y (Indexer.remove cmp x t)
    ¬ SameOutside (min (rindex cmp x t) (rindex cmp y t')) (max (rindex cmp x t) (rindex cmp y t')) t t' := by
  intro t' hsame
  have h' : Good cmp t' := (h.remove x).add y
  have hshrink : size t' + 1 = size t := h.size_shrinks hx hxy hy
  have hi : rindex cmp x t < size t' := by
    obtain ⟨e,he,hc⟩ := hlater
    obtain ⟨-,-,-,hsize⟩ := h.split hx
    have := List.length_pos_of_mem (mem_upper.mpr ⟨he,hc⟩)
    rw [h.rindex_of_mem hx]
    omega
  have hj : rindex cmp y t' < size t' := by
    rw [(h.remove x).rindex_add,(h.remove x).size_add]
    omega
  have hk := hsame (size t') (.inr (max_lt hi hj))
  rw [get_eq h'.exact,get_eq h.exact] at hk
  rw [h'.exact.size_eq,h.exact.size_eq] at hshrink
  rw [h'.exact.size_eq] at hk
  exact nth_ne_of_length (by omega) hk

/-- What a call of `update` returns. -/
def Updates (xo yo : Option E) (cmp : E → E → Ordering) (t : Indexer E) (r : Option (Int × Int × Indexer E)) : Prop :=
  ∃ a b t', r = some (a,b,t') ∧ Good cmp t' ∧ Replaces xo yo cmp t t' ∧
    (SameOutside a b t t' ↔ ¬ Shrinks xo yo cmp t)

omit [Std.TransCmp cmp] in
theorem Good.updates_self {xo : Option E} (hx : ∀ x ∈ xo, ¬ ∃ e ∈ t.elements, cmp x e = .eq) :
    Updates xo none cmp t (some (0,-1,t)) := by
  refine ⟨0,-1,t,rfl,h,fun e => ?_,iff_of_true (fun _ _ => rfl) (by simp [Shrinks])⟩
  constructor
  · exact fun he => .inr ⟨he,fun x hxo hc => hx x hxo ⟨e,he,hc⟩,by simp⟩
  · rintro (he | ⟨he,-⟩)
    · cases he
    · exact he

theorem Good.updates_remove {x : E} (hx : ∃ e ∈ t.elements, cmp x e = .eq) :
    Updates (some x) none cmp t (some (rindex cmp x t,size t - 1,Indexer.remove cmp x t)) := by
  refine ⟨_,_,_,rfl,h.remove x,fun e => ?_,iff_of_true (h.sameOutside_remove hx) (by simp [Shrinks])⟩
  rw [h.mem_remove]
  simp

theorem Good.updates_add {xo : Option E} (hx : ∀ x ∈ xo, ¬ ∃ e ∈ t.elements, cmp x e = .eq) (y : E) :
    Updates xo (some y) cmp t (some (rindex cmp y (Indexer.add cmp y t),size (Indexer.add cmp y t) - 1,
      Indexer.add cmp y t)) := by
  refine ⟨_,_,_,rfl,h.add y,fun e => ?_,iff_of_true (h.sameOutside_add y) ?_⟩
  · rw [h.mem_add]
    refine or_congr (by simp [eq_comm]) (and_congr_right fun he => ?_)
    exact ⟨fun hc => ⟨fun x hxo hxe => hx x hxo ⟨e,he,hxe⟩,by simpa using hc⟩,fun hc => hc.2 y rfl⟩
  · rintro ⟨x,hxo,y',-,hm,-⟩
    exact hx x hxo ((mem_iff (h.strict x)).mp hm)

theorem Good.updates_move {x y : E} (hx : ∃ e ∈ t.elements, cmp x e = .eq) :
    let t' := Indexer.add cmp y (Indexer.remove cmp x t)
    Updates (some x) (some y) cmp t
      (some (min (rindex cmp x t) (rindex cmp y t'),max (rindex cmp x t) (rindex cmp y t'),t')) := by
  intro t'
  refine ⟨_,_,_,rfl,(h.remove x).add y,fun e => ?_,?_⟩
  · rw [(h.remove x).mem_add,h.mem_remove,and_assoc]
    simp [eq_comm]
  · constructor
    · rintro hsame ⟨x',hxo,y',hyo,-,hmy,hne,hlater⟩
      cases hxo
      cases hyo
      exact h.not_sameOutside hne hx ((mem_iff (h.strict y)).mp hmy) hlater hsame
    · intro hno
      by_cases hxy : cmp x y = .eq
      · exact h.move_eq hx hxy
      by_cases hy : ∃ e ∈ t.elements, cmp y e = .eq
      · refine h.merge_last hx hxy hy fun e he hlt => hno ?_
        exact ⟨x,rfl,y,rfl,(mem_iff (h.strict x)).mpr hx,(mem_iff (h.strict y)).mpr hy,hxy,e,he,hlt⟩
      · cases hcase : cmp x y with
        | eq => exact absurd hcase hxy
        | lt => exact h.move_up hx hcase hy
        | gt => exact h.move_down hx hcase hy

theorem Good.update (xo yo : Option E) : Updates xo yo cmp t (update cmp xo yo t) := by
  have found : ∀ {x : E}, (∃ e ∈ t.elements, cmp x e = .eq) → ¬ rindex cmp x t < 0 := fun hx => by
    rw [h.rindex_of_mem hx]
    omega
  cases xo with
  | none =>
    cases yo with
    | none => exact h.updates_self (by simp)
    | some y =>
      have hidx : index cmp y (Indexer.add cmp y t) = some (0 + _) :=
        lookup_of_mem (h.add y).exact ((h.add y).strict y) ⟨y,h.mem_add.mpr (.inl rfl),Std.ReflCmp.compare_self⟩ 0
      have hspec : Updates none (some y) cmp t _ := h.updates_add (by simp) y
      rw [rindex,hidx] at hspec
      rw [Indexer.update]
      simp only [hidx,Option.bind_eq_bind,Option.bind_some]
      exact hspec
  | some x =>
    by_cases hx : ∃ e ∈ t.elements, cmp x e = .eq
    · cases yo with
      | none =>
        rw [Indexer.update]
        simp only [if_neg (found hx)]
        exact h.updates_remove hx
      | some y =>
        rw [Indexer.update]
        simp only [if_neg (found hx)]
        exact h.updates_move hx
    · have hneg : rindex cmp x t < 0 := by
        rw [rindex_of_not_mem hx]
        decide
      have hx' : ∀ x' ∈ some x, ¬ ∃ e ∈ t.elements, cmp x' e = .eq := fun x' hx' => by
        cases hx'
        exact hx
      cases yo with
      | none =>
        rw [Indexer.update]
        simp only [if_pos hneg]
        exact h.updates_self hx'
      | some y =>
        rw [Indexer.update]
        simp only [if_pos hneg]
        exact h.updates_add hx' y

/-- `index` and `get` are inverse to each other, between the elements and the positions below the size. -/
def Inverse (cmp : E → E → Ordering) (t : Indexer E) : Prop :=
  (∀ k, (∃ e, get k t = some e) ↔ 0 ≤ k ∧ k < size t) ∧
  (∀ a, (∃ n, index cmp a t = some n) ↔ mem cmp a t = true) ∧
  (∀ k e, get k t = some e → ∃ n : Nat, k = n ∧ index cmp e t = some n) ∧
  ∀ a n, index cmp a t = some n → ∃ e, get n t = some e ∧ cmp a e = .eq

theorem Good.inverse : Inverse cmp t := by
  have nth_some : ∀ {k e}, get k t = some e ↔ 0 ≤ k ∧ t.elements[k.toNat]? = some e := fun {k e} => by
    rw [get_eq h.exact,nth]
    by_cases hk : k < 0
    · rw [if_pos hk]
      exact iff_of_false (by simp) fun he => absurd he.1 (not_le.mpr hk)
    · rw [if_neg hk]
      exact (and_iff_right (not_lt.mp hk)).symm
  have present : ∀ {a n}, index cmp a t = some n → ∃ e ∈ t.elements, cmp a e = .eq := fun {a n} ha => by
    by_contra hno
    rw [index,lookup_of_not_mem fun e he hc => hno ⟨e,he,hc⟩] at ha
    cases ha
  refine ⟨fun k => ?_,fun a => ?_,fun k e hk => ?_,fun a n ha => ?_⟩
  · simp only [nth_some,exists_and_left,h.exact.size_eq]
    refine and_congr_right fun h0 => ?_
    refine ⟨fun ⟨e,he⟩ => ?_,fun hlt => ⟨_,List.getElem?_eq_getElem (by omega)⟩⟩
    have := (List.getElem?_eq_some_iff.mp he).1
    omega
  · rw [mem_iff (h.strict a)]
    exact ⟨fun ⟨n,hn⟩ => present hn,fun hm => ⟨_,lookup_of_mem h.exact (h.strict a) hm 0⟩⟩
  · obtain ⟨h0,hget⟩ := nth_some.mp hk
    obtain ⟨hlt,he⟩ := List.getElem?_eq_some_iff.mp hget
    have hself : cmp e e = .eq := Std.ReflCmp.compare_self
    have hsplit : t.elements.take k.toNat ++ e :: t.elements.drop (k.toNat + 1) = t.elements := by
      rw [← he,List.getElem_cons_drop,List.take_append_drop]
    have hs := h.strict e
    rw [← hsplit] at hs
    have hlow := (hs.sides_eq hself).1
    rw [hsplit] at hlow
    refine ⟨k.toNat,(Int.toNat_of_nonneg h0).symm,?_⟩
    rw [index,lookup_of_mem h.exact (h.strict e) ⟨e,List.mem_of_getElem? hget,hself⟩,hlow,List.length_take,Nat.zero_add]
    exact congrArg some (Nat.min_eq_left (Nat.le_of_lt hlt))
  · obtain ⟨e,hc,hsplit,-⟩ := h.split (present ha)
    rw [index,lookup_of_mem h.exact (h.strict a) (present ha),Nat.zero_add] at ha
    cases ha
    have hget : (lower (cmp a) t.elements ++ e :: upper (cmp a) t.elements)[(lower (cmp a) t.elements).length]? = some e := by
      simp
    rw [← hsplit] at hget
    exact ⟨e,nth_some.mpr ⟨Int.natCast_nonneg _,hget⟩,hc⟩

end

/-- The collections built from `empty`. -/
inductive Built (cmp : E → E → Ordering) : Indexer E → Prop where
  | empty : Built cmp empty
  | add {t : Indexer E} (a : E) : Built cmp t → Built cmp (add cmp a t)
  | remove {t : Indexer E} (a : E) : Built cmp t → Built cmp (remove cmp a t)
  | filter {t : Indexer E} (f : E → Bool) : Built cmp t → Built cmp (filter f t)
  | update {t t' : Indexer E} {a b : Int} (xo yo : Option E) :
    Built cmp t → update cmp xo yo t = some (a,b,t') → Built cmp t'

theorem Built.good [Std.TransCmp cmp] (h : Built cmp t) : Good cmp t := by
  induction h with
  | empty => exact ⟨trivial,List.Pairwise.nil⟩
  | add a _ ih => exact ih.add a
  | remove a _ ih => exact ih.remove a
  | filter f _ ih => exact ih.filter f
  | update xo yo _ hu ih =>
    obtain ⟨a',b',t'',he,hgood,-⟩ := ih.update xo yo
    rw [he] at hu
    cases hu
    exact hgood

/-- Built collections have exact sizes, increasing elements and inverse `index` and `get`. An update
never fails, and the range that it reports covers every modified position exactly when it does not
replace an element before the last by another one that is present. -/
theorem built_correct [Std.TransCmp cmp] (h : Built cmp t) : t.Exact ∧ Sorted cmp id t.elements ∧ Inverse cmp t ∧
    ∀ xo yo, ∃ a b t', update cmp xo yo t = some (a,b,t') ∧ Replaces xo yo cmp t t' ∧
      (SameOutside a b t t' ↔ ¬ Shrinks xo yo cmp t) := by
  refine ⟨h.good.exact,h.good.sorted,h.good.inverse,fun xo yo => ?_⟩
  obtain ⟨a,b,t',he,-,hr,hs⟩ := h.good.update xo yo
  exact ⟨a,b,t',he,hr,hs⟩

def three : Indexer Nat := branch 3 (branch 1 empty 1 empty) 2 (branch 1 empty 3 empty)

theorem three_built : Built compare three := by
  have h21 : compare 2 1 = Ordering.gt := rfl
  have h31 : compare 3 1 = Ordering.gt := rfl
  have h32 : compare 3 2 = Ordering.gt := rfl
  have he : three = add compare 3 (add compare 2 (add compare 1 empty)) := by
    simp [three,add,balance,node,size,h21,h31,h32]
  rw [he]
  exact ((Built.empty.add 1).add 2).add 3

theorem built_correct_three : three.Exact ∧ Sorted compare id three.elements ∧ Inverse compare three ∧
    ∀ xo yo, ∃ a b t', update compare xo yo three = some (a,b,t') ∧ Replaces xo yo compare three t' ∧
      (SameOutside a b three t' ↔ ¬ Shrinks xo yo compare three) :=
  built_correct three_built

/-- Replacing 1 by 2 moves 3 from position 2 to position 1, and reports position 0. -/
theorem update_range_too_short : Built compare three ∧
    update compare (some 1) (some 2) three = some (0,0,branch 2 empty 2 (branch 1 empty 3 empty)) ∧
    ¬ SameOutside 0 0 three (branch 2 empty 2 (branch 1 empty 3 empty)) := by
  refine ⟨three_built,?_,fun hsame => ?_⟩
  · have h12 : compare 1 2 = Ordering.lt := rfl
    simp [update,rindex,index,lookup,three,add,remove,balance,join,node,size,h12]
  · exact absurd (hsame 1 (by decide)) (by decide)

end Indexer
end FramaC
