import FramaC.Lib.Cut

/-! # Sets as sorted lists

Operations on sorted lists that keep the longest part of the list they change. The part is cut at an element, which is
recognised by physical equality.
-/
set_option linter.unusedSectionVars false
namespace FramaC.Qed.Listset
open Cut
variable {E : Type} [DecidableEq E]

/-- The elements of a list before one of them, in reverse order, before an accumulator. -/
def revAppendUntil (i : E) : List E → List E → List E
  | [],acc => acc
  | i' :: l,acc => if i' = i then acc else revAppendUntil i l (i' :: acc)

def appendUntil (i : E) (l1 l2 : List E) : List E := (revAppendUntil i l1 []).reverse ++ l2

section Operations
variable (cmp : E → E → Ordering)

def addAux (k : E) (l : List E) : List E → List E
  | [] => l ++ [k]
  | k' :: next =>
    match cmp k k' with
    | .lt => appendUntil k' l (k :: k' :: next)
    | .eq => l
    | .gt => addAux k l next

def add (k : E) (l : List E) : List E := addAux cmp k l l

def mem (x : E) : List E → Bool
  | [] => false
  | e :: es =>
    match cmp x e with
    | .lt => false
    | .gt => mem x es
    | .eq => true

end Operations

theorem revAppendUntil_append {i : E} {l1 : List E} (h : i ∉ l1) (l2 acc : List E) :
    revAppendUntil i (l1 ++ i :: l2) acc = l1.reverse ++ acc := by
  induction l1 generalizing acc with
  | nil => simp [revAppendUntil]
  | cons a l1 ih =>
    obtain ⟨hia,hl⟩ : i ≠ a ∧ i ∉ l1 := by simpa using h
    rw [List.cons_append,revAppendUntil,if_neg (Ne.symm hia),ih hl]
    simp

theorem appendUntil_append {i : E} {l1 : List E} (h : i ∉ l1) (l2 l : List E) :
    appendUntil i (l1 ++ i :: l2) l = l1 ++ l := by
  simp [appendUntil,revAppendUntil_append h]

section Sorted
variable {cmp : E → E → Ordering} [Std.TransCmp cmp]

theorem Sorted.not_mem {l1 l2 : List E} {i : E} (h : Sorted cmp id (l1 ++ i :: l2)) : i ∉ l1 := by
  intro hi
  have hlt := (List.pairwise_append.mp h).2.2 i hi i (List.mem_cons_self ..)
  simp [Std.ReflCmp.compare_self] at hlt

theorem add_eq {k : E} {l : List E} (h : Sorted cmp id l) : add cmp k l =
    if ∃ e ∈ l, cmp k e = .eq then l else lower (cmp k) l ++ k :: upper (cmp k) l := by
  have haux : ∀ l1 l2 : List E, Sorted cmp id (l1 ++ l2) → (∀ e ∈ l1, cmp k e = .gt) → addAux cmp k (l1 ++ l2) l2 =
      if ∃ e ∈ l1 ++ l2, cmp k e = .eq then l1 ++ l2 else
        lower (cmp k) (l1 ++ l2) ++ k :: upper (cmp k) (l1 ++ l2) := by
    intro l1 l2 h h1
    have hne1 : ¬ ∃ e ∈ l1, cmp k e = .eq := by
      rintro ⟨e,he,hke⟩
      simp [h1 e he] at hke
    induction l2 generalizing l1 with
    | nil =>
      rw [List.append_nil,addAux,if_neg hne1,lower_eq_self h1,upper_eq_nil h1]
    | cons a l2 ih =>
      obtain ⟨_,_,hlo,hup⟩ := (h.strict k).around
      rw [addAux]
      cases hka : cmp k a with
      | lt =>
        have h2 : ∀ e ∈ a :: l2, cmp k e = .lt := List.forall_mem_cons.mpr ⟨hka,fun b hb => hup b hb (by simp [hka])⟩
        have hne : ¬ ∃ e ∈ l1 ++ a :: l2, cmp k e = .eq := by
          rintro ⟨e,he,hke⟩
          rcases List.mem_append.mp he with he | he
          · exact hne1 ⟨e,he,hke⟩
          · simp [h2 e he] at hke
        simp only
        rw [appendUntil_append (Sorted.not_mem h),if_neg hne,lower_append,upper_append,lower_eq_self h1,upper_eq_nil h1,
          lower_eq_nil h2,upper_eq_self h2]
        simp
      | eq =>
        rw [if_pos ⟨a,by simp,hka⟩]
      | gt =>
        have heq : l1 ++ a :: l2 = (l1 ++ [a]) ++ l2 := by simp
        have hall : ∀ e ∈ l1 ++ [a], cmp k e = .gt := by
          intro e he
          rcases List.mem_append.mp he with he | he
          · exact h1 e he
          · rwa [List.mem_singleton.mp he]
        simp only
        rw [heq] at h ⊢
        refine ih _ h hall ?_
        rintro ⟨e,he,hke⟩
        simp [hall e he] at hke
  exact haux [] l h (by simp)

theorem sorted_add {l : List E} (h : Sorted cmp id l) (k : E) : Sorted cmp id (add cmp k l) := by
  rw [add_eq h]
  split
  · exact h
  · exact h.insert Std.ReflCmp.compare_self

theorem mem_iff {x : E} {l : List E} (h : Sorted cmp id l) : mem cmp x l = true ↔ ∃ e ∈ l, cmp x e = .eq := by
  induction l with
  | nil => simp [mem]
  | cons e es ih =>
    obtain ⟨hle,hes⟩ := List.pairwise_cons.mp h
    rw [mem]
    simp only [List.mem_cons,exists_eq_or_imp]
    cases hxe : cmp x e with
    | lt =>
      refine iff_of_false Bool.false_ne_true ?_
      rintro (h | ⟨e',he',hxe'⟩)
      · cases h
      have hlt : cmp x e' = .lt := Std.TransCmp.lt_trans hxe (hle e' he')
      simp [hlt] at hxe'
    | eq => simp
    | gt => simpa using ih hes

end Sorted
end FramaC.Qed.Listset

/-! ## Maps as sorted lists

A union goes through both lists and keeps the longest part of the first that does not change.
-/
set_option linter.unusedSectionVars false
namespace FramaC.Qed.Listmap
open Cut Listset SideBySide
variable {K V : Type} [DecidableEq K] [DecidableEq V]

section Operations
variable (cmp : K → K → Ordering)

/-- `res` holds the result in reverse order, and `o1` what is left of the first list since it changed. -/
def unionAux (f : K → V → V → V) (res o1 : List (K × V)) : List (K × V) → List (K × V) → List (K × V)
  | [],w2 => res.reverse ++ (o1 ++ w2)
  | _ :: _,[] => res.reverse ++ o1
  | (k1,v1) :: r1,(k2,v2) :: r2 =>
    match cmp k1 k2 with
    | .lt => unionAux f res o1 r1 ((k2,v2) :: r2)
    | .eq =>
      let w := f k1 v1 v2
      if w = v1 then unionAux f res o1 r1 r2
      else unionAux f ((k1,w) :: revAppendUntil (k1,v1) o1 res) r1 r1 r2
    | .gt => unionAux f ((k2,v2) :: revAppendUntil (k1,v1) o1 res) ((k1,v1) :: r1) ((k1,v1) :: r1) r2
termination_by w1 w2 => w1.length + w2.length

def union (f : K → V → V → V) (w1 w2 : List (K × V)) : List (K × V) := unionAux cmp f [] w1 w1 w2

end Operations

section Sorted
variable {cmp : K → K → Ordering} [Std.TransCmp cmp]

def both (f : K → V → V → V) (a b : K × V) : Option (K × V) := some (a.1,f a.1 a.2 b.2)

theorem keeps_both (f : K → V → V → V) : SideBySide.Keeps cmp Prod.fst Prod.fst Prod.fst some some (both f) where
  left h := by
    obtain rfl := Option.some.inj h
    exact Std.ReflCmp.compare_self
  right h := by
    obtain rfl := Option.some.inj h
    exact Std.ReflCmp.compare_self
  both h _ := by
    obtain rfl := Option.some.inj h
    exact Std.ReflCmp.compare_self

theorem not_mem_pending {l1 l2 : List (K × V)} {i : K × V} (h : Sorted cmp Prod.fst (l1 ++ i :: l2)) : i ∉ l1 := by
  intro hi
  have hlt := (List.pairwise_append.mp h).2.2 i hi i (List.mem_cons_self ..)
  simp [Std.ReflCmp.compare_self] at hlt

theorem unionAux_eq (f : K → V → V → V) {w1 w2 : List (K × V)} : ∀ {res pend : List (K × V)},
    Sorted cmp Prod.fst (pend ++ w1) → unionAux cmp f res (pend ++ w1) w1 w2 =
      res.reverse ++ pend ++ walk cmp Prod.fst Prod.fst some some (both f) w1 w2 := by
  induction w1, w2 using walk.induct cmp Prod.fst Prod.fst with
  | case1 w2 => intro res pend _; simp [unionAux,walk]
  | case2 a r1 => intro res pend _; simp [unionAux,walk]
  | case3 a r1 b r2 hlt ih =>
    intro res pend h
    have hcons : pend ++ a :: r1 = (pend ++ [a]) ++ r1 := by simp
    rw [unionAux,walk]
    simp only [hlt]
    rw [hcons] at h ⊢
    rw [ih h]
    simp
  | case4 a r1 b r2 hgt ih =>
    intro res pend h
    have hw1 : Sorted cmp Prod.fst ([] ++ a :: r1) := (List.pairwise_append.mp h).2.1
    rw [unionAux,walk]
    simp only [hgt]
    rw [revAppendUntil_append (not_mem_pending h)]
    refine (ih hw1).trans ?_
    simp
  | case5 a r1 b r2 heq ih =>
    intro res pend h
    have hr1 : Sorted cmp Prod.fst ([] ++ r1) := (List.pairwise_cons.mp (List.pairwise_append.mp h).2.1).2
    rw [unionAux,walk]
    simp only [heq]
    split
    · next hw =>
      have hcons : pend ++ a :: r1 = (pend ++ [a]) ++ r1 := by simp
      rw [hcons] at h ⊢
      rw [ih h]
      simp [both,hw]
    · rw [revAppendUntil_append (not_mem_pending h)]
      refine (ih hr1).trans ?_
      simp [both]

theorem union_eq_walk (f : K → V → V → V) {w1 : List (K × V)} (h : Sorted cmp Prod.fst w1) (w2 : List (K × V)) :
    union cmp f w1 w2 = walk cmp Prod.fst Prod.fst some some (both f) w1 w2 :=
  @unionAux_eq _ _ _ _ _ _ f w1 w2 [] [] h

theorem sorted_union (f : K → V → V → V) {w1 w2 : List (K × V)} (h1 : Sorted cmp Prod.fst w1)
    (h2 : Sorted cmp Prod.fst w2) : Sorted cmp Prod.fst (union cmp f w1 w2) := by
  rw [union_eq_walk f h1]
  exact sorted_walk (keeps_both f) h1 h2

theorem find_union (f : K → V → V → V) {w1 w2 : List (K × V)} (h1 : Sorted cmp Prod.fst w1)
    (h2 : Sorted cmp Prod.fst w2) (k : K) : find cmp Prod.fst k (union cmp f w1 w2) =
      combine some some (both f) (find cmp Prod.fst k w1) (find cmp Prod.fst k w2) := by
  rw [union_eq_walk f h1]
  exact find_walk (keeps_both f) h1 h2 k

end Sorted
end FramaC.Qed.Listmap
