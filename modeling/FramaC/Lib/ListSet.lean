import Mathlib

/-! # Sets as sorted lists

Lists without repetition sorted by a key in a linear order. Intersection, difference and factorization walk two lists
side by side; on elements that have the same key only when they are equal they are the operations on sets.
-/
namespace FramaC.ListSet

set_option linter.unusedSectionVars false

variable {α κ : Type} [LinearOrder κ] (key : α → κ)

@[grind =] def add (k : α) : List α → List α
  | [] => [k]
  | k' :: next =>
    if key k < key k' then k :: k' :: next
    else if key k = key k' then k' :: next
    else k' :: add k next

def inter : List α → List α → List α
  | [],_ => []
  | _ :: _,[] => []
  | a₁ :: r₁,a₂ :: r₂ =>
    if key a₁ < key a₂ then inter r₁ (a₂ :: r₂)
    else if key a₂ < key a₁ then inter (a₁ :: r₁) r₂
    else a₁ :: inter r₁ r₂
termination_by w₁ w₂ => w₁.length + w₂.length

def diff : List α → List α → List α
  | [],_ => []
  | a₁ :: r₁,[] => a₁ :: r₁
  | a₁ :: r₁,a₂ :: r₂ =>
    if key a₁ < key a₂ then a₁ :: diff r₁ (a₂ :: r₂)
    else if key a₂ < key a₁ then diff (a₁ :: r₁) r₂
    else diff r₁ r₂
termination_by w₁ w₂ => w₁.length + w₂.length

def fact (rxs cxs rys : List α) : List α → List α → List α × List α × List α
  | [],ys => (rxs.reverse,cxs.reverse,rys.reverse ++ ys)
  | x :: xs,[] => (rxs.reverse ++ x :: xs,cxs.reverse,rys.reverse)
  | x :: xtail,y :: ytail =>
    if key x < key y then fact (x :: rxs) cxs rys xtail (y :: ytail)
    else if key y < key x then fact rxs cxs (y :: rys) (x :: xtail) ytail
    else fact rxs (x :: cxs) rys xtail ytail
termination_by xs ys => xs.length + ys.length

def factorize (xs ys : List α) : List α × List α × List α := fact key [] [] [] xs ys

def bigInter : List (List α) → List α
  | [] => []
  | [e] => e
  | e :: es => inter key e (bigInter es)

def Sorted (xs : List α) : Prop := xs.Pairwise fun x y => key x < key y

def Coherent (xs ys : List α) : Prop := ∀ x ∈ xs, ∀ y ∈ ys, key x = key y → x = y

variable {key}

theorem mem_add {k x : α} {l : List α} (h : ∀ y ∈ l, key k ≠ key y) : x ∈ add key k l ↔ x = k ∨ x ∈ l := by
  induction l with
  | nil => simp [add]
  | cons k' next ih =>
    have hne : key k ≠ key k' := h k' (List.mem_cons_self ..)
    have hrest := ih fun y hy => h y (List.mem_cons_of_mem _ hy)
    unfold add
    by_cases hlt : key k < key k'
    · simp only [hlt,if_true,List.mem_cons]
    · simp only [hlt,hne,if_false,List.mem_cons,hrest]
      tauto

theorem sorted_add {k : α} {l : List α} (hl : Sorted key l) (h : ∀ y ∈ l, key k ≠ key y) : Sorted key (add key k l) := by
  induction l with
  | nil => exact List.pairwise_singleton _ _
  | cons k' next ih =>
    have hne : key k ≠ key k' := h k' (List.mem_cons_self ..)
    obtain ⟨hk',hnext⟩ := List.pairwise_cons.1 hl
    have hn : ∀ y ∈ next, key k ≠ key y := fun y hy => h y (List.mem_cons_of_mem _ hy)
    unfold add
    by_cases hlt : key k < key k'
    · rw [if_pos hlt]
      apply List.pairwise_cons.2 ⟨_,hl⟩
      intro y hy
      rcases List.mem_cons.1 hy with rfl | hy
      · exact hlt
      · exact lt_trans hlt (hk' y hy)
    · rw [if_neg hlt,if_neg hne]
      apply List.pairwise_cons.2 ⟨_,ih hnext hn⟩
      intro y hy
      rcases (mem_add hn).1 hy with rfl | hy
      · exact lt_of_le_of_ne (le_of_not_gt hlt) (Ne.symm hne)
      · exact hk' y hy

theorem inter_sublist (xs ys : List α) : List.Sublist (inter key xs ys) xs := by
  fun_induction inter key xs ys with
  | case1 => exact List.Sublist.refl _
  | case2 => exact List.nil_sublist _
  | case3 a₁ r₁ a₂ r₂ hlt ih => exact ih.cons a₁
  | case4 a₁ r₁ a₂ r₂ hlt hgt ih => exact ih
  | case5 a₁ r₁ a₂ r₂ hlt hgt ih => exact ih.cons_cons a₁

theorem diff_sublist (xs ys : List α) : List.Sublist (diff key xs ys) xs := by
  fun_induction diff key xs ys with
  | case1 => exact List.Sublist.refl _
  | case2 => exact List.Sublist.refl _
  | case3 a₁ r₁ a₂ r₂ hlt ih => exact ih.cons_cons a₁
  | case4 a₁ r₁ a₂ r₂ hlt hgt ih => exact ih
  | case5 a₁ r₁ a₂ r₂ hlt hgt ih => exact ih.cons a₁

theorem Sorted.not_mem_of_lt {x y : α} {ys : List α} (h : Sorted key (y :: ys)) (hlt : key x < key y) : x ∉ y :: ys := by
  intro hx
  rcases List.mem_cons.1 hx with rfl | hx
  · exact lt_irrefl _ hlt
  · exact lt_asymm hlt ((List.pairwise_cons.1 h).1 x hx)

theorem Coherent.tail_left {x : α} {xs ys : List α} (h : Coherent key (x :: xs) ys) : Coherent key xs ys :=
  fun a ha b hb => h a (List.mem_cons_of_mem _ ha) b hb

theorem Coherent.tail_right {y : α} {xs ys : List α} (h : Coherent key xs (y :: ys)) : Coherent key xs ys :=
  fun a ha b hb => h a ha b (List.mem_cons_of_mem _ hb)

theorem mem_inter {xs ys : List α} (hx : Sorted key xs) (hy : Sorted key ys) (hc : Coherent key xs ys) {a : α} :
    a ∈ inter key xs ys ↔ a ∈ xs ∧ a ∈ ys := by
  fun_induction inter key xs ys with
  | case1 ys => simp
  | case2 x xs => simp
  | case3 a₁ r₁ a₂ r₂ hlt ih =>
    rw [ih (List.pairwise_cons.1 hx).2 hy hc.tail_left]
    have hno := hy.not_mem_of_lt hlt
    simp only [List.mem_cons (b := a₁)]
    constructor
    · rintro ⟨h₁,h₂⟩
      exact ⟨Or.inr h₁,h₂⟩
    · rintro ⟨rfl | h₁,h₂⟩
      · exact absurd h₂ hno
      · exact ⟨h₁,h₂⟩
  | case4 a₁ r₁ a₂ r₂ hlt hgt ih =>
    rw [ih hx (List.pairwise_cons.1 hy).2 hc.tail_right]
    have hno := hx.not_mem_of_lt hgt
    simp only [List.mem_cons (b := a₂)]
    constructor
    · rintro ⟨h₁,h₂⟩
      exact ⟨h₁,Or.inr h₂⟩
    · rintro ⟨h₁,rfl | h₂⟩
      · exact absurd h₁ hno
      · exact ⟨h₁,h₂⟩
  | case5 a₁ r₁ a₂ r₂ hlt hgt ih =>
    have heq : a₁ = a₂ :=
      hc a₁ (List.mem_cons_self ..) a₂ (List.mem_cons_self ..) (le_antisymm (le_of_not_gt hgt) (le_of_not_gt hlt))
    subst heq
    have hr := ih (List.pairwise_cons.1 hx).2 (List.pairwise_cons.1 hy).2 hc.tail_left.tail_right
    simp only [List.mem_cons,hr]
    tauto

theorem mem_diff {xs ys : List α} (hx : Sorted key xs) (hy : Sorted key ys) (hc : Coherent key xs ys) {a : α} :
    a ∈ diff key xs ys ↔ a ∈ xs ∧ a ∉ ys := by
  fun_induction diff key xs ys with
  | case1 ys => simp
  | case2 x xs => simp
  | case3 a₁ r₁ a₂ r₂ hlt ih =>
    have hr := ih (List.pairwise_cons.1 hx).2 hy hc.tail_left
    have hno := hy.not_mem_of_lt hlt
    rw [List.mem_cons,List.mem_cons,hr]
    constructor
    · rintro (rfl | ⟨h₁,h₂⟩)
      · exact ⟨Or.inl rfl,hno⟩
      · exact ⟨Or.inr h₁,h₂⟩
    · rintro ⟨rfl | h₁,h₂⟩
      · exact Or.inl rfl
      · exact Or.inr ⟨h₁,h₂⟩
  | case4 a₁ r₁ a₂ r₂ hlt hgt ih =>
    have hr := ih hx (List.pairwise_cons.1 hy).2 hc.tail_right
    have hno := hx.not_mem_of_lt hgt
    rw [hr]
    constructor
    · rintro ⟨h₁,h₂⟩
      refine ⟨h₁,?_⟩
      intro ha
      rcases List.mem_cons.1 ha with rfl | ha
      · exact hno h₁
      · exact h₂ ha
    · rintro ⟨h₁,h₂⟩
      exact ⟨h₁,fun ha => h₂ (List.mem_cons_of_mem _ ha)⟩
  | case5 a₁ r₁ a₂ r₂ hlt hgt ih =>
    have heq : a₁ = a₂ :=
      hc a₁ (List.mem_cons_self ..) a₂ (List.mem_cons_self ..) (le_antisymm (le_of_not_gt hgt) (le_of_not_gt hlt))
    subst heq
    obtain ⟨hx₁,hx₂⟩ := List.pairwise_cons.1 hx
    rw [ih hx₂ (List.pairwise_cons.1 hy).2 hc.tail_left.tail_right,List.mem_cons,List.mem_cons]
    constructor
    · rintro ⟨h₁,h₂⟩
      refine ⟨Or.inr h₁,?_⟩
      rintro (rfl | ha)
      · exact lt_irrefl _ (hx₁ a h₁)
      · exact h₂ ha
    · rintro ⟨rfl | h₁,h₂⟩
      · exact absurd (Or.inl rfl) h₂
      · exact ⟨h₁,fun ha => h₂ (Or.inr ha)⟩

theorem diff_nil (xs : List α) : diff key xs [] = xs := by
  cases xs with
  | nil => rw [diff]
  | cons x xs => rw [diff]

theorem fact_eq (rxs cxs rys xs ys : List α) : fact key rxs cxs rys xs ys =
    (rxs.reverse ++ diff key xs ys,cxs.reverse ++ inter key xs ys,rys.reverse ++ diff key ys xs) := by
  fun_induction fact key rxs cxs rys xs ys with
  | case1 rxs cxs rys ys => rw [diff,inter,diff_nil,List.append_nil,List.append_nil]
  | case2 rxs cxs rys x xs => rw [diff,inter,diff,List.append_nil,List.append_nil]
  | case3 rxs cxs rys x xtail y ytail hlt ih =>
    have hgt : ¬key y < key x := lt_asymm hlt
    have h₁ : diff key (x :: xtail) (y :: ytail) = x :: diff key xtail (y :: ytail) := by rw [diff,if_pos hlt]
    have h₂ : inter key (x :: xtail) (y :: ytail) = inter key xtail (y :: ytail) := by rw [inter,if_pos hlt]
    have h₃ : diff key (y :: ytail) (x :: xtail) = diff key (y :: ytail) xtail := by rw [diff,if_neg hgt,if_pos hlt]
    rw [ih,h₁,h₂,h₃,List.reverse_cons,List.append_assoc,List.singleton_append]
  | case4 rxs cxs rys x xtail y ytail hlt hgt ih =>
    have h₁ : diff key (x :: xtail) (y :: ytail) = diff key (x :: xtail) ytail := by rw [diff,if_neg hlt,if_pos hgt]
    have h₂ : inter key (x :: xtail) (y :: ytail) = inter key (x :: xtail) ytail := by rw [inter,if_neg hlt,if_pos hgt]
    have h₃ : diff key (y :: ytail) (x :: xtail) = y :: diff key ytail (x :: xtail) := by rw [diff,if_pos hgt]
    rw [ih,h₁,h₂,h₃,List.reverse_cons,List.append_assoc,List.singleton_append]
  | case5 rxs cxs rys x xtail y ytail hlt hgt ih =>
    have h₁ : diff key (x :: xtail) (y :: ytail) = diff key xtail ytail := by rw [diff,if_neg hlt,if_neg hgt]
    have h₂ : inter key (x :: xtail) (y :: ytail) = x :: inter key xtail ytail := by rw [inter,if_neg hlt,if_neg hgt]
    have h₃ : diff key (y :: ytail) (x :: xtail) = diff key ytail xtail := by rw [diff,if_neg hgt,if_neg hlt]
    rw [ih,h₁,h₂,h₃,List.reverse_cons,List.append_assoc,List.singleton_append]

theorem factorize_eq (xs ys : List α) : factorize key xs ys = (diff key xs ys,inter key xs ys,diff key ys xs) :=
  fact_eq [] [] [] xs ys

theorem bigInter_sublist {cs : List (List α)} {c : List α} : List.Sublist (bigInter key (c :: cs)) c := by
  cases cs with
  | nil => exact List.Sublist.refl _
  | cons d ds => exact inter_sublist _ _

theorem Sorted.bigInter {cs : List (List α)} (h : ∀ c ∈ cs, Sorted key c) : Sorted key (bigInter key cs) := by
  cases cs with
  | nil => exact List.Pairwise.nil
  | cons c cs => exact List.Pairwise.sublist bigInter_sublist (h c (List.mem_cons_self ..))

theorem mem_bigInter {cs : List (List α)} (hne : cs ≠ []) (hs : ∀ c ∈ cs, Sorted key c)
    (hc : ∀ c ∈ cs, ∀ d ∈ cs, Coherent key c d) {a : α} : a ∈ bigInter key cs ↔ ∀ c ∈ cs, a ∈ c := by
  induction cs with
  | nil => exact absurd rfl hne
  | cons e es ih =>
    cases es with
    | nil => simp [ListSet.bigInter]
    | cons d ds =>
      have hs' : ∀ c ∈ d :: ds, Sorted key c := fun c h => hs c (List.mem_cons_of_mem _ h)
      have hc' : ∀ c ∈ d :: ds, ∀ c' ∈ d :: ds, Coherent key c c' :=
        fun c h c' h' => hc c (List.mem_cons_of_mem _ h) c' (List.mem_cons_of_mem _ h')
      have hrest := ih (List.cons_ne_nil _ _) hs' hc'
      have hcoh : Coherent key e (ListSet.bigInter key (d :: ds)) := by
        intro x hx y hy
        exact hc e (List.mem_cons_self ..) d (List.mem_cons_of_mem _ (List.mem_cons_self ..)) x hx y
          (bigInter_sublist.subset hy)
      rw [ListSet.bigInter,mem_inter (hs e (List.mem_cons_self ..)) (Sorted.bigInter hs') hcoh,hrest]
      · simp only [List.forall_mem_cons]
      · exact List.cons_ne_nil _ _

end FramaC.ListSet
