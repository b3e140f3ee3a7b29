import FramaC.Equality.Union

/-! # Runs on sets of equalities

The sets that `unite`, `remove`, `union` and `inter` build from the empty one. They stay partitions as long as no term of
the equality of an lvalue that goes out of scope contains its address, and the equalities of two united sets do not chain
further than through one middle equality.
-/
namespace FramaC.Equality

open EqualityDomain Classes

variable {E : Type} [DecidableEq E]

/-- The sets reached by steps whose removals meet the first condition and whose unions the second. -/
inductive Reach (T : Terms E) (onRemove : KillType → E → Map E → Prop) (onUnion : Map E → Map E → Prop) :
    Map E → Prop
  | empty : Reach T onRemove onUnion Map.empty
  | unite (a : E) (la : Lvalues E) (b : E) (lb : Lvalues E) (m : Map E) :
      Reach T onRemove onUnion m → Reach T onRemove onUnion (unite T a la b lb m)
  | remove (kind : KillType) (e : E) (m m' : Map E) : Reach T onRemove onUnion m → onRemove kind e m →
      remove T kind e m = some m' → Reach T onRemove onUnion m'
  | union (m1 m2 : Map E) : Reach T onRemove onUnion m1 → Reach T onRemove onUnion m2 → onUnion m1 m2 →
      Reach T onRemove onUnion (union T m1 m2)
  | inter (m1 m2 : Map E) : Reach T onRemove onUnion m1 → Reach T onRemove onUnion m2 →
      Reach T onRemove onUnion (inter m1 m2)

def ShortChains (m1 m2 : Map E) : Prop := Short m1.findOption m2.findOption

theorem Reach.partition {T : Terms E} {m : Map E} (h : Reach T Apart ShortChains m) : Partition m.findOption := by
  induction h with
  | empty => exact partition_empty
  | unite a la b lb m _ ih => exact unite_partition T ih a la b lb
  | remove kind e m m' _ hcond hm' ih =>
    obtain ⟨m1,hm1,hpart⟩ := remove_spec T ih hcond
    rw [hm'] at hm1
    cases hm1
    exact hpart
  | union m1 m2 _ _ hcond ih1 ih2 => exact union_partition T ih1 ih2 hcond
  | inter m1 m2 _ _ ih1 ih2 =>
    rw [findOption_inter]
    exact ih1.meet ih2

/-- In every run whose removals and unions meet the conditions the sets stay partitions, no assertion fails, and `unite`,
`union` and `inter` relate exactly the pairs of the closure and of the intersection, for every order of the terms. -/
theorem equalities_partition (T : Terms E) {m : Map E} (h : Reach T Apart ShortChains m) :
    (∀ x, m.findOption x ≠ ∅ → x ∈ m.findOption x ∧ 2 ≤ (m.findOption x).card ∧
      ∀ y ∈ m.findOption x, m.findOption y = m.findOption x) ∧
    (∀ kind e, Apart kind e m → ∃ m', remove T kind e m = some m') ∧
    (∀ a la b lb x y, Related (unite T a la b lb m).findOption x y ↔
      Relation.EqvGen (fun u v => Related m.findOption u v ∨ (u = a ∧ v = b)) x y) ∧
    (∀ m2, Reach T Apart ShortChains m2 → ShortChains m m2 → ∀ x y, Related (union T m m2).findOption x y ↔
      Relation.EqvGen (fun u v => Related m.findOption u v ∨ Related m2.findOption u v) x y) ∧
    ∀ m2, Reach T Apart ShortChains m2 → ∀ x y, Related (inter m m2).findOption x y ↔
      Related m.findOption x y ∧ Related m2.findOption x y := by
  have hp := h.partition
  refine ⟨?_,?_,?_,?_,?_⟩
  · intro x hx
    exact ⟨hp.mem_self x hx,hp.two_le x hx,fun y hy => hp.eq_of_mem hy⟩
  · intro kind e hcond
    obtain ⟨m',hm',_⟩ := remove_spec T hp hcond
    exact ⟨m',hm'⟩
  · intro a la b lb x y
    by_cases hab : a = b
    · unfold unite
      rw [if_pos hab]
      constructor
      · intro hr
        exact .rel _ _ (Or.inl hr)
      · apply hp.eqvGen_le
        rintro u v (huv | ⟨rfl,rfl⟩)
        · exact huv
        · exact Or.inl hab
    · rw [findOption_unite T hab]
      exact related_merge hp hab x y
  · intro m2 h2 hcond x y
    exact union_related T hp h2.partition hcond x y
  · intro m2 h2 x y
    rw [findOption_inter]
    exact related_meet hp h2.partition x y

/-- Eight terms, all lvalues but the address of the lvalue `1`, in the order of their identifiers. -/
def eightTerms : Terms (Fin 8) where
  isLval e := e != 6
  syntacticLvalues e := if e = 6 then ⟨∅,{1}⟩ else ⟨{e},∅⟩
  replace _ _ _ _ := none
  heightExpr _ := 1
  elements s := (List.finRange 8).filter fun e => decide (e ∈ s)
  mem_elements := by simp
  nodup_elements s := (List.nodup_finRange 8).filter _
  shape s t :=
    let key e := if e ∈ s ∩ t then Shape.leaf e else Shape.empty
    .node (.node (.node (key 0) (key 1)) (.node (key 2) (key 3))) (.node (.node (key 4) (key 5)) (.node (key 6) (key 7)))
  mem_shape := by
    intro s t e
    have hkey : ∀ k : Fin 8, e ∈ (if k ∈ s ∩ t then Shape.leaf k else Shape.empty).keys ↔ e = k ∧ e ∈ s ∧ e ∈ t := by
      intro k
      split
      · rename_i hk
        simp only [Shape.keys,List.mem_singleton]
        constructor
        · rintro rfl
          exact ⟨rfl,Finset.mem_inter.1 hk⟩
        · exact And.left
      · rename_i hk
        simp only [Shape.keys,List.not_mem_nil,false_iff]
        rintro ⟨rfl,hmem⟩
        exact hk (Finset.mem_inter.2 hmem)
    simp only [Shape.keys,List.mem_append,hkey]
    constructor
    · tauto
    · rintro ⟨hes,het⟩
      have hall : ∀ x : Fin 8, ((x = 0 ∨ x = 1) ∨ x = 2 ∨ x = 3) ∨ (x = 4 ∨ x = 5) ∨ x = 6 ∨ x = 7 := by decide
      simpa only [hes,het,and_true] using hall e

/-- The lvalues of the pairs are equal, each with no other lvalue in it. -/
def pairs (a b a' b' : Fin 8) : Map (Fin 8) :=
  unite eightTerms a emptyLvalues b emptyLvalues (unite eightTerms a' emptyLvalues b' emptyLvalues Map.empty)

theorem reach_pairs (onRemove : KillType → Fin 8 → Map (Fin 8) → Prop) (onUnion : Map (Fin 8) → Map (Fin 8) → Prop)
    (a b a' b' : Fin 8) : Reach eightTerms onRemove onUnion (pairs a b a' b') :=
  Reach.unite a _ b _ _ (Reach.unite a' _ b' _ _ Reach.empty)

theorem equalities_partition_pairs : 2 ∈ (pairs 0 2 3 4).findOption 2 ∧ 2 ≤ ((pairs 0 2 3 4).findOption 2).card := by
  have h := (equalities_partition eightTerms (reach_pairs Apart ShortChains 0 2 3 4)).1 2 (by decide)
  exact ⟨h.1,h.2.1⟩

/-- A chain of four equalities is cut: the last term keeps an equality that its members do not have. A term that contains
the address of an lvalue equal to it makes the removal of the lvalue fail. -/
theorem equalities_not_partition :
    (∃ m, Reach eightTerms (fun _ _ _ => True) (fun _ _ => True) m ∧ m = union eightTerms (pairs 0 2 3 4) (pairs 2 3 4 5) ∧
      m.findOption 5 = {4,5} ∧ m.findOption 4 = {0,2,3,4}) ∧
    ∃ m, Reach eightTerms (fun _ _ _ => True) (fun _ _ => True) m ∧
      m = unite eightTerms 1 emptyLvalues 6 (eightTerms.syntacticLvalues 6) Map.empty ∧
      remove eightTerms .deleted 1 m = none := by
  constructor
  · refine ⟨_,Reach.union _ _ (reach_pairs _ _ 0 2 3 4) (reach_pairs _ _ 2 3 4 5) trivial,rfl,?_,?_⟩
    · decide
    · decide
  · refine ⟨_,Reach.unite 1 _ 6 _ _ Reach.empty,rfl,?_⟩
    rw [← Option.isNone_iff_eq_none]
    decide

end FramaC.Equality

/-! ## The sets of equalities of the equality domain

What `kill` relies on holds of the sets of equalities: a removal that does not fail keeps the partition, leaves the
lvalue in no equality and puts no other lvalue into one.
-/
namespace FramaC.Equality

open EqualityDomain Classes

variable {E : Type} [DecidableEq E] {T : Terms E}

theorem Partition.shrink_empty {c : E → Finset E} (h : Partition c) (e : E) {x : E} (hx : c x = ∅) :
    shrink c e x = ∅ := by
  rw [h.shrink_of_notMem (by simp [hx]),hx]

theorem Partition.merge_empty {c : E → Finset E} (h : Partition c) {a b x : E} (ha : x ≠ a) (hb : x ≠ b)
    (hx : c x = ∅) : merge c a b x = ∅ := by
  rw [merge_of_notMem,hx]
  simp only [Finset.mem_union,Finset.mem_insert,Finset.mem_singleton]
  rintro (((rfl | rfl) | hxa) | hxb)
  · exact ha rfl
  · exact hb rfl
  · exact ne_empty_of_mem (h.mem_comm hxa) hx
  · exact ne_empty_of_mem (h.mem_comm hxb) hx

theorem foldlM_rebind_none {equality : Finset E} {l : List E} {m m' : Map E}
    (h : l.foldlM (fun m key => (m.find key).map fun d => m.bind key (rebind T equality key d)) m = some m') {k : E}
    (hk : m.find k = none) : k ∉ l ∧ m'.find k = none := by
  induction l generalizing m with
  | nil =>
    cases h
    exact ⟨List.not_mem_nil,hk⟩
  | cons e l ih =>
    rw [List.foldlM_cons,Option.bind_eq_bind,Option.bind_eq_some_iff] at h
    obtain ⟨m1,hm1,h⟩ := h
    obtain ⟨d,hd,rfl⟩ := Option.map_eq_some_iff.1 hm1
    have hke : k ≠ e := by
      rintro rfl
      rw [hk] at hd
      cases hd
    obtain ⟨hkl,hm'⟩ := ih h (by rw [Map.find_bind,if_neg hke]; exact hk)
    exact ⟨fun hmem => (List.mem_cons.1 hmem).elim hke hkl,hm'⟩

theorem replaceByEquality_none {equality : Finset E} {m m' : Map E} (h : replaceByEquality T equality m = some m')
    {k : E} (hk : m.find k = none) : k ∉ equality ∧ m'.find k = none := by
  obtain ⟨hmem,hm'⟩ := foldlM_rebind_none h hk
  exact ⟨fun hke => hmem ((T.mem_elements _ _).2 hke),hm'⟩

theorem Map.find_remove (m : Map E) (e x : E) : (m.remove e).find x = if x = e then none else m.find x :=
  Map.find_bind m e none x

theorem removeFromEqualities_none {e : E} {m m' : Map E} (h : removeFromEqualities T e m = some m') {k : E}
    (hk : m.find k = none) : m'.find k = none := by
  unfold removeFromEqualities at h
  split at h
  · cases h
    exact hk
  · obtain ⟨m1,hm1,rfl⟩ := Option.map_eq_some_iff.1 h
    rw [Map.find_remove]
    split
    · rfl
    · exact (replaceByEquality_none hm1 hk).2

theorem removeFromEqualities_self {e : E} {m m' : Map E} (h : removeFromEqualities T e m = some m')
    (hne : m.findOption e ≠ ∅) : m'.find e = none := by
  unfold removeFromEqualities at h
  rw [if_neg hne] at h
  obtain ⟨m1,_,rfl⟩ := Option.map_eq_some_iff.1 h
  rw [Map.find_remove,if_pos rfl]

theorem removeFromEqualities_eq {e : E} {m : Map E} (hempty : m.findOption e = ∅) :
    removeFromEqualities T e m = some m := by
  unfold removeFromEqualities
  rw [if_pos hempty]

theorem findOption_of_removeFromEqualities {e : E} {m m' : Map E} (hp : Partition m.findOption)
    (h : removeFromEqualities T e m = some m') : m'.findOption = shrink m.findOption e := by
  obtain ⟨m1,hm1,hfind⟩ := removeFromEqualities_spec T hp e
  rw [h] at hm1
  cases hm1
  exact hfind

/-- Where the equality read before the removals can be: still there, left by the lvalue alone, or with a member that has
left the map. -/
def Stage (equality : Finset E) (elt : E) (m : Map E) : Prop :=
  (m.findOption elt = equality ∧ ∀ x ∈ equality, m.findOption x = equality) ∨
  (m.findOption elt = ∅ ∧ ∀ x ∈ equality.erase elt, m.findOption x = proper (equality.erase elt)) ∨
  ∃ k ∈ equality.erase elt, m.find k = none

theorem Stage.step {equality : Finset E} {elt : E} {m m' : Map E} (hs : Stage equality elt m)
    (hp : Partition m.findOption) {e : E} (h : removeFromEqualities T e m = some m') : Stage equality elt m' := by
  have hfind := findOption_of_removeFromEqualities hp h
  rcases hs with ⟨helt,hall⟩ | ⟨helt,hall⟩ | ⟨k,hk,hnone⟩
  · by_cases he : e ∈ equality
    · by_cases hee : e = elt
      · right
        left
        subst hee
        rw [hfind]
        refine ⟨shrink_self _ _,?_⟩
        intro x hx
        obtain ⟨hxe,hx⟩ := Finset.mem_erase.1 hx
        rw [shrink_of_mem hxe (by rw [helt]; exact hx),helt]
      · right
        right
        exact ⟨e,Finset.mem_erase.2 ⟨hee,he⟩,
          removeFromEqualities_self h (by rw [hall e he]; exact ne_empty_of_mem he)⟩
    · left
      rw [hfind]
      constructor
      · rw [hp.shrink_of_notMem (by rw [helt]; exact he),helt]
      · intro x hx
        rw [hp.shrink_of_notMem (by rw [hall x hx]; exact he),hall x hx]
  · by_cases he : e ∈ equality.erase elt
    · by_cases hempty : m.findOption e = ∅
      · rw [removeFromEqualities_eq hempty] at h
        cases h
        exact Or.inr (Or.inl ⟨helt,hall⟩)
      · right
        right
        exact ⟨e,he,removeFromEqualities_self h hempty⟩
    · right
      left
      rw [hfind]
      constructor
      · exact Partition.shrink_empty hp e helt
      · intro x hx
        rw [hp.shrink_of_notMem,hall x hx]
        rw [hall x hx]
        intro hmem
        rw [mem_proper hmem] at hmem
        exact he hmem
  · right
    right
    exact ⟨k,hk,removeFromEqualities_none h hnone⟩

theorem Stage.foldlM {equality : Finset E} {elt : E} (l : List E) {m m' : Map E} (hs : Stage equality elt m)
    (hp : Partition m.findOption) (h : l.foldlM (fun m e => removeFromEqualities T e m) m = some m') :
    Stage equality elt m' := by
  have hstep : ∀ m1 e m2, e ∈ l → Stage equality elt m1 ∧ Partition m1.findOption →
      removeFromEqualities T e m1 = some m2 → Stage equality elt m2 ∧ Partition m2.findOption := by
    rintro m1 e m2 _ ⟨hs1,hp1⟩ hm2
    refine ⟨hs1.step hp1 hm2,?_⟩
    rw [findOption_of_removeFromEqualities hp1 hm2]
    exact hp1.shrink e
  exact (Outcome.foldlM_invariant ⟨hs,hp⟩ hstep h).1

theorem foldlM_removeFromEqualities_empty (l : List E) {m m' : Map E} (hp : Partition m.findOption)
    (h : l.foldlM (fun m e => removeFromEqualities T e m) m = some m') :
    Partition m'.findOption ∧ ∀ x, m.findOption x = ∅ → m'.findOption x = ∅ := by
  have hstep : ∀ m1 e m2, e ∈ l → (Partition m1.findOption ∧ ∀ x, m.findOption x = ∅ → m1.findOption x = ∅) →
      removeFromEqualities T e m1 = some m2 →
      Partition m2.findOption ∧ ∀ x, m.findOption x = ∅ → m2.findOption x = ∅ := by
    rintro m1 e m2 _ ⟨hp1,hkeep⟩ hm2
    rw [findOption_of_removeFromEqualities hp1 hm2]
    exact ⟨hp1.shrink e,fun x hx => Partition.shrink_empty hp1 e (hkeep x hx)⟩
  exact Outcome.foldlM_invariant (P := fun m1 => Partition m1.findOption ∧
    ∀ x, m.findOption x = ∅ → m1.findOption x = ∅) ⟨hp,fun _ hx => hx⟩ hstep h

theorem Stage.leave {equality : Finset E} {elt : E} {m m' : Map E} (hs : Stage equality elt m)
    (hp : Partition m.findOption) (h : replaceByEquality T (equality.erase elt) m = some m') :
    Partition (m'.remove elt).findOption ∧ (m'.remove elt).findOption elt = ∅ ∧
      ∀ x, x ∉ equality → m.findOption x = ∅ → (m'.remove elt).findOption x = ∅ := by
  have hself : (m'.remove elt).findOption elt = ∅ := by
    rw [Map.findOption_remove,if_pos rfl]
  have hkey : (m'.remove elt).findOption = shrink m.findOption elt ∨ (m'.remove elt).findOption = m.findOption := by
    rcases hs with ⟨helt,_⟩ | ⟨helt,hall⟩ | ⟨k,hk,hnone⟩
    · left
      obtain ⟨m1,hm1,hfind⟩ := rebind_spec T hp elt
      rw [helt,h] at hm1
      cases hm1
      exact hfind
    · right
      have hb : ∀ k ∈ equality.erase elt, (m.find k).isSome = true := by
        intro k hk
        by_contra hcon
        exact (replaceByEquality_none h (Option.not_isSome_iff_eq_none.1 hcon)).1 hk
      obtain ⟨m1,hm1,hfind⟩ := replaceByEquality_spec T (equality.erase elt) m hb
      rw [h] at hm1
      cases hm1
      funext x
      rw [Map.findOption_remove,hfind]
      by_cases hx : x = elt
      · rw [if_pos hx,hx,helt]
      · rw [if_neg hx]
        split
        · rename_i hmem
          rw [hall x hmem]
        · rfl
    · exact absurd hk (replaceByEquality_none h hnone).1
  refine ⟨?_,hself,?_⟩
  · rcases hkey with hkey | hkey
    · rw [hkey]
      exact hp.shrink elt
    · rw [hkey]
      exact hp
  · intro x _ hx
    rcases hkey with hkey | hkey
    · rw [hkey]
      exact Partition.shrink_empty hp elt hx
    · rw [hkey,hx]

/-- A replacement only gives an lvalue for an lvalue: the term itself or the heir. -/
def KeepsExpressions (T : Terms E) : Prop := ∀ kind late heir e e', T.replace kind late heir e = some e' →
  T.isLval e' = true → e' = e ∨ e' = heir

theorem replaceInElement_empty (hT : KeepsExpressions T) {kind : KillType} {e late heir : E} {m m' : Map E}
    (hp : Partition m.findOption) (h : replaceInElement T kind e late heir m = some m') {x : E}
    (hlval : T.isLval x = true) (hheir : x ≠ heir) (hx : m.findOption x = ∅) : m'.findOption x = ∅ := by
  unfold replaceInElement at h
  split at h
  · cases hr : T.replace kind late heir e with
    | none =>
      simp only [hr] at h
      rw [findOption_of_removeFromEqualities hp h]
      exact Partition.shrink_empty hp e hx
    | some newElt =>
      simp only [hr] at h
      generalize (if T.isLval newElt = true then emptyLvalues else T.syntacticLvalues newElt) = newLvalues at h
      have hu := unite_partition T hp e emptyLvalues newElt newLvalues
      have hxu : x ≠ e → (unite T e emptyLvalues newElt newLvalues m).findOption x = ∅ := by
        intro hxe
        by_cases hen : e = newElt
        · unfold unite
          rw [if_pos hen]
          exact hx
        · rw [findOption_unite T hen]
          apply Partition.merge_empty hp hxe _ hx
          rintro rfl
          exact (hT kind late heir e x hr hlval).elim hxe hheir
      generalize unite T e emptyLvalues newElt newLvalues m = m1 at h hu hxu
      have hb : ∀ k ∈ (m1.findOption e).erase e, ((m1.remove e).find k).isSome = true := by
        intro k hk
        obtain ⟨hke,hk⟩ := Finset.mem_erase.1 hk
        rw [Map.find_remove,if_neg hke]
        exact find_isSome_of_mem_class hu hk
      obtain ⟨m2,hm2,hfind⟩ := replaceByEquality_spec T _ _ hb
      rw [h] at hm2
      cases hm2
      rw [hfind,Map.findOption_remove]
      by_cases hxe : x = e
      · simp [hxe]
      · rw [if_neg hxe,hxu hxe,if_neg]
        intro hmem
        exact ne_empty_of_mem (hu.mem_comm (Finset.mem_of_mem_erase hmem)) (hxu hxe)
  · cases h
    exact hx

theorem foldlM_replaceInElement_empty (hT : KeepsExpressions T) {kind : KillType} {late heir : E} (l : List E)
    {m m' : Map E} (hp : Partition m.findOption)
    (h : l.foldlM (fun m e => replaceInElement T kind e late heir m) m = some m') :
    Partition m'.findOption ∧
      ∀ x, T.isLval x = true → x ≠ heir → m.findOption x = ∅ → m'.findOption x = ∅ := by
  have hstep : ∀ m1 e m2, e ∈ l → (Partition m1.findOption ∧
      ∀ x, T.isLval x = true → x ≠ heir → m.findOption x = ∅ → m1.findOption x = ∅) →
      replaceInElement T kind e late heir m1 = some m2 → Partition m2.findOption ∧
      ∀ x, T.isLval x = true → x ≠ heir → m.findOption x = ∅ → m2.findOption x = ∅ := by
    rintro m1 e m2 _ ⟨hp1,hkeep⟩ hm2
    obtain ⟨m2',hm2',hp2⟩ := replaceInElement_spec T kind e late heir hp1
    rw [hm2] at hm2'
    cases hm2'
    refine ⟨hp2,?_⟩
    intro x hlval hheir hx
    exact replaceInElement_empty hT hp1 hm2 hlval hheir (hkeep x hlval hheir hx)
  exact Outcome.foldlM_invariant (P := fun m1 => Partition m1.findOption ∧
    ∀ x, T.isLval x = true → x ≠ heir → m.findOption x = ∅ → m1.findOption x = ∅)
    ⟨hp,fun _ _ _ hx => hx⟩ hstep h

theorem pickRepresentative_mem {set : Finset E} (hne : set ≠ ∅) (default : E) :
    pickRepresentative T set default ∈ set := by
  have hhead : (T.elements set).headD default ∈ set := by
    obtain ⟨x,hx⟩ := Finset.nonempty_iff_ne_empty.2 hne
    have hx' := (T.mem_elements set x).2 hx
    cases hl : T.elements set with
    | nil =>
      rw [hl] at hx'
      cases hx'
    | cons y l =>
      apply (T.mem_elements set y).1
      rw [hl]
      exact List.mem_cons_self
  have hfold : ∀ (l : List E) (current : E), current ∈ set → (∀ x ∈ l, x ∈ set) →
      l.foldl (fun current elt => if T.heightExpr elt < T.heightExpr current then elt else current) current ∈ set := by
    intro l
    induction l with
    | nil => exact fun _ hcur _ => hcur
    | cons e l ih =>
      intro current hcur hl
      apply ih
      · dsimp only
        split
        · exact hl e List.mem_cons_self
        · exact hcur
      · exact fun x hx => hl x (List.mem_cons_of_mem e hx)
  apply hfold _ _ hhead
  intro x hx
  exact Finset.mem_of_mem_erase ((T.mem_elements _ _).1 hx)

theorem remove_empty (hT : KeepsExpressions T) {kind : KillType} {elt : E} (hlval : T.isLval elt = true) {m m' : Map E}
    (hp : Partition m.findOption) (h : remove T kind elt m = some m') :
    Partition m'.findOption ∧ m'.findOption elt = ∅ ∧
      ∀ x, T.isLval x = true → m.findOption x = ∅ → m'.findOption x = ∅ := by
  unfold remove at h
  cases hd : m.find elt with
  | none =>
    simp only [hd] at h
    cases h
    refine ⟨hp,?_,fun _ _ hx => hx⟩
    unfold Map.findOption
    rw [hd]
    rfl
  | some d =>
    simp only [hd] at h
    have hdeq : m.findOption elt = d.equality := by
      unfold Map.findOption
      rw [hd]
      rfl
    obtain ⟨m1,hm1,h⟩ := Option.bind_eq_some_iff.1 h
    obtain ⟨m2,hm2,h⟩ := Option.bind_eq_some_iff.1 h
    have hstage : Stage d.equality elt m :=
      Or.inl ⟨hdeq,fun x hx => (hp.eq_of_mem (by rw [hdeq]; exact hx)).trans hdeq⟩
    have hfirst : Stage d.equality elt m1 ∧ Partition m1.findOption ∧
        ∀ x, m.findOption x = ∅ → m1.findOption x = ∅ := by
      split at hm1
      · exact ⟨hstage.foldlM _ hp hm1,foldlM_removeFromEqualities_empty _ hp hm1⟩
      · cases hm1
        exact ⟨hstage,hp,fun _ hx => hx⟩
    obtain ⟨hstage1,hp1,hkeep1⟩ := hfirst
    obtain ⟨hp2,helt2,hkeep2⟩ := hstage1.leave hp1 hm2
    have hout : ∀ x, m.findOption x = ∅ → x ∉ d.equality := by
      intro x hx hmem
      rw [← hdeq] at hmem
      exact ne_empty_of_mem (hp.mem_comm hmem) hx
    have hkeep : ∀ x, m.findOption x = ∅ → (m2.remove elt).findOption x = ∅ :=
      fun x hx => hkeep2 x (hout x hx) (hkeep1 x hx)
    split at h
    · obtain ⟨hp',hkeep3⟩ := foldlM_removeFromEqualities_empty _ hp2 h
      exact ⟨hp',hkeep3 elt helt2,fun x _ hx => hkeep3 x (hkeep x hx)⟩
    · rename_i hne
      have hrep := pickRepresentative_mem (T := T) hne elt
      have hrep' := (Finset.mem_sdiff.1 hrep).1
      obtain ⟨hp',hkeep3⟩ := foldlM_replaceInElement_empty hT _ hp2 h
      refine ⟨hp',hkeep3 elt hlval (Ne.symm (Finset.ne_of_mem_erase hrep')) helt2,?_⟩
      intro x hxl hx
      apply hkeep3 x hxl _ (hkeep x hx)
      rintro rfl
      exact hout _ hx (Finset.mem_of_mem_erase hrep')

def equalitySet (T : Terms E) : EqualitySet (Map E) E {e : E // T.isLval e = true} where
  empty := Map.empty
  inter := inter
  remove kt a m := remove T kt a.1 m
  lvaluesOnlyLeft m1 m2 := (T.elements (m1.dom \ m2.dom)).filter fun e => T.isLval e

def On (m : Map E) (a : {e : E // T.isLval e = true}) : Prop := ∃ x, a.1 ∈ m.findOption x

theorem on_iff {m : Map E} (hp : Partition m.findOption) (a : {e : E // T.isLval e = true}) :
    On m a ↔ m.findOption a.1 ≠ ∅ := by
  constructor
  · rintro ⟨x,hx⟩
    exact ne_empty_of_mem (hp.mem_comm hx)
  · intro hne
    exact ⟨a.1,hp.mem_self a.1 hne⟩

theorem equalitySet_lawful (hT : KeepsExpressions T) :
    (equalitySet T).Lawful (fun m => Partition m.findOption) On where
  wf_remove _ a _ _ hp h := (remove_empty hT a.2 hp h).1
  remove_self := by
    intro kt a m m' hp h hon
    obtain ⟨hp',hempty,_⟩ := remove_empty hT a.2 hp h
    exact (on_iff hp' a).1 hon hempty
  remove_other := by
    intro kt a c m m' hp h hon
    obtain ⟨hp',_,hkeep⟩ := remove_empty hT a.2 hp h
    apply (on_iff hp c).2
    intro hcon
    exact (on_iff hp' c).1 hon (hkeep c.1 c.2 hcon)

end FramaC.Equality
