import FramaC.Equality.Set

/-! # Unions and intersections of sets of equalities

`union` merges the two maps pointwise and then gathers the equalities that overlap, along the shape of the maps. When
overlaps reached through one another share an equality, every order of the keys gathers the same terms.
-/
namespace FramaC.Equality

open EqualityDomain Classes

variable {E : Type} [DecidableEq E] (T : Terms E)

theorem foldl_process (set : Map E) (l : List E) (acc : List E × Finset E) :
    (∀ x, x ∈ (l.foldl (process set) acc).1 ↔ x ∈ acc.1 ∨ (x ∈ l ∧ set.findOption x ≠ ∅)) ∧
    ∀ x, x ∈ (l.foldl (process set) acc).2 ↔ x ∈ acc.2 ∨ ∃ e ∈ l, x ∈ set.findOption e := by
  induction l generalizing acc with
  | nil => simp
  | cons e l ih =>
    rw [List.foldl_cons]
    obtain ⟨ih1,ih2⟩ := ih (process set acc e)
    have hstep1 : ∀ x, x ∈ (process set acc e).1 ↔ x ∈ acc.1 ∨ (x = e ∧ set.findOption x ≠ ∅) := by
      intro x
      unfold process
      split
      · rename_i hempty
        constructor
        · exact Or.inl
        · rintro (h | ⟨rfl,h⟩)
          · exact h
          · exact absurd hempty h
      · rename_i hne
        rw [List.mem_cons]
        constructor
        · rintro (rfl | h)
          · exact Or.inr ⟨rfl,hne⟩
          · exact Or.inl h
        · rintro (h | ⟨rfl,_⟩)
          · exact Or.inr h
          · exact Or.inl rfl
    have hstep2 : ∀ x, x ∈ (process set acc e).2 ↔ x ∈ acc.2 ∨ x ∈ set.findOption e := by
      intro x
      unfold process
      split
      · rename_i hempty
        simp [hempty]
      · exact Finset.mem_union
    constructor
    · intro x
      rw [ih1,hstep1,List.mem_cons,or_assoc,or_and_right]
    · intro x
      rw [ih2,hstep2,or_assoc]
      simp

theorem foldl_bind_findOption (equality : Finset E) (l : List E) (set : Map E) (x : E) :
    (l.foldl (fun m k => m.bind k (some ⟨equality,∅,∅⟩)) set).findOption x =
      if x ∈ l then equality else set.findOption x := by
  induction l generalizing set with
  | nil => rfl
  | cons e l ih =>
    rw [List.foldl_cons,ih,Map.findOption_bind]
    by_cases hl : x ∈ l
    · simp [hl]
    · simp [hl]

theorem foldl_bind_dom (equality : Finset E) (l : List E) (set : Map E) (x : E) :
    x ∈ (l.foldl (fun m k => m.bind k (some ⟨equality,∅,∅⟩)) set).dom ↔ x ∈ l ∨ x ∈ set.dom := by
  induction l generalizing set with
  | nil => simp
  | cons e l ih =>
    rw [List.foldl_cons,ih,List.mem_cons]
    simp only [Map.bind,Option.isSome_some,if_true,Finset.mem_insert]
    tauto

theorem mem_dom_of_findOption {set : Map E} {x : E} (h : set.findOption x ≠ ∅) : x ∈ set.dom := by
  obtain ⟨y,hy⟩ := Finset.nonempty_iff_ne_empty.2 h
  exact (set.mem_dom x).2 (Map.find_isSome_of_mem hy)

theorem add_spec (key : E) (equality : Finset E) (set : Map E) :
    ∃ gathered : Finset E, (∀ x, x ∈ gathered ↔ x ∈ equality ∨ ∃ e ∈ equality, x ∈ set.findOption e) ∧
      (∀ x, (add T key equality set).findOption x =
        if x = key ∨ (x ∈ equality ∧ set.findOption x ≠ ∅) then gathered else set.findOption x) ∧
      ∀ x, x ∈ (add T key equality set).dom ↔ x = key ∨ x ∈ set.dom := by
  obtain ⟨h1,h2⟩ := foldl_process set (T.elements equality) ([key],equality)
  refine ⟨((T.elements equality).foldl (process set) ([key],equality)).2,?_,?_,?_⟩
  · intro x
    rw [h2]
    simp only [T.mem_elements]
  · intro x
    unfold add
    rw [foldl_bind_findOption]
    simp only [h1,List.mem_singleton,T.mem_elements]
  · intro x
    unfold add
    rw [foldl_bind_dom,h1,List.mem_singleton]
    constructor
    · rintro ((rfl | ⟨_,hne⟩) | hdom)
      · exact Or.inl rfl
      · exact Or.inr (mem_dom_of_findOption hne)
      · exact Or.inr hdom
    · rintro (rfl | hdom)
      · exact Or.inl (Or.inl rfl)
      · exact Or.inr hdom

/-- The map binds each of the keys to what the keys gather for it. -/
structure Gathered (c d : E → Finset E) (K : Finset E) (set : Map E) : Prop where
  mem_dom : ∀ x, x ∈ set.dom ↔ x ∈ K
  findOption_eq : ∀ x, set.findOption x = if x ∈ K then gather c d K x else ∅

/-- The same in the middle of a join, where the keys of `P` have been added. -/
structure Gathering (c d : E → Finset E) (K K' P : Finset E) (set : Map E) : Prop where
  mem_dom : ∀ x, x ∈ set.dom ↔ x ∈ K ∨ x ∈ P
  reached : ∀ x, x ∈ K ∨ x ∈ P → (∃ p ∈ P, p ∈ c x ∪ d x) → set.findOption x = gather c d (K ∪ K') x
  waiting : ∀ x, x ∈ K ∨ x ∈ P → (¬ ∃ p ∈ P, p ∈ c x ∪ d x) → set.findOption x = gather c d K x

theorem gather_mono {c d : E → Finset E} {K K' : Finset E} (h : K ⊆ K') (k : E) : gather c d K k ⊆ gather c d K' k := by
  intro x hx
  obtain ⟨l,hl,hn,hx⟩ := mem_gather.1 hx
  exact mem_gather.2 ⟨l,h hl,hn,hx⟩

section Closure

variable {c d : E → Finset E} {K K' P : Finset E}
variable (hc : Partition c) (hd : Partition d) (hs : Short c d) (hK : ∀ k, k ∈ K → Overlap c d k)
  (hK' : ∀ k, k ∈ K' → Overlap c d k)

include hc hd hs hK hK'

theorem Gathering.step {set : Map E} (hP : P ⊆ K') (h : Gathering c d K K' P set) {k : E} (hk : k ∈ K') :
    Gathering c d K K' (insert k P) (add T k (gather c d K' k) set) := by
  obtain ⟨gathered,hmem,hfind,hdom⟩ := add_spec T k (gather c d K' k) set
  have hKK : ∀ x, x ∈ K ∪ K' → Overlap c d x := by
    intro x hx
    exact (Finset.mem_union.1 hx).elim (hK x) (hK' x)
  have hov : ∀ x, x ∈ K ∨ x ∈ P → Overlap c d x := by
    rintro x (hx | hx)
    · exact hK x hx
    · exact hK' x (hP hx)
  have hkk := hK' k hk
  -- the keys met in the added equality are the ones that share a class with the added key
  have hmet : ∀ x, x ∈ K ∨ x ∈ P → (x ∈ gather c d K' k ↔ x ∈ c k ∪ d k) := by
    intro x hx
    constructor
    · intro hg
      obtain ⟨l,hl,hn,hxl⟩ := mem_gather.1 hg
      exact hs k l x hkk (hK' l hl) (hov x hx) hn hxl
    · intro hn
      exact mem_gather.2 ⟨k,hk,near_self hc hkk,hn⟩
  have hsub : ∀ x, x ∈ K ∨ x ∈ P → set.findOption x ⊆ gather c d (K ∪ K') x := by
    intro x hx
    by_cases hp : ∃ p ∈ P, p ∈ c x ∪ d x
    · rw [h.reached x hx hp]
    · rw [h.waiting x hx hp]
      exact gather_mono Finset.subset_union_left x
  have hne : ∀ x, x ∈ K ∨ x ∈ P → set.findOption x ≠ ∅ := by
    intro x hx
    by_cases hp : ∃ p ∈ P, p ∈ c x ∪ d x
    · rw [h.reached x hx hp]
      have hxKK : x ∈ K ∪ K' := Finset.mem_union.2 (hx.imp id (fun hxP => hP hxP))
      exact ne_empty_of_mem (subset_gather hc hd hKK hxKK (near_self hc (hov x hx)))
    · rw [h.waiting x hx hp]
      have hxK : x ∈ K := by
        rcases hx with hx | hx
        · exact hx
        · exact absurd ⟨x,hx,near_self hc (hK' x (hP hx))⟩ hp
      exact ne_empty_of_mem (subset_gather hc hd hK hxK (near_self hc (hK x hxK)))
  have hbound : ∀ x, ¬ (x ∈ K ∨ x ∈ P) → set.findOption x = ∅ := by
    intro x hx
    by_contra hcon
    exact hx ((h.mem_dom x).1 (mem_dom_of_findOption hcon))
  have hgathered : gathered = gather c d (K ∪ K') k := by
    ext y
    rw [hmem]
    constructor
    · rintro (hy | ⟨e,he,hy⟩)
      · exact gather_mono Finset.subset_union_right k hy
      · by_cases heb : e ∈ K ∨ e ∈ P
        · have hnear := (hmet e heb).1 he
          rw [gather_eq_of_near hc hd hs hKK hkk (hov e heb) hnear]
          exact hsub e heb hy
        · rw [hbound e heb] at hy
          cases hy
    · intro hy
      obtain ⟨l,hl,hn,hyl⟩ := mem_gather.1 hy
      rcases Finset.mem_union.1 hl with hlK | hlK'
      · right
        refine ⟨l,(hmet l (Or.inl hlK)).2 hn,?_⟩
        have hyg : y ∈ gather c d K l := subset_gather hc hd hK hlK hyl
        by_cases hp : ∃ p ∈ P, p ∈ c l ∪ d l
        · rw [h.reached l (Or.inl hlK) hp]
          exact gather_mono Finset.subset_union_left l hyg
        · rw [h.waiting l (Or.inl hlK) hp]
          exact hyg
      · exact Or.inl (mem_gather.2 ⟨l,hlK',hn,hyl⟩)
  have hnearfind : ∀ x, (x ∈ K ∨ x ∈ insert k P) → x ∈ c k ∪ d k →
      (add T k (gather c d K' k) set).findOption x = gather c d (K ∪ K') x := by
    intro x hx hn
    by_cases hxk : x = k
    · rw [hfind,if_pos (Or.inl hxk),hgathered,hxk]
    · have hxb : x ∈ K ∨ x ∈ P := by
        rcases hx with hx | hx
        · exact Or.inl hx
        · exact Or.inr ((Finset.mem_insert.1 hx).resolve_left hxk)
      rw [hfind,if_pos (Or.inr ⟨(hmet x hxb).2 hn,hne x hxb⟩),hgathered]
      exact gather_eq_of_near hc hd hs hKK hkk (hov x hxb) hn
  have hfarfind : ∀ x, (x ∈ K ∨ x ∈ insert k P) → x ∉ c k ∪ d k →
      (x ∈ K ∨ x ∈ P) ∧ (add T k (gather c d K' k) set).findOption x = set.findOption x := by
    intro x hx hn
    have hxk : x ≠ k := by
      rintro rfl
      exact hn (near_self hc hkk)
    have hxb : x ∈ K ∨ x ∈ P := by
      rcases hx with hx | hx
      · exact Or.inl hx
      · exact Or.inr ((Finset.mem_insert.1 hx).resolve_left hxk)
    refine ⟨hxb,?_⟩
    rw [hfind,if_neg]
    rintro (hxk' | ⟨hg,_⟩)
    · exact hxk hxk'
    · exact hn ((hmet x hxb).1 hg)
  constructor
  · intro x
    rw [hdom,h.mem_dom,Finset.mem_insert]
    tauto
  · intro x hx hp
    by_cases hn : x ∈ c k ∪ d k
    · exact hnearfind x hx hn
    · obtain ⟨hxb,heq⟩ := hfarfind x hx hn
      rw [heq]
      apply h.reached x hxb
      obtain ⟨p,hp,hpx⟩ := hp
      rcases Finset.mem_insert.1 hp with rfl | hp
      · exact absurd (near_comm hc hd hpx) hn
      · exact ⟨p,hp,hpx⟩
  · intro x hx hp
    by_cases hn : x ∈ c k ∪ d k
    · exact absurd ⟨k,Finset.mem_insert_self k P,near_comm hc hd hn⟩ hp
    · obtain ⟨hxb,heq⟩ := hfarfind x hx hn
      rw [heq]
      apply h.waiting x hxb
      rintro ⟨p,hpP,hpx⟩
      exact hp ⟨p,Finset.mem_insert_of_mem hpP,hpx⟩

theorem Gathering.foldl {set' : Map E} (h' : Gathered c d K' set') (l : List E) (hl : ∀ x ∈ l, x ∈ K') {set : Map E}
    (hP : P ⊆ K') (h : Gathering c d K K' P set) :
    Gathering c d K K' (P ∪ l.toFinset) (l.foldl (fun acc elt => add T elt (set'.findOption elt) acc) set) := by
  induction l generalizing P set with
  | nil => simpa using h
  | cons k l ih =>
    have hk : k ∈ K' := hl k List.mem_cons_self
    have hstep := Gathering.step T hc hd hs hK hK' hP h hk
    have hfind : set'.findOption k = gather c d K' k := by
      rw [h'.findOption_eq,if_pos hk]
    rw [List.foldl_cons,hfind]
    have hrest := ih (fun x hx => hl x (List.mem_cons_of_mem k hx)) (Finset.insert_subset hk hP) hstep
    have hset : P ∪ (k :: l).toFinset = insert k P ∪ l.toFinset := by
      ext x
      simp only [Finset.mem_union,List.mem_toFinset,List.mem_cons,Finset.mem_insert]
      tauto
    rw [hset]
    exact hrest

theorem Gathered.join {set set' : Map E} (h : Gathered c d K set) (h' : Gathered c d K' set') :
    Gathered c d (K ∪ K') (Equality.join T set set') := by
  have hstart : Gathering c d K K' ∅ set := by
    constructor
    · intro x
      rw [h.mem_dom]
      simp
    · rintro x _ ⟨p,hp,_⟩
      cases hp
    · rintro x (hx | hx) _
      · rw [h.findOption_eq,if_pos hx]
      · cases hx
  have hend := Gathering.foldl T hc hd hs hK hK' h' (T.elements set'.dom)
    (fun x hx => (h'.mem_dom x).1 ((T.mem_elements _ _).1 hx)) (Finset.empty_subset K') hstart
  have hP : ∅ ∪ (T.elements set'.dom).toFinset = K' := by
    ext x
    rw [Finset.empty_union,List.mem_toFinset,T.mem_elements,h'.mem_dom]
  rw [hP] at hend
  constructor
  · intro x
    unfold Equality.join
    rw [hend.mem_dom,Finset.mem_union]
  · intro x
    unfold Equality.join
    by_cases hx : x ∈ K ∪ K'
    · rw [if_pos hx]
      have hx' := Finset.mem_union.1 hx
      by_cases hp : ∃ p ∈ K', p ∈ c x ∪ d x
      · exact hend.reached x hx' hp
      · rw [hend.waiting x hx' hp]
        ext y
        rw [mem_gather,mem_gather]
        constructor
        · rintro ⟨l,hl,hn,hy⟩
          exact ⟨l,Finset.mem_union_left _ hl,hn,hy⟩
        · rintro ⟨l,hl,hn,hy⟩
          rcases Finset.mem_union.1 hl with hl | hl
          · exact ⟨l,hl,hn,hy⟩
          · exact absurd ⟨l,hl,hn⟩ hp
    · rw [if_neg hx]
      by_contra hcon
      exact hx (Finset.mem_union.2 ((hend.mem_dom x).1 (mem_dom_of_findOption hcon)))

end Closure

def overlaps (c d : E → Finset E) (shape : Shape E) : Finset E := shape.keys.toFinset.filter fun k => Overlap c d k

theorem mem_overlaps {c d : E → Finset E} {shape : Shape E} {k : E} :
    k ∈ overlaps c d shape ↔ k ∈ shape.keys ∧ Overlap c d k := by
  simp [overlaps]

theorem both_gathered (a b : Map E) (hc : Partition a.findOption) (key : E) :
    Gathered a.findOption b.findOption (overlaps a.findOption b.findOption (.leaf key)) (both a b key) := by
  have hmem : ∀ x, x ∈ overlaps a.findOption b.findOption (.leaf key) ↔
      x = key ∧ Overlap a.findOption b.findOption key := by
    intro x
    rw [mem_overlaps]
    simp only [Shape.keys,List.mem_singleton]
    constructor
    · rintro ⟨rfl,h⟩
      exact ⟨rfl,h⟩
    · rintro ⟨rfl,h⟩
      exact ⟨rfl,h⟩
  unfold both
  split
  · rename_i hno
    have hov : ¬ Overlap a.findOption b.findOption key := by
      unfold Overlap
      tauto
    constructor
    · intro x
      rw [hmem]
      simp [Map.empty,hov]
    · intro x
      rw [if_neg (fun hx => hov ((hmem x).1 hx).2)]
      rfl
  · rename_i hyes
    have hov : Overlap a.findOption b.findOption key := by
      unfold Overlap
      tauto
    constructor
    · intro x
      rw [hmem]
      simp [Map.bind,Map.empty,hov]
    · intro x
      rw [Map.findOption_bind]
      by_cases hx : x = key
      · subst hx
        rw [if_pos rfl,if_pos ((hmem x).2 ⟨rfl,hov⟩)]
        ext y
        rw [mem_gather]
        constructor
        · intro hy
          exact ⟨x,(hmem x).2 ⟨rfl,hov⟩,near_self hc hov,hy⟩
        · rintro ⟨l,hl,_,hy⟩
          rw [((hmem l).1 hl).1] at hy
          exact hy
      · rw [if_neg hx,if_neg (fun hmem' => hx ((hmem x).1 hmem').1)]
        rfl

section Union

variable {a b : Map E}
variable (hc : Partition a.findOption) (hd : Partition b.findOption) (hs : Short a.findOption b.findOption)

include hc hd hs

theorem closureAlong_gathered (shape : Shape E) :
    Gathered a.findOption b.findOption (overlaps a.findOption b.findOption shape) (closureAlong T a b shape) := by
  induction shape with
  | empty =>
    constructor
    · intro x
      simp [closureAlong,overlaps,Shape.keys,Map.empty]
    · intro x
      simp [closureAlong,overlaps,Shape.keys,Map.empty,Map.findOption]
  | leaf key => exact both_gathered a b hc key
  | node left right ihl ihr =>
    have hset : overlaps a.findOption b.findOption (.node left right) =
        overlaps a.findOption b.findOption left ∪ overlaps a.findOption b.findOption right := by
      ext x
      simp only [mem_overlaps,Shape.keys,List.mem_append,Finset.mem_union]
      tauto
    rw [hset]
    exact Gathered.join T hc hd hs (fun k hk => (mem_overlaps.1 hk).2) (fun k hk => (mem_overlaps.1 hk).2) ihl ihr

omit hc hd hs in
theorem mem_overlaps_shape (k : E) :
    k ∈ overlaps a.findOption b.findOption (T.shape a.dom b.dom) ↔ Overlap a.findOption b.findOption k := by
  rw [mem_overlaps,and_iff_right_iff_imp]
  intro hk
  exact (T.mem_shape a.dom b.dom k).2 ⟨mem_dom_of_findOption hk.1,mem_dom_of_findOption hk.2.1⟩

/-- The terms of the processed keys have their gathered equality, the others still their pointwise union. -/
structure Updated (c d : E → Finset E) (K P : Finset E) (acc : Map E × Finset E) : Prop where
  mem_processed : ∀ x, x ∈ acc.2 ↔ ∃ k ∈ P, x ∈ gather c d K k
  gathered : ∀ k ∈ P, ∀ x ∈ gather c d K k, acc.1.findOption x = gather c d K k
  apart : ∀ x, (∀ k ∈ P, x ∉ gather c d K k) → acc.1.findOption x = c x ∪ d x

omit hc hd hs in
theorem Updated.step {c d : E → Finset E} (hc : Partition c) (hd : Partition d) (hs : Short c d) {K P : Finset E}
    (hK : ∀ k, k ∈ K → Overlap c d k) {missing : Map E} (hm : Gathered c d K missing) {acc : Map E × Finset E}
    (hP : P ⊆ K) (h : Updated c d K P acc) {k : E} (hk : k ∈ K) :
    Updated c d K (insert k P) (updateMissing T missing acc k) := by
  have hself : k ∈ gather c d K k := subset_gather hc hd hK hk (near_self hc (hK k hk))
  have hfind : missing.findOption k = gather c d K k := by
    rw [hm.findOption_eq,if_pos hk]
  unfold updateMissing
  by_cases hproc : k ∈ acc.2
  · rw [if_pos hproc]
    obtain ⟨k1,hk1,hkk1⟩ := (h.mem_processed k).1 hproc
    have heq : gather c d K k = gather c d K k1 :=
      gather_eq_of_mem hc hd hs hK (hK k hk) (hK k1 (hP hk1)) hself hkk1
    constructor
    · intro x
      rw [h.mem_processed]
      constructor
      · rintro ⟨l,hl,hx⟩
        exact ⟨l,Finset.mem_insert_of_mem hl,hx⟩
      · rintro ⟨l,hl,hx⟩
        rcases Finset.mem_insert.1 hl with rfl | hl
        · exact ⟨k1,hk1,heq ▸ hx⟩
        · exact ⟨l,hl,hx⟩
    · intro l hl x hx
      rcases Finset.mem_insert.1 hl with rfl | hl
      · rw [heq] at hx ⊢
        exact h.gathered k1 hk1 x hx
      · exact h.gathered l hl x hx
    · intro x hx
      exact h.apart x (fun l hl => hx l (Finset.mem_insert_of_mem hl))
  · rw [if_neg hproc,hfind]
    constructor
    · intro x
      simp only [Finset.mem_union,h.mem_processed,Finset.mem_insert,exists_eq_or_imp]
    · intro l hl x hx
      simp only [findOption_updateEquality]
      split
      · rename_i hxk
        rcases Finset.mem_insert.1 hl with rfl | hl
        · rfl
        · exact gather_eq_of_mem hc hd hs hK (hK k hk) (hK l (hP hl)) hxk hx
      · rename_i hxk
        rcases Finset.mem_insert.1 hl with rfl | hl
        · exact absurd hx hxk
        · exact h.gathered l hl x hx
    · intro x hx
      simp only [findOption_updateEquality]
      rw [if_neg (hx k (Finset.mem_insert_self k P))]
      exact h.apart x (fun l hl => hx l (Finset.mem_insert_of_mem hl))

omit hc hd hs in
theorem Updated.foldl {c d : E → Finset E} (hc : Partition c) (hd : Partition d) (hs : Short c d) {K P : Finset E}
    (hK : ∀ k, k ∈ K → Overlap c d k) {missing : Map E} (hm : Gathered c d K missing) (l : List E)
    (hl : ∀ x ∈ l, x ∈ K) {acc : Map E × Finset E} (hP : P ⊆ K) (h : Updated c d K P acc) :
    Updated c d K (P ∪ l.toFinset) (l.foldl (updateMissing T missing) acc) := by
  induction l generalizing P acc with
  | nil => simpa using h
  | cons k l ih =>
    have hk : k ∈ K := hl k List.mem_cons_self
    have hrest := ih (fun x hx => hl x (List.mem_cons_of_mem k hx)) (Finset.insert_subset hk hP)
      (Updated.step T hc hd hs hK hm hP h hk)
    have hset : P ∪ (k :: l).toFinset = insert k P ∪ l.toFinset := by
      ext x
      simp only [Finset.mem_union,List.mem_toFinset,List.mem_cons,Finset.mem_insert]
      tauto
    rw [List.foldl_cons,hset]
    exact hrest

omit hc hd hs in
theorem findOption_naiveUnion (a b : Map E) (x : E) :
    (naiveUnion a b).findOption x = a.findOption x ∪ b.findOption x := by
  simp only [Map.findOption,naiveUnion]
  cases a.find x <;> cases b.find x <;> simp [Option.merge,Data.union]

theorem union_joined : Joined a.findOption b.findOption
    (overlaps a.findOption b.findOption (T.shape a.dom b.dom)) (union T a b).findOption := by
  have hK : ∀ k, k ∈ overlaps a.findOption b.findOption (T.shape a.dom b.dom) →
      Overlap a.findOption b.findOption k := fun k hk => (mem_overlaps.1 hk).2
  have hm : Gathered a.findOption b.findOption (overlaps a.findOption b.findOption (T.shape a.dom b.dom))
      (transitiveClosure T a b) := closureAlong_gathered T hc hd hs (T.shape a.dom b.dom)
  have hstart : Updated a.findOption b.findOption (overlaps a.findOption b.findOption (T.shape a.dom b.dom)) ∅
      (naiveUnion a b,∅) := by
    constructor
    · intro x
      simp
    · intro k hk
      cases hk
    · intro x _
      exact findOption_naiveUnion a b x
  have hend := Updated.foldl T hc hd hs hK hm (T.elements (transitiveClosure T a b).dom)
    (fun x hx => (hm.mem_dom x).1 ((T.mem_elements _ _).1 hx)) (Finset.empty_subset _) hstart
  have hP : ∅ ∪ (T.elements (transitiveClosure T a b).dom).toFinset =
      overlaps a.findOption b.findOption (T.shape a.dom b.dom) := by
    ext x
    rw [Finset.empty_union,List.mem_toFinset,T.mem_elements,hm.mem_dom]
  rw [hP] at hend
  exact ⟨hend.gathered,hend.apart⟩

theorem union_partition : Partition (union T a b).findOption :=
  (union_joined T hc hd hs).partition hc hd hs (mem_overlaps_shape T)

theorem union_related (x y : E) : Related (union T a b).findOption x y ↔
    Relation.EqvGen (fun u v => Related a.findOption u v ∨ Related b.findOption u v) x y :=
  (union_joined T hc hd hs).related hc hd hs (mem_overlaps_shape T) x y

end Union

theorem findOption_inter (a b : Map E) : (inter a b).findOption = meet a.findOption b.findOption := by
  funext x
  unfold Map.findOption inter meet proper
  cases ha : a.find x with
  | none => simp [ha]
  | some l =>
    cases hb : b.find x with
    | none => simp [ha,hb]
    | some r =>
      simp only [ha,hb,Option.bind_some,Option.elim_some,Data.inter]
      by_cases hcard : 1 < (l.equality ∩ r.equality).card
      · rw [if_pos hcard,if_neg (Nat.not_le.2 hcard)]
        rfl
      · rw [if_neg hcard,if_pos (Nat.not_lt.1 hcard)]
        split <;> rfl

end FramaC.Equality
