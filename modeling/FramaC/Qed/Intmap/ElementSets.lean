import FramaC.Qed.Intmap.Split
import Mathlib.Data.Set.BooleanAlgebra
import Mathlib.Order.CompletePartialOrder

/-! # Sets of elements with a key

A set is stored in a tree that binds the key of each element to a value computed from the element. Each operation on
trees, with the callback that a set gives to it, is an operation on sets.
-/
namespace FramaC.Qed.Intmap

structure Indexing (ε β : Type) where
  key : ε → Key
  value : ε → β
  key_injective : Function.Injective key

namespace Tree

variable {α ε β σ : Type}

def singleton (k : Key) (x : α) : Tree α := lf k x

def folddAux (phi : Key → α → σ → σ) : Tree α → σ → σ
  | empty,e => e
  | lf i x,e => phi i x e
  | br _ t0 t1,e => folddAux phi t0 (folddAux phi t1 e)

def foldd (phi : Key → α → σ → σ) (t : Tree α) (e : σ) : σ :=
  match t with
  | empty => e
  | lf i x => phi i x e
  | br p t0 t1 => if p = maxInt then folddAux phi t1 (folddAux phi t0 e) else folddAux phi t0 (folddAux phi t1 e)

def mapl (f : Key → α → σ) (m : Tree α) : List σ := foldd (fun k v a => f k v :: a) m []

def subset (phi : Key → α → β → Bool) : Tree α → Tree β → Bool := subsetf phi

theorem folddAux_eq (phi : Key → α → σ → σ) (t : Tree α) (e : σ) :
    folddAux phi t e = t.bindings.foldr (fun b e => phi b.1 b.2 e) e := by
  induction t generalizing e with
  | empty => rfl
  | lf k x => rfl
  | br p t0 t1 ih0 ih1 => rw [folddAux,ih0,ih1,bindings,List.foldr_append]

theorem foldd_eq (phi : Key → α → σ → σ) (t : Tree α) (e : σ) :
    foldd phi t e = t.increasing.foldr (fun b e => phi b.1 b.2 e) e := by
  cases t with
  | empty => rfl
  | lf k x => rfl
  | br p t0 t1 =>
    rw [foldd,increasing]
    split
    · rw [folddAux_eq,folddAux_eq,List.foldr_append]
    · rw [folddAux_eq,folddAux_eq,List.foldr_append]

theorem mapl_eq (f : Key → α → σ) (m : Tree α) : mapl f m = m.increasing.map fun b => f b.1 b.2 := by
  rw [mapl,foldd_eq]
  induction m.increasing with
  | nil => rfl
  | cons b l ih => rw [List.foldr_cons,List.map_cons,ih]

theorem sameBindings_of_equal {sh : Sharing α} {eq : α → α → Bool} (heq : ∀ x, eq x x = true) {s t : Tree α}
    (h : equal sh eq s t = true) : SameBindings eq (find · s) (find · t) := by
  have hrefl : ∀ u : Tree α, SameBindings eq (find · u) (find · u) := by
    intro u k
    simp only
    cases find k u with
    | none => exact Or.inl ⟨rfl,rfl⟩
    | some x => exact Or.inr ⟨x,x,rfl,rfl,heq x⟩
  have hshared : ∀ {u v : Tree α}, sh.tree u v = true → SameBindings eq (find · u) (find · v) := by
    intro u v huv
    rw [sh.tree_eq huv]
    exact hrefl v
  induction s generalizing t with
  | empty =>
    cases t with
    | empty => exact hrefl empty
    | lf j y => exact hshared (by simpa only [equal] using h)
    | br q t0 t1 => exact hshared (by simpa only [equal] using h)
  | lf i x =>
    cases t with
    | empty => exact hshared (by simpa only [equal] using h)
    | br q t0 t1 => exact hshared (by simpa only [equal] using h)
    | lf j y =>
      rw [equal] at h
      obtain h | h := Bool.or_eq_true_iff.1 h
      · exact hshared h
      · obtain ⟨hij,hxy⟩ := Bool.and_eq_true_iff.1 h
        obtain rfl := eq_of_beq hij
        intro k
        simp only [find_lf]
        by_cases hk : k = i
        · rw [if_pos hk,if_pos hk]
          exact Or.inr ⟨x,y,rfl,rfl,hxy⟩
        · rw [if_neg hk,if_neg hk]
          exact Or.inl ⟨rfl,rfl⟩
  | br p s0 s1 ih0 ih1 =>
    cases t with
    | empty => exact hshared (by simpa only [equal] using h)
    | lf j y => exact hshared (by simpa only [equal] using h)
    | br q t0 t1 =>
      rw [equal] at h
      obtain h | h := Bool.or_eq_true_iff.1 h
      · exact hshared h
      · obtain ⟨hpq,h1⟩ := Bool.and_eq_true_iff.1 h
        obtain ⟨hpq,h0⟩ := Bool.and_eq_true_iff.1 hpq
        obtain rfl := eq_of_beq hpq
        intro k
        simp only [find_br]
        split
        · split
          · exact ih0 h0 k
          · exact ih1 h1 k
        · exact Or.inl ⟨rfl,rfl⟩

structure IsSet (ix : Indexing ε β) (t : Tree β) (A : Set ε) : Prop where
  canonical : t.Canonical
  find_iff : ∀ k v, find k t = some v ↔ ∃ x ∈ A, ix.key x = k ∧ ix.value x = v

section sets

variable {ix : Indexing ε β} {s t r : Tree β} {A B : Set ε}

theorem IsSet.find_of_mem (h : IsSet ix t A) {x : ε} (hx : x ∈ A) : find (ix.key x) t = some (ix.value x) :=
  (h.find_iff _ _).2 ⟨x,hx,rfl,rfl⟩

theorem IsSet.find_of_notMem (h : IsSet ix t A) {x : ε} (hx : x ∉ A) : find (ix.key x) t = none := by
  cases hf : find (ix.key x) t with
  | none => rfl
  | some v =>
    obtain ⟨y,hy,hkey,_⟩ := (h.find_iff _ _).1 hf
    exact absurd (ix.key_injective hkey ▸ hy) hx

theorem IsSet.exists_of_find (h : IsSet ix t A) {k : Key} {v : β} (hf : find k t = some v) :
    ∃ x ∈ A, ix.key x = k ∧ ix.value x = v := (h.find_iff k v).1 hf

theorem isSet_empty : IsSet ix empty ∅ := by
  refine ⟨trivial,?_⟩
  intro k v
  rw [find_empty]
  exact iff_of_false (by simp) (by simp)

variable (ix) in
theorem isSet_singleton (x : ε) : IsSet ix (singleton (ix.key x) (ix.value x)) {x} := by
  refine ⟨trivial,?_⟩
  intro k v
  simp only [singleton,find_lf,Set.mem_singleton_iff,exists_eq_left,Option.ite_none_right_eq_some,Option.some.injEq]
  exact and_congr_left fun _ => eq_comm

theorem IsSet.add (h : IsSet ix t A) (sh : Sharing β) (x : ε) :
    IsSet ix (Tree.add sh (ix.key x) (ix.value x) t) (Insert.insert x A) := by
  obtain ⟨hc,hf⟩ := change_represents sh (fun _ x _ => some x) (ix.key x) (ix.value x) h.canonical
  refine ⟨hc,?_⟩
  intro k v
  rw [Tree.add,hf]
  by_cases hk : k = ix.key x
  · rw [if_pos hk,Option.some.injEq]
    constructor
    · rintro rfl
      exact ⟨x,Set.mem_insert x A,hk.symm,rfl⟩
    · rintro ⟨y,_,hy,rfl⟩
      rw [ix.key_injective (hy.trans hk)]
  · rw [if_neg hk,h.find_iff]
    constructor
    · rintro ⟨y,hy,hky,hv⟩
      exact ⟨y,Set.mem_insert_of_mem x hy,hky,hv⟩
    · rintro ⟨y,rfl | hy,hky,hv⟩
      · exact absurd hky.symm hk
      · exact ⟨y,hy,hky,hv⟩

theorem IsSet.sep (h : IsSet ix t A) (hc : r.Canonical) {P : ε → Prop}
    (hin : ∀ x ∈ A, P x → find (ix.key x) r = some (ix.value x)) (hout : ∀ x ∈ A, ¬ P x → find (ix.key x) r = none)
    (hnone : ∀ k, find k t = none → find k r = none) : IsSet ix r {x | x ∈ A ∧ P x} := by
  refine ⟨hc,?_⟩
  intro k v
  constructor
  · intro hk
    cases ht : find k t with
    | none =>
      rw [hnone k ht] at hk
      cases hk
    | some w =>
      obtain ⟨x,hx,rfl,rfl⟩ := h.exists_of_find ht
      by_cases hp : P x
      · exact ⟨x,⟨hx,hp⟩,rfl,Option.some.inj ((hin x hx hp).symm.trans hk)⟩
      · rw [hout x hx hp] at hk
        cases hk
  · rintro ⟨x,⟨hx,hp⟩,rfl,rfl⟩
    exact hin x hx hp

theorem IsSet.remove (h : IsSet ix t A) (sh : Sharing β) (x : ε) :
    IsSet ix (Tree.remove sh (ix.key x) t) (A \ {x}) := by
  obtain ⟨hc,hf⟩ := change_represents sh (fun _ (_ : Unit) _ => none) (ix.key x) () h.canonical
  refine h.sep hc (P := fun y => y ∉ ({x} : Set ε)) ?_ ?_ ?_
  · intro y hy hne
    rw [hf,if_neg (fun heq => hne (ix.key_injective heq)),h.find_of_mem hy]
  · intro y _ heq
    obtain rfl : y = x := not_not.1 heq
    rw [hf,if_pos rfl]
  · intro k hk
    rw [hf]
    split
    · rfl
    · exact hk

theorem IsSet.filter (h : IsSet ix t A) (sh : Sharing β) {f : Key → β → Bool} {P : ε → Bool}
    (hf : ∀ x, f (ix.key x) (ix.value x) = P x) : IsSet ix (Tree.filter sh f t) {x | x ∈ A ∧ P x = true} := by
  obtain ⟨hc,hfind⟩ := filter_represents sh f h.canonical
  refine h.sep hc ?_ ?_ ?_
  · intro x hx hp
    rw [hfind,h.find_of_mem hx,Option.filter_some,hf,if_pos hp]
  · intro x hx hp
    rw [hfind,h.find_of_mem hx,Option.filter_some,hf,if_neg hp]
  · intro k hk
    rw [hfind,hk]
    rfl

theorem IsSet.partition (h : IsSet ix t A) (sh : Sharing β) {f : Key → β → Bool} {P : ε → Bool}
    (hf : ∀ x, f (ix.key x) (ix.value x) = P x) : IsSet ix (Tree.partition sh f t).1 {x | x ∈ A ∧ P x = true} ∧
      IsSet ix (Tree.partition sh f t).2 {x | x ∈ A ∧ P x = false} := by
  obtain ⟨⟨hc,hfind⟩,hc',hfind'⟩ := partition_represents sh f h.canonical
  refine ⟨h.sep hc ?_ ?_ ?_,h.sep hc' ?_ ?_ ?_⟩
  · intro x hx hp
    rw [hfind,h.find_of_mem hx,Option.filter_some,hf,if_pos hp]
  · intro x hx hp
    rw [hfind,h.find_of_mem hx,Option.filter_some,hf,if_neg hp]
  · intro k hk
    rw [hfind,hk]
    rfl
  · intro x hx hp
    rw [hfind',h.find_of_mem hx,Option.filter_some,hf,hp]
    rfl
  · intro x hx hp
    rw [hfind',h.find_of_mem hx,Option.filter_some,hf,if_neg]
    simpa using hp
  · intro k hk
    rw [hfind',hk]
    rfl

theorem IsSet.union (h : IsSet ix s A) (h' : IsSet ix t B) (sh : Sharing β) {phi : Key → β → β → β}
    (hphi : ∀ k v, phi k v v = v) : IsSet ix (Tree.union sh phi s t) (A ∪ B) := by
  obtain ⟨hc,hf⟩ := union_spec sh phi h.canonical h'.canonical
  have hmem : ∀ x ∈ A ∪ B, find (ix.key x) (Tree.union sh phi s t) = some (ix.value x) := by
    intro x hx
    rw [hf]
    by_cases ha : x ∈ A
    · rw [h.find_of_mem ha]
      by_cases hb : x ∈ B
      · rw [h'.find_of_mem hb]
        exact congrArg some (hphi _ _)
      · rw [h'.find_of_notMem hb,merge_none_right]
    · rw [h.find_of_notMem ha,h'.find_of_mem (hx.resolve_left ha),merge_none_left]
  refine ⟨hc,?_⟩
  intro k v
  constructor
  · intro hk
    have hbound : ∃ x ∈ A ∪ B, ix.key x = k := by
      by_contra hno
      have hs : find k s = none := by
        cases hs : find k s with
        | none => rfl
        | some w =>
          obtain ⟨x,hx,hxk,_⟩ := h.exists_of_find hs
          exact absurd ⟨x,Or.inl hx,hxk⟩ hno
      have ht : find k t = none := by
        cases ht : find k t with
        | none => rfl
        | some w =>
          obtain ⟨x,hx,hxk,_⟩ := h'.exists_of_find ht
          exact absurd ⟨x,Or.inr hx,hxk⟩ hno
      rw [hf,hs,ht] at hk
      cases hk
    obtain ⟨x,hx,rfl⟩ := hbound
    exact ⟨x,hx,rfl,Option.some.inj ((hmem x hx).symm.trans hk)⟩
  · rintro ⟨x,hx,rfl,rfl⟩
    exact hmem x hx

theorem IsSet.interq (h : IsSet ix s A) (h' : IsSet ix t B) (sh : Sharing β) {phi : Key → β → β → Option β}
    (hphi : ∀ k v, phi k v v = some v) : IsSet ix (Tree.interq sh phi s t) (A ∩ B) := by
  obtain ⟨hc,hf⟩ := interq_spec sh phi h.canonical h'.canonical
  refine h.sep hc ?_ ?_ ?_
  · intro x hx hb
    rw [hf,h.find_of_mem hx,h'.find_of_mem hb]
    exact hphi _ _
  · intro x hx hb
    rw [hf,h'.find_of_notMem hb,interMap_none]
  · intro k hk
    rw [hf,hk]
    rfl

theorem IsSet.diffq_keep (h : IsSet ix s A) (h' : IsSet ix t B) (sh : Sharing β) {phi : Key → β → β → Option β}
    (hphi : ∀ k v, phi k v v = some v) : diffq sh phi s t = s := by
  have hsame : ∀ {k : Key} {x y : β}, find k s = some x → find k t = some y → x = y := by
    intro k x y hx hy
    obtain ⟨a,_,hak,rfl⟩ := h.exists_of_find hx
    obtain ⟨b,_,hbk,rfl⟩ := h'.exists_of_find hy
    rw [ix.key_injective (hak.trans hbk.symm)]
  have hno : NoExtra sh phi (find · s) (find · t) := by
    rintro k _ _ ⟨i,⟨x,y,w,hx,hy,_,hwx,hwy⟩,_⟩
    rw [hsame hx hy,hwy] at hwx
    cases hwx
  apply eq_of_find (diffq_spec sh phi h.canonical h'.canonical).canonical h.canonical
  intro k
  rw [(diffq_eq_iff sh phi h.canonical h'.canonical).2 hno]
  cases hx : find k s with
  | none => rfl
  | some x =>
    cases hy : find k t with
    | none => rfl
    | some y =>
      rw [hsame hx hy]
      exact hphi k y

theorem IsSet.unique (h : IsSet ix t A) (h' : IsSet ix t B) : A = B := by
  ext x
  constructor
  · intro hx
    by_contra hb
    have hf := h.find_of_mem hx
    rw [h'.find_of_notMem hb] at hf
    cases hf
  · intro hx
    by_contra ha
    have hf := h'.find_of_mem hx
    rw [h.find_of_notMem ha] at hf
    cases hf

theorem IsSet.diffq_iff (h : IsSet ix s A) (h' : IsSet ix t B) (sh : Sharing β) {phi : Key → β → β → Option β}
    (hphi : ∀ k v, phi k v v = some v) : IsSet ix (diffq sh phi s t) (A \ B) ↔ Disjoint A B := by
  rw [h.diffq_keep h' sh hphi]
  constructor
  · intro hdiff
    exact sdiff_eq_left.1 (hdiff.unique h)
  · intro hdis
    rw [sdiff_eq_left.2 hdis]
    exact h

theorem IsSet.mem_iff (h : IsSet ix t A) (x : ε) : mem (ix.key x) t = true ↔ x ∈ A := by
  rw [mem_eq]
  by_cases hx : x ∈ A
  · rw [h.find_of_mem hx]
    exact iff_of_true rfl hx
  · rw [h.find_of_notMem hx]
    exact iff_of_false (by simp) hx

theorem IsSet.subset_iff (h : IsSet ix s A) (h' : IsSet ix t B) : subset (fun _ _ _ => true) s t = true ↔ A ⊆ B := by
  rw [subset,subsetf_iff _ h.canonical h'.canonical]
  constructor
  · intro hinc x hx
    obtain ⟨y,hy,_⟩ := hinc _ _ (h.find_of_mem hx)
    by_contra hb
    exact absurd ((h'.find_of_notMem hb).symm.trans hy) (by simp)
  · intro hsub k v hk
    obtain ⟨x,hx,rfl,_⟩ := h.exists_of_find hk
    exact ⟨_,h'.find_of_mem (hsub hx),rfl⟩

theorem IsSet.intersectf_iff (h : IsSet ix s A) (h' : IsSet ix t B) :
    intersectf (fun _ _ _ => true) s t = true ↔ (A ∩ B).Nonempty := by
  rw [Tree.intersectf_iff _ h.canonical h'.canonical]
  constructor
  · rintro ⟨k,x,y,hx,hy,_⟩
    obtain ⟨a,ha,rfl,_⟩ := h.exists_of_find hx
    refine ⟨a,ha,?_⟩
    by_contra hb
    exact absurd ((h'.find_of_notMem hb).symm.trans hy) (by simp)
  · rintro ⟨x,ha,hb⟩
    exact ⟨_,_,_,h.find_of_mem ha,h'.find_of_mem hb,rfl⟩

theorem IsSet.equal_iff (h : IsSet ix s A) (h' : IsSet ix t B) (sh : Sharing β) :
    equal sh (fun _ _ => true) s t = true ↔ A = B := by
  constructor
  · intro heq
    have hsame := sameBindings_of_equal (fun _ => rfl) heq
    ext x
    constructor
    · intro hx
      obtain ⟨y,hy,_⟩ := hsame.bound (h.find_of_mem hx)
      by_contra hb
      exact absurd ((h'.find_of_notMem hb).symm.trans hy) (by simp)
    · intro hx
      obtain ⟨y,hy⟩ := hsame.bound_left (h'.find_of_mem hx)
      by_contra ha
      exact absurd ((h.find_of_notMem ha).symm.trans hy) (by simp)
  · rintro rfl
    apply equal_of_sameBindings sh _ h.canonical h'.canonical
    intro k
    cases hk : find k s with
    | none =>
      refine Or.inl ⟨hk,?_⟩
      simp only
      cases hk' : find k t with
      | none => rfl
      | some v =>
        obtain ⟨x,hx,rfl,_⟩ := h'.exists_of_find hk'
        rw [h.find_of_mem hx] at hk
        cases hk
    | some v =>
      obtain ⟨x,hx,rfl,rfl⟩ := h.exists_of_find hk
      exact Or.inr ⟨_,_,hk,h'.find_of_mem hx,rfl⟩

theorem IsSet.mapl_spec (h : IsSet ix t A) {f : Key → β → ε} (hf : ∀ x, f (ix.key x) (ix.value x) = x) :
    (∀ x, x ∈ mapl f t ↔ x ∈ A) ∧ (mapl f t).Pairwise fun x y => (ix.key x).toInt < (ix.key y).toInt := by
  have hbinding : ∀ b ∈ t.increasing, ix.key (f b.1 b.2) = b.1 ∧ f b.1 b.2 ∈ A := by
    intro b hb
    obtain ⟨x,hx,hk,hv⟩ := h.exists_of_find (find_of_mem_bindings h.canonical ((mem_increasing t b).1 hb))
    rw [← hk,← hv,hf]
    exact ⟨rfl,hx⟩
  rw [mapl_eq]
  constructor
  · intro x
    rw [List.mem_map]
    constructor
    · rintro ⟨b,hb,rfl⟩
      exact (hbinding b hb).2
    · intro hx
      exact ⟨(ix.key x,ix.value x),(mem_increasing t _).2 (mem_bindings_of_find (h.find_of_mem hx)),hf x⟩
  · rw [List.pairwise_map]
    apply (increasing_pairwise h.canonical).imp_of_mem
    intro a b ha hb hlt
    rw [(hbinding a ha).1,(hbinding b hb).1]
    exact hlt

end sets

end Tree

end FramaC.Qed.Intmap
