import FramaC.Hptmap.Update

/-! # Merging two trees

`generic_merge` and its instances. The decisions and the cache may have effects of their own, in
a monad; without a cache and with pure decisions the merge is a function.
-/
set_option linter.unusedSectionVars false
namespace FramaC.Hptmap
open BigEndian Tree
variable {K V W : Type} [DecidableEq K] [DecidableEq V] [DecidableEq W] [Key K]

/-- The arguments of `generic_merge` other than the cache. -/
structure Merger (M : Type → Type) (K V : Type) where
  symmetric : Bool
  idempotent : Bool
  increasing : Bool
  decideBoth : K → V → Tree K V → V → Tree K V → M (Tree K V)
  decideLeft : Tree K V → M (Tree K V)
  decideRight : Tree K V → M (Tree K V)

abbrev CacheMerge (M : Type → Type) (K V : Type) :=
  (Tree K V → Tree K V → M (Tree K V)) → Tree K V → Tree K V → M (Tree K V)

def noCache {M : Type → Type} : CacheMerge M K V := fun f x y => f x y

namespace Merger
variable {M : Type → Type} [Monad M] (c : CacheMerge M K V) (g : Merger M K V)

def rewrap (p m : NativeInt) (u origU v origV origTree : Tree K V) : Tree K V :=
  let keep := if u = origU ∧ v = origV then origTree else branch p m u v
  if g.increasing then keep else if u = empty then v else if v = empty then u else keep

def rejoin (p : NativeInt) (u : Tree K V) (q : NativeInt) (v : Tree K V) : Tree K V :=
  if g.increasing then Tree.join p u q v
  else if u = empty then v else if v = empty then u else Tree.join p u q v

def decideLeaf (right : Bool) : Tree K V → M (Tree K V) := if right then g.decideRight else g.decideLeft

def decideTree (right : Bool) : Tree K V → M (Tree K V) := if right then g.decideLeft else g.decideRight

def decideLeafBoth (right : Bool) (k : K) (v1 : V) (t1 : Tree K V) (v2 : V) (t2 : Tree K V) : M (Tree K V) :=
  if right || g.symmetric then g.decideBoth k v1 t1 v2 t2 else g.decideBoth k v2 t2 v1 t1

def cacheLeaf (right : Bool) : CacheMerge M K V :=
  if right && !g.symmetric then fun f s t => c (fun t s => f s t) t s else c

/-- One of the trees is the leaf that binds `key` to `data`. -/
@[grind =] def mergeLeaf (right : Bool) (key : K) (data : V) : Tree K V → M (Tree K V)
  | empty => g.cacheLeaf c right (fun leaf _ => g.decideLeaf right leaf) (leaf key data) empty
  | leaf key' data' =>
    g.cacheLeaf c right (fun leaf_ tree => do
      if g.idempotent && leaf_ == tree then return leaf_
      else if key = key' then g.decideLeafBoth right key data' tree data leaf_
      else do
        let tree' ← g.decideTree right tree
        let leaf' ← g.decideLeaf right leaf_
        return g.rejoin (Key.id key) leaf' (Key.id key') tree') (leaf key data) (leaf key' data')
  | branch p m t0 t1 =>
    g.cacheLeaf c right (fun leaf_ tree => do
      if matchPrefix (Key.id key) p m then
        if Key.id key &&& m = 0 then do
          let t0' ← mergeLeaf right key data t0
          let t1' ← g.decideTree right t1
          return g.rewrap p m t0' t0 t1' t1 tree
        else do
          let t1' ← mergeLeaf right key data t1
          let t0' ← g.decideTree right t0
          return g.rewrap p m t0' t0 t1' t1 tree
      else do
        let tree' ← g.decideTree right tree
        let leaf' ← g.decideLeaf right leaf_
        return g.rejoin (Key.id key) leaf' p tree') (leaf key data) (branch p m t0 t1)

/-- The merges of the branch `s` of prefix `p` and mask `m`; `merge0` and `merge1` are those of its
children. -/
def mergeBranches (p m : NativeInt) (s0 s1 : Tree K V) (merge0 merge1 : Tree K V → M (Tree K V)) :
    Tree K V → M (Tree K V)
  | empty => g.decideLeft (branch p m s0 s1)
  | leaf key v => g.mergeLeaf c true key v (branch p m s0 s1)
  | branch q n t0 t1 =>
    if g.idempotent && branch p m s0 s1 == branch q n t0 t1 then return branch p m s0 s1
    else c (fun s t => do
      if p = q ∧ m = n then do
        let u0 ← merge0 t0
        let u1 ← merge1 t1
        return g.rewrap p m u0 s0 u1 s1 s
      else if shorter m n && matchPrefix q p m then
        if q &&& m = 0 then do
          let s0t ← merge0 t
          let s1e ← g.decideLeft s1
          return g.rewrap p m s0t s0 s1e s1 s
        else do
          let s0e ← g.decideLeft s0
          let s1t ← merge1 t
          return g.rewrap p m s0e s0 s1t s1 s
      else if shorter n m && matchPrefix p q n then
        if p &&& n = 0 then do
          let st0 ← mergeBranches p m s0 s1 merge0 merge1 t0
          let et1 ← g.decideRight t1
          return g.rewrap q n st0 t0 et1 t1 t
        else do
          let st1 ← mergeBranches p m s0 s1 merge0 merge1 t1
          let et0 ← g.decideRight t0
          return g.rewrap q n et0 t0 st1 t1 t
      else do
        let u0 ← g.decideLeft s
        let u1 ← g.decideRight t
        return g.rejoin p u0 q u1) (branch p m s0 s1) (branch q n t0 t1)

def merge : Tree K V → Tree K V → M (Tree K V)
  | empty, empty => return empty
  | empty, t => g.decideRight t
  | leaf key v, t =>
    if g.idempotent && leaf key v == t then return leaf key v
    else
      match t with
      | empty => g.decideLeft (leaf key v)
      | t => g.mergeLeaf c false key v t
  | branch p m s0 s1, t => g.mergeBranches c p m s0 s1 (merge s0) (merge s1) t

def plainLeaf (g : Merger Id K V) (right : Bool) (key : K) (data : V) (tree : Tree K V) : Tree K V :=
  g.mergeLeaf noCache right key data tree

def plainBranches (g : Merger Id K V) (p m : NativeInt) (s0 s1 : Tree K V) (merge0 merge1 : Tree K V → Tree K V)
    (t : Tree K V) : Tree K V :=
  g.mergeBranches noCache p m s0 s1 merge0 merge1 t

def plain (g : Merger Id K V) (s t : Tree K V) : Tree K V := g.merge noCache s t

section Equations
variable (g : Merger Id K V)

theorem cacheLeaf_noCache (b : Bool) (f : Tree K V → Tree K V → M (Tree K V)) (h : Merger M K V) (s t : Tree K V) :
    h.cacheLeaf noCache b f s t = f s t := by
  unfold cacheLeaf
  split <;> rfl

theorem plainLeaf_empty (b : Bool) (key : K) (data : V) :
    g.plainLeaf b key data empty = g.decideLeaf b (leaf key data) := by
  rw [plainLeaf,mergeLeaf,cacheLeaf_noCache]

theorem plainLeaf_leaf (b : Bool) (key : K) (data : V) (key' : K) (data' : V) :
    g.plainLeaf b key data (leaf key' data') =
      if g.idempotent && leaf key data == leaf key' data' then leaf key data
      else if key = key' then g.decideLeafBoth b key data' (leaf key' data') data (leaf key data)
      else g.rejoin (Key.id key) (g.decideLeaf b (leaf key data)) (Key.id key') (g.decideTree b (leaf key' data')) := by
  rw [plainLeaf,mergeLeaf,cacheLeaf_noCache]
  rfl

theorem plainLeaf_branch (b : Bool) (key : K) (data : V) (p m : NativeInt) (t0 t1 : Tree K V) :
    g.plainLeaf b key data (branch p m t0 t1) =
      if matchPrefix (Key.id key) p m then
        if Key.id key &&& m = 0 then
          g.rewrap p m (g.plainLeaf b key data t0) t0 (g.decideTree b t1) t1 (branch p m t0 t1)
        else g.rewrap p m (g.decideTree b t0) t0 (g.plainLeaf b key data t1) t1 (branch p m t0 t1)
      else g.rejoin (Key.id key) (g.decideLeaf b (leaf key data)) p (g.decideTree b (branch p m t0 t1)) := by
  rw [plainLeaf,mergeLeaf,cacheLeaf_noCache]
  rfl

theorem plainBranches_branch (p m : NativeInt) (s0 s1 : Tree K V) (merge0 merge1 : Tree K V → Tree K V)
    (q n : NativeInt) (t0 t1 : Tree K V) : g.plainBranches p m s0 s1 merge0 merge1 (branch q n t0 t1) =
      if g.idempotent && branch p m s0 s1 == branch q n t0 t1 then branch p m s0 s1
      else if p = q ∧ m = n then g.rewrap p m (merge0 t0) s0 (merge1 t1) s1 (branch p m s0 s1)
      else if shorter m n && matchPrefix q p m then
        if q &&& m = 0 then
          g.rewrap p m (merge0 (branch q n t0 t1)) s0 (g.decideLeft s1) s1 (branch p m s0 s1)
        else g.rewrap p m (g.decideLeft s0) s0 (merge1 (branch q n t0 t1)) s1 (branch p m s0 s1)
      else if shorter n m && matchPrefix p q n then
        if p &&& n = 0 then
          g.rewrap q n (g.plainBranches p m s0 s1 merge0 merge1 t0) t0 (g.decideRight t1) t1 (branch q n t0 t1)
        else
          g.rewrap q n (g.decideRight t0) t0 (g.plainBranches p m s0 s1 merge0 merge1 t1) t1 (branch q n t0 t1)
      else g.rejoin p (g.decideLeft (branch p m s0 s1)) q (g.decideRight (branch q n t0 t1)) := by
  rw [plainBranches,mergeBranches]
  rfl

end Equations

/-- What the decisions of a merge do to each binding. -/
structure Decides (g : Merger Id K V) (both : K → V → V → Option V) (left right : K → V → Option V) : Prop where
  both_canonical : ∀ k v w, Canonical (g.decideBoth k v (leaf k v) w (leaf k w))
  both_find : ∀ k v w k', find k' (g.decideBoth k v (leaf k v) w (leaf k w)) = if k' = k then both k v w else none
  left_canonical : ∀ t : Tree K V, t.Canonical → Canonical (g.decideLeft t)
  left_find : ∀ t : Tree K V, t.Canonical → ∀ k, find k (g.decideLeft t) = (t.find k).bind (left k)
  right_canonical : ∀ t : Tree K V, t.Canonical → Canonical (g.decideRight t)
  right_find : ∀ t : Tree K V, t.Canonical → ∀ k, find k (g.decideRight t) = (t.find k).bind (right k)
  keeps : g.increasing = true → ∀ k v w, (both k v w).isSome ∧ (left k v).isSome ∧ (right k v).isSome

/-- The bindings of one key that a merge may return. The shortcuts of the merge return a common
value, and a symmetric decision may be asked in either order. -/
def Merged (symmetric idempotent : Bool) (both : K → V → V → Option V) (left right : K → V → Option V) (k : K) :
    Option V → Option V → Option V → Prop
  | none, none, z => z = none
  | some v, none, z => z = left k v
  | none, some w, z => z = right k w
  | some v, some w, z => z = both k v w ∨ (symmetric = true ∧ z = both k w v) ∨
      (idempotent = true ∧ v = w ∧ z = some v)

section Pointwise
variable {g : Merger Id K V} {both : K → V → V → Option V} {left right : K → V → Option V}

theorem merged_left {sy id : Bool} (k : K) (x : Option V) : Merged sy id both left right k x none (x.bind (left k)) := by
  cases x <;> rfl

theorem merged_right {sy id : Bool} (k : K) (y : Option V) :
    Merged sy id both left right k none y (y.bind (right k)) := by
  cases y <;> rfl

theorem Merged.inv {sy id : Bool} {k : K} {x y : Option V} {d : V}
    (h : Merged sy id both left right k x y (some d)) :
    (∃ v, x = some v ∧ y = none ∧ left k v = some d) ∨ (∃ w, x = none ∧ y = some w ∧ right k w = some d) ∨
      ∃ v w, x = some v ∧ y = some w ∧ (both k v w = some d ∨ (sy = true ∧ both k w v = some d) ∨
        (id = true ∧ v = w ∧ d = v)) := by
  cases x with
  | none =>
    cases y with
    | none => cases h
    | some w => exact Or.inr (Or.inl ⟨w,rfl,rfl,h.symm⟩)
  | some v =>
    cases y with
    | none => exact Or.inl ⟨v,rfl,rfl,h.symm⟩
    | some w =>
      refine Or.inr (Or.inr ⟨v,w,rfl,rfl,?_⟩)
      rcases h with h | ⟨hs,h⟩ | ⟨hi,hvw,h⟩
      · exact Or.inl h.symm
      · exact Or.inr (Or.inl ⟨hs,h.symm⟩)
      · exact Or.inr (Or.inr ⟨hi,hvw,Option.some.inj h⟩)

theorem ne_empty_of_find {t : Tree K V} {k : K} (h : (t.find k).isSome) : t ≠ empty := by
  rintro rfl
  simp [find] at h

theorem exists_find {t : Tree K V} (hc : t.Canonical) (h : t ≠ empty) : ∃ k, (t.find k).isSome := by
  obtain ⟨k,hk⟩ := exists_key hc h
  exact ⟨k,find_isSome hc hk⟩

theorem left_ne_empty (hd : g.Decides both left right) (hi : g.increasing = true) {t : Tree K V} (hc : t.Canonical)
    (h : t ≠ empty) : g.decideLeft t ≠ empty := by
  obtain ⟨k,hk⟩ := exists_find hc h
  obtain ⟨v,hv⟩ := Option.isSome_iff_exists.mp hk
  refine ne_empty_of_find (k := k) ?_
  rw [hd.left_find t hc,hv]
  exact (hd.keeps hi k v v).2.1

theorem right_ne_empty (hd : g.Decides both left right) (hi : g.increasing = true) {t : Tree K V} (hc : t.Canonical)
    (h : t ≠ empty) : g.decideRight t ≠ empty := by
  obtain ⟨k,hk⟩ := exists_find hc h
  obtain ⟨v,hv⟩ := Option.isSome_iff_exists.mp hk
  refine ne_empty_of_find (k := k) ?_
  rw [hd.right_find t hc,hv]
  exact (hd.keeps hi k v v).2.2

theorem merged_isSome (hd : g.Decides both left right) (hi : g.increasing = true) {sy id : Bool} {k : K}
    {x y z : Option V} (h : Merged sy id both left right k x y z) (hxy : x.isSome ∨ y.isSome) : z.isSome := by
  cases x with
  | none =>
    cases y with
    | none => simp at hxy
    | some w =>
      have hz : z = right k w := h
      rw [hz]
      exact (hd.keeps hi k w w).2.2
  | some v =>
    cases y with
    | none =>
      have hz : z = left k v := h
      rw [hz]
      exact (hd.keeps hi k v v).2.1
    | some w =>
      rcases h with h | ⟨_,h⟩ | ⟨_,_,h⟩
      · rw [h]
        exact (hd.keeps hi k v w).1
      · rw [h]
        exact (hd.keeps hi k w v).1
      · rw [h]
        rfl

theorem prune_find {p : NativeInt} {i : ℕ} {u v : Tree K V} (hi : i + 1 < intSize)
    (hp : mask p (BitVec.twoPow _ i) = p) (hu : u.Canonical) (hv : v.Canonical) (hsu : u.Side p i false)
    (hsv : v.Side p i true) (k : K) : (prune p (BitVec.twoPow _ i) u v).find k =
      if (Key.id k).getLsbD i = true then v.find k else u.find k := by
  rw [(prune_spec hi hp hu hv hsu hsv).2,← find_branch_twoPow (p := p) hi,find_branch hi hsu hsv]

theorem rewrap_eq_prune {p m : NativeInt} {u origU v origV : Tree K V}
    (hinc : g.increasing = true → u ≠ empty ∧ v ≠ empty) :
    g.rewrap p m u origU v origV (branch p m origU origV) = prune p m u v := by
  have hkeep : (if u = origU ∧ v = origV then branch p m origU origV else branch p m u v) = branch p m u v := by
    split
    · next h => rw [h.1,h.2]
    · rfl
  simp only [rewrap,hkeep]
  split
  · next h => rw [prune_eq_branch (hinc h).1 (hinc h).2]
  · rfl

theorem rejoin_spec {p q : NativeInt} {u v : Tree K V} (hu : u.Canonical) (hv : v.Canonical) (h : Apart p u q v)
    (hinc : g.increasing = true → u ≠ empty ∧ v ≠ empty) :
    (g.rejoin p u q v).Canonical ∧ ∀ k, (g.rejoin p u q v).find k = (u.find k).or (v.find k) := by
  unfold rejoin
  split
  · next hg =>
    obtain ⟨hc,_,hf⟩ := join_spec hu hv (hinc hg).1 (hinc hg).2 h
    exact ⟨hc,hf⟩
  · split
    · next hu0 =>
      subst hu0
      exact ⟨hv,fun k => by simp [find]⟩
    · next hu0 =>
      split
      · next hv0 =>
        subst hv0
        exact ⟨hu,fun k => by simp [find]⟩
      · next hv0 =>
        obtain ⟨hc,_,hf⟩ := join_spec hu hv hu0 hv0 h
        exact ⟨hc,hf⟩

theorem Apart.disjoint {p q : NativeInt} {s : Tree K V} {t : Tree K W} (h : Apart p s q t) (k : K) :
    s.find k = none ∨ t.find k = none := by
  obtain ⟨_,_,j,hj,hs,ht⟩ := h
  by_contra hno
  push Not at hno
  obtain ⟨v,hv⟩ := Option.ne_none_iff_exists'.mp hno.1
  obtain ⟨w,hw⟩ := Option.ne_none_iff_exists'.mp hno.2
  exact hj ((hs k (find_mem_keys hv) j le_rfl).symm.trans (ht k (find_mem_keys hw) j le_rfl))

/-- The bindings of a merge whose leaf comes from the side `right`. -/
def MergedSide (b sy id : Bool) (both : K → V → V → Option V) (left right : K → V → Option V) (k : K)
    (x y z : Option V) : Prop :=
  if b then Merged sy id both left right k y x z else Merged sy id both left right k x y z

section Sides
variable (hd : g.Decides both left right) (b : Bool) {sy id : Bool}
include hd

theorem side_canonical {t : Tree K V} (ht : t.Canonical) : Canonical (g.decideLeaf b t) := by
  cases b with
  | false => exact hd.left_canonical t ht
  | true => exact hd.right_canonical t ht

theorem side_find {t : Tree K V} (ht : t.Canonical) (k : K) :
    find k (g.decideLeaf b t) = (t.find k).bind (if b then right k else left k) := by
  cases b with
  | false => exact hd.left_find t ht k
  | true => exact hd.right_find t ht k

theorem side_ne_empty (hi : g.increasing = true) {t : Tree K V} (ht : t.Canonical) (h : t ≠ empty) :
    g.decideLeaf b t ≠ empty := by
  cases b with
  | false => exact left_ne_empty hd hi ht h
  | true => exact right_ne_empty hd hi ht h

omit hd in
theorem decideTree_eq (t : Tree K V) : g.decideTree b t = g.decideLeaf (!b) t := by cases b <;> rfl

omit hd in
theorem mergedSide_leaf (k : K) (x : Option V) :
    MergedSide b sy id both left right k x none (x.bind (if b then right k else left k)) := by
  cases b with
  | false => exact merged_left k x
  | true => exact merged_right k x

omit hd in
theorem mergedSide_tree (k : K) (y : Option V) :
    MergedSide b sy id both left right k none y (y.bind (if !b then right k else left k)) := by
  cases b with
  | false => exact merged_right k y
  | true => exact merged_left k y

theorem rejoin_merged {p q : NativeInt} {s t : Tree K V} (hs : s.Canonical) (ht : t.Canonical) (hs0 : s ≠ empty)
    (ht0 : t ≠ empty) (h : Apart p s q t) :
    Canonical (g.rejoin p (g.decideLeaf b s) q (g.decideTree b t)) ∧ ∀ k, MergedSide b sy id both left right k
      (s.find k) (t.find k) (find k (g.rejoin p (g.decideLeaf b s) q (g.decideTree b t))) := by
  rw [decideTree_eq]
  have hcs := side_canonical hd b hs
  have hct := side_canonical hd (!b) ht
  have hfs := side_find hd b hs
  have hft := side_find hd (!b) ht
  have hapart : Apart p (g.decideLeaf b s) q (g.decideLeaf (!b) t) :=
    h.of_find hcs hct (fun k hk => by rw [hfs,hk]; rfl) (fun k hk => by rw [hft,hk]; rfl)
  obtain ⟨hc,hf⟩ := rejoin_spec (g := g) hcs hct hapart fun hi =>
    ⟨side_ne_empty hd b hi hs hs0,side_ne_empty hd (!b) hi ht ht0⟩
  refine ⟨hc,fun k => ?_⟩
  rw [hf,hfs,hft]
  rcases Apart.disjoint h k with hn | hn
  · rw [hn,Option.bind_none,Option.none_or]
    exact mergedSide_tree b k _
  · rw [hn,Option.bind_none,Option.or_none]
    exact mergedSide_leaf b k _

theorem mergedSide_isSome (hi : g.increasing = true) {k : K} {x y z : Option V}
    (h : MergedSide b sy id both left right k x y z) (hxy : x.isSome ∨ y.isSome) : z.isSome := by
  cases b with
  | false => exact merged_isSome hd hi h hxy
  | true => exact merged_isSome hd hi h hxy.symm

theorem rewrap_merged {p : NativeInt} {i : ℕ} {l t0 t1 u : Tree K V} (right? : Bool)
    (hc : (branch p (BitVec.twoPow _ i) t0 t1).Canonical) (hl : l.Side p i right?) (hlc : l.Canonical)
    (hl0 : l ≠ empty) (hu : u.Canonical)
    (hm : ∀ k, MergedSide b sy id both left right k (l.find k) (find k (if right? then t1 else t0)) (u.find k)) :
    let r := if right? then g.rewrap p (BitVec.twoPow _ i) (g.decideTree b t0) t0 u t1 (branch p (BitVec.twoPow _ i) t0 t1)
      else g.rewrap p (BitVec.twoPow _ i) u t0 (g.decideTree b t1) t1 (branch p (BitVec.twoPow _ i) t0 t1)
    r.Canonical ∧ ∀ k, MergedSide b sy id both left right k (l.find k)
      ((branch p (BitVec.twoPow _ i) t0 t1).find k) (r.find k) := by
  obtain ⟨i',hi,hmask,hp,h0,h1,hs0,hs1,hc0,hc1⟩ := canonical_branch_iff.mp hc
  obtain rfl : i' = i := twoPow_inj (by omega) hmask.symm
  have hnone : ∀ k, l.find k = none → find k (if right? then t1 else t0) = none → u.find k = none := by
    intro k hlk htk
    have h := hm k
    rw [hlk,htk] at h
    cases b <;> exact h
  have hu0 : g.increasing = true → u ≠ empty := by
    intro hinc
    obtain ⟨k,hk⟩ := exists_find hlc hl0
    exact ne_empty_of_find (mergedSide_isSome hd b hinc (hm k) (Or.inl hk))
  simp only [decideTree_eq]
  cases right? with
  | false =>
    simp only [Bool.false_eq_true,if_false] at hm hnone ⊢
    have hsu : u.Side p i' false := by
      intro k hk
      rw [mem_keys_iff hu] at hk
      by_cases hkl : k ∈ l.keys
      · exact hl k hkl
      · by_cases hkt : k ∈ t0.keys
        · exact hs0 k hkt
        · rw [hnone k (Tree.find_eq_none hkl) (Tree.find_eq_none hkt)] at hk
          exact absurd hk (by simp)
    have hcv := side_canonical hd (!b) hc1
    have hfv := side_find hd (!b) hc1
    have hsv : (g.decideLeaf (!b) t1).Side p i' true := hs1.of_find (fun k hk => by rw [hfv,hk]; rfl) hcv
    rw [rewrap_eq_prune fun hinc => ⟨hu0 hinc,side_ne_empty hd (!b) hinc hc1 h1⟩]
    refine ⟨(prune_spec hi hp hu hcv hsu hsv).1,fun k => ?_⟩
    rw [prune_find hi hp hu hcv hsu hsv,find_branch_twoPow hi]
    cases hb : (Key.id k).getLsbD i' with
    | false => exact hm k
    | true =>
      rw [hl.find_eq_none (by rw [hb]; decide),if_pos rfl,if_pos rfl,hfv]
      exact mergedSide_tree b k _
  | true =>
    simp only [if_true] at hm hnone ⊢
    have hsu : u.Side p i' true := by
      intro k hk
      rw [mem_keys_iff hu] at hk
      by_cases hkl : k ∈ l.keys
      · exact hl k hkl
      · by_cases hkt : k ∈ t1.keys
        · exact hs1 k hkt
        · rw [hnone k (Tree.find_eq_none hkl) (Tree.find_eq_none hkt)] at hk
          exact absurd hk (by simp)
    have hcv := side_canonical hd (!b) hc0
    have hfv := side_find hd (!b) hc0
    have hsv : (g.decideLeaf (!b) t0).Side p i' false := hs0.of_find (fun k hk => by rw [hfv,hk]; rfl) hcv
    rw [rewrap_eq_prune fun hinc => ⟨side_ne_empty hd (!b) hinc hc0 h0,hu0 hinc⟩]
    refine ⟨(prune_spec hi hp hcv hu hsv hsu).1,fun k => ?_⟩
    rw [prune_find hi hp hcv hu hsv hsu,find_branch_twoPow hi]
    cases hb : (Key.id k).getLsbD i' with
    | true => exact hm k
    | false =>
      rw [hl.find_eq_none (by rw [hb]; decide),if_neg (by decide),if_neg (by decide),hfv]
      exact mergedSide_tree b k _

theorem plainLeaf_spec (key : K) (data : V) {tree : Tree K V} (hc : tree.Canonical) :
    (g.plainLeaf b key data tree).Canonical ∧ ∀ k, MergedSide b g.symmetric g.idempotent both left right k
      ((leaf key data).find k) (tree.find k) ((g.plainLeaf b key data tree).find k) := by
  induction tree with
  | empty =>
    have hcan : (leaf key data : Tree K V).Canonical := trivial
    rw [plainLeaf_empty]
    refine ⟨side_canonical hd b hcan,fun k => ?_⟩
    rw [side_find hd b hcan,find.eq_1]
    exact mergedSide_leaf b k _
  | leaf key' data' =>
    rw [plainLeaf_leaf]
    split_ifs with hid hk
    · simp only [Bool.and_eq_true,beq_iff_eq] at hid
      obtain ⟨hidem,hleaf⟩ := hid
      refine ⟨trivial,fun k => ?_⟩
      rw [← hleaf]
      simp only [find]
      split
      · cases b <;> exact Or.inr (Or.inr ⟨hidem,rfl,rfl⟩)
      · cases b <;> rfl
    · subst hk
      have hboth : ∀ v w, Canonical (g.decideBoth key v (leaf key v) w (leaf key w)) := hd.both_canonical key
      have hfind := hd.both_find key
      unfold decideLeafBoth
      split_ifs with hside
      · refine ⟨hboth _ _,fun k => ?_⟩
        rw [hfind]
        simp only [find]
        split
        · next hk =>
          subst hk
          cases b with
          | true => exact Or.inl rfl
          | false => exact Or.inr (Or.inl ⟨by simpa using hside,rfl⟩)
        · cases b <;> rfl
      · refine ⟨hboth _ _,fun k => ?_⟩
        rw [hfind]
        simp only [find]
        split
        · next hk =>
          subst hk
          cases b with
          | true => simp at hside
          | false => exact Or.inl rfl
        · cases b <;> rfl
    · exact rejoin_merged hd b (s := leaf key data) trivial trivial (by simp) (by simp) (apart_leaf hk data data')
  | branch p m t0 t1 ih0 ih1 =>
    rw [plainLeaf_branch]
    obtain ⟨i,hi,rfl,hp,h0,h1,hs0,hs1,hc0,hc1⟩ := canonical_branch_iff.mp hc
    have hi' : i < intSize := by omega
    obtain ⟨hr0,hm0⟩ := ih0 hc0
    obtain ⟨hr1,hm1⟩ := ih1 hc1
    split_ifs with hm hz
    · have hl : (leaf key data).Side p i false := by
        intro k hk
        obtain rfl : k = key := by simpa [keys] using hk
        exact ⟨(matchPrefix_iff hi' hp).mp hm,(and_eq_zero_iff hi').mp hz⟩
      exact rewrap_merged hd b false hc hl trivial (by simp) hr0 hm0
    · have hl : (leaf key data).Side p i true := by
        intro k hk
        obtain rfl : k = key := by simpa [keys] using hk
        exact ⟨(matchPrefix_iff hi' hp).mp hm,(and_ne_zero_iff hi').mp hz⟩
      exact rewrap_merged hd b true hc hl trivial (by simp) hr1 hm1
    · exact rejoin_merged hd b (s := leaf key data) trivial hc (by simp) (by simp) (apart_branch hc hm data)

end Sides

section Prefixes
variable {p q : NativeInt} {i j : ℕ} {s0 s1 : Tree K W} {t0 t1 : Tree K V}

theorem side_of_contains (ht : (branch q (BitVec.twoPow _ j) t0 t1).Canonical) (hij : j < i) (ha : Agree (i + 1) q p) :
    (branch q (BitVec.twoPow _ j) t0 t1).Side p i (q.getLsbD i) := by
  obtain ⟨j',hj,hmask,_,_,_,hs0,hs1,_,_⟩ := canonical_branch_iff.mp ht
  obtain rfl : j' = j := twoPow_inj (by omega) hmask.symm
  intro k hk
  have hkq := agree_above hs0 hs1 hk
  exact ⟨(hkq.mono (by omega)).trans ha,hkq i (by omega)⟩

theorem apart_branches (hs : (branch p (BitVec.twoPow _ i) s0 s1).Canonical)
    (ht : (branch q (BitVec.twoPow _ j) t0 t1).Canonical) (hne : ¬ (p = q ∧ i = j))
    (h1 : j < i → ¬ Agree (i + 1) q p) (h2 : i < j → ¬ Agree (j + 1) p q) :
    Apart p (branch p (BitVec.twoPow _ i) s0 s1) q (branch q (BitVec.twoPow _ j) t0 t1) := by
  obtain ⟨i',hi,hmask,hp,hs0,_,hss0,hss1,hcs0,_⟩ := canonical_branch_iff.mp hs
  obtain rfl : i' = i := twoPow_inj (by omega) hmask.symm
  obtain ⟨j',hj,hmask,hq,ht0,_,hst0,hst1,hct0,_⟩ := canonical_branch_iff.mp ht
  obtain rfl : j' = j := twoPow_inj (by omega) hmask.symm
  have hdiff : ∃ n, i' + 1 ≤ n ∧ j' + 1 ≤ n ∧ p.getLsbD n ≠ q.getLsbD n := by
    by_contra hno
    push Not at hno
    rcases lt_trichotomy i' j' with h | h | h
    · exact h2 h fun n hn => hno n (by omega) hn
    · subst h
      refine hne ⟨?_,rfl⟩
      rw [← hp]
      exact (mask_eq_iff (by omega) hq).mpr fun n hn => hno n hn hn
    · exact h1 h fun n hn => (hno n hn (by omega)).symm
  obtain ⟨n,hin,hjn,hn⟩ := hdiff
  exact ⟨prefix_nonneg hi hcs0 hs0 hss0,prefix_nonneg hj hct0 ht0 hst0,n,hn,
    fun k hk => (agree_above hss0 hss1 hk).mono hin,fun k hk => (agree_above hst0 hst1 hk).mono hjn⟩

end Prefixes

section Plain
variable (hd : g.Decides both left right)
include hd

theorem rewrap_both {p : NativeInt} {i : ℕ} {s0 s1 t0 t1 u0 u1 : Tree K V} {sy id : Bool}
    (hs : (branch p (BitVec.twoPow _ i) s0 s1).Canonical) (ht : (branch p (BitVec.twoPow _ i) t0 t1).Canonical)
    (hu0 : u0.Canonical) (hu1 : u1.Canonical)
    (h0 : ∀ k, Merged sy id both left right k (s0.find k) (t0.find k) (u0.find k))
    (h1 : ∀ k, Merged sy id both left right k (s1.find k) (t1.find k) (u1.find k)) :
    let r := g.rewrap p (BitVec.twoPow _ i) u0 s0 u1 s1 (branch p (BitVec.twoPow _ i) s0 s1)
    r.Canonical ∧ ∀ k, Merged sy id both left right k ((branch p (BitVec.twoPow _ i) s0 s1).find k)
      ((branch p (BitVec.twoPow _ i) t0 t1).find k) (r.find k) := by
  obtain ⟨i',hi,hmask,hp,hs0,hs1,hss0,hss1,hcs0,hcs1⟩ := canonical_branch_iff.mp hs
  obtain rfl : i' = i := twoPow_inj (by omega) hmask.symm
  obtain ⟨j',hj,hmask,_,_,_,hst0,hst1,hct0,hct1⟩ := canonical_branch_iff.mp ht
  obtain rfl : j' = i' := twoPow_inj (by omega) hmask.symm
  -- a key bound in the merge of the children is bound in one of them
  have hside : ∀ {b : Bool} {s t u : Tree K V}, u.Canonical → s.Side p j' b → t.Side p j' b →
      (∀ k, Merged sy id both left right k (s.find k) (t.find k) (u.find k)) → u.Side p j' b := by
    intro b s t u hu hs ht hm k hk
    rw [mem_keys_iff hu] at hk
    by_cases hks : k ∈ s.keys
    · exact hs k hks
    · by_cases hkt : k ∈ t.keys
      · exact ht k hkt
      · have h := hm k
        rw [Tree.find_eq_none hks,Tree.find_eq_none hkt] at h
        have hnone : u.find k = none := h
        rw [hnone] at hk
        exact absurd hk (by simp)
  have hne : ∀ {s t u : Tree K V}, g.increasing = true → s.Canonical → s ≠ empty →
      (∀ k, Merged sy id both left right k (s.find k) (t.find k) (u.find k)) → u ≠ empty := by
    intro s t u hinc hs hs0 hm
    obtain ⟨k,hk⟩ := exists_find hs hs0
    exact ne_empty_of_find (merged_isSome hd hinc (hm k) (Or.inl hk))
  have hsu0 := hside hu0 hss0 hst0 h0
  have hsu1 := hside hu1 hss1 hst1 h1
  simp only
  rw [rewrap_eq_prune fun hinc => ⟨hne hinc hcs0 hs0 h0,hne hinc hcs1 hs1 h1⟩]
  refine ⟨(prune_spec hi hp hu0 hu1 hsu0 hsu1).1,fun k => ?_⟩
  rw [prune_find hi hp hu0 hu1 hsu0 hsu1,find_branch_twoPow hi,find_branch_twoPow hi]
  cases hb : (Key.id k).getLsbD j' with
  | false => exact h0 k
  | true => exact h1 k

theorem merged_self (hi : g.idempotent = true) (k : K) (x : Option V) :
    Merged g.symmetric g.idempotent both left right k x x x := by
  cases x with
  | none => rfl
  | some v => exact Or.inr (Or.inr ⟨hi,rfl,rfl⟩)

theorem plainBranches_spec {p m : NativeInt} {s0 s1 : Tree K V} {merge0 merge1 : Tree K V → Tree K V}
    (hs : (branch p m s0 s1).Canonical)
    (h0 : ∀ t : Tree K V, t.Canonical → (merge0 t).Canonical ∧ ∀ k, Merged g.symmetric g.idempotent both left right k
      (s0.find k) (t.find k) ((merge0 t).find k))
    (h1 : ∀ t : Tree K V, t.Canonical → (merge1 t).Canonical ∧ ∀ k, Merged g.symmetric g.idempotent both left right k
      (s1.find k) (t.find k) ((merge1 t).find k)) {t : Tree K V} (ht : t.Canonical) :
    (g.plainBranches p m s0 s1 merge0 merge1 t).Canonical ∧ ∀ k, Merged g.symmetric g.idempotent both left right k
      ((branch p m s0 s1).find k) (t.find k) ((g.plainBranches p m s0 s1 merge0 merge1 t).find k) := by
  induction t with
  | empty =>
    refine ⟨hd.left_canonical _ hs,fun k => ?_⟩
    have hf := hd.left_find _ hs k
    rw [find.eq_1]
    exact hf ▸ merged_left k _
  | leaf key v => exact plainLeaf_spec hd true key v hs
  | branch q n t0 t1 ih0 ih1 =>
    rw [plainBranches_branch]
    obtain ⟨i,hi,rfl,hp,hs0,hs1,hss0,hss1,hcs0,hcs1⟩ := canonical_branch_iff.mp hs
    obtain ⟨j,hj,rfl,hq,ht0,ht1,hst0,hst1,hct0,hct1⟩ := canonical_branch_iff.mp ht
    split_ifs with hid hsame hshort hz hshort' hz
    · simp only [Bool.and_eq_true,beq_iff_eq] at hid
      refine ⟨hs,fun k => ?_⟩
      rw [← hid.2]
      exact merged_self hd hid.1 k _
    · obtain ⟨rfl,hm⟩ := hsame
      obtain rfl : i = j := twoPow_inj (by omega) hm
      exact rewrap_both hd hs ht (h0 t0 hct0).1 (h1 t1 hct1).1 (h0 t0 hct0).2 (h1 t1 hct1).2
    · rw [Bool.and_eq_true,shorter_iff hi hj,matchPrefix_iff (by omega) hp] at hshort
      have hside := side_of_contains ht hshort.1 hshort.2
      rw [(and_eq_zero_iff (by omega)).mp hz] at hside
      exact rewrap_merged hd true false hs hside ht (by simp) (h0 _ ht).1 (h0 _ ht).2
    · rw [Bool.and_eq_true,shorter_iff hi hj,matchPrefix_iff (by omega) hp] at hshort
      have hside := side_of_contains ht hshort.1 hshort.2
      rw [(and_ne_zero_iff (by omega)).mp hz] at hside
      exact rewrap_merged hd true true hs hside ht (by simp) (h1 _ ht).1 (h1 _ ht).2
    · rw [Bool.and_eq_true,shorter_iff hj hi,matchPrefix_iff (by omega) hq] at hshort'
      have hside := side_of_contains hs hshort'.1 hshort'.2
      rw [(and_eq_zero_iff (by omega)).mp hz] at hside
      exact rewrap_merged hd false false ht hside hs (by simp) (ih0 hct0).1 (ih0 hct0).2
    · rw [Bool.and_eq_true,shorter_iff hj hi,matchPrefix_iff (by omega) hq] at hshort'
      have hside := side_of_contains hs hshort'.1 hshort'.2
      rw [(and_ne_zero_iff (by omega)).mp hz] at hside
      exact rewrap_merged hd false true ht hside hs (by simp) (ih1 hct1).1 (ih1 hct1).2
    · rw [Bool.and_eq_true,shorter_iff hi hj,matchPrefix_iff (by omega) hp] at hshort
      rw [Bool.and_eq_true,shorter_iff hj hi,matchPrefix_iff (by omega) hq] at hshort'
      have hapart := apart_branches hs ht (fun h => hsame ⟨h.1,by rw [h.2]⟩) (fun h ha => hshort ⟨h,ha⟩)
        fun h ha => hshort' ⟨h,ha⟩
      exact rejoin_merged hd false hs ht (by simp) (by simp) hapart

theorem plain_spec {s t : Tree K V} (hs : s.Canonical) (ht : t.Canonical) :
    (g.plain s t).Canonical ∧ ∀ k, Merged g.symmetric g.idempotent both left right k (s.find k) (t.find k)
      ((g.plain s t).find k) := by
  induction s generalizing t with
  | empty =>
    cases t with
    | empty => exact ⟨trivial,fun _ => rfl⟩
    | leaf key v => exact ⟨hd.right_canonical _ ht,fun k => hd.right_find _ ht k ▸ merged_right k _⟩
    | branch q n t0 t1 => exact ⟨hd.right_canonical _ ht,fun k => hd.right_find _ ht k ▸ merged_right k _⟩
  | leaf key v =>
    have hl : (leaf key v : Tree K V).Canonical := trivial
    have hshort : ∀ t : Tree K V, t.Canonical → ∀ r : Tree K V, (r.Canonical ∧ ∀ k,
        Merged g.symmetric g.idempotent both left right k ((leaf key v).find k) (t.find k) (r.find k)) →
        let r' := if g.idempotent && leaf key v == t then leaf key v else r
        r'.Canonical ∧ ∀ k,
          Merged g.symmetric g.idempotent both left right k ((leaf key v).find k) (t.find k) (r'.find k) := by
      intro t _ r hr
      simp only
      split_ifs with hid
      · simp only [Bool.and_eq_true,beq_iff_eq] at hid
        refine ⟨hl,fun k => ?_⟩
        rw [← hid.2]
        exact merged_self hd hid.1 k _
      · exact hr
    cases t with
    | empty => exact hshort _ ht _ ⟨hd.left_canonical _ hl,fun k => hd.left_find _ hl k ▸ merged_left k _⟩
    | leaf key' v' => exact hshort _ ht _ (plainLeaf_spec hd false key v ht)
    | branch q n t0 t1 => exact hshort _ ht _ (plainLeaf_spec hd false key v ht)
  | branch p m s0 s1 ih0 ih1 =>
    obtain ⟨_,_,_,_,_,_,_,_,hcs0,hcs1⟩ := canonical_branch_iff.mp hs
    exact plainBranches_spec hd hs (fun t ht => ih0 hcs0 ht) (fun t ht => ih1 hcs1 ht) ht

end Plain
end Pointwise
end Merger
end FramaC.Hptmap
