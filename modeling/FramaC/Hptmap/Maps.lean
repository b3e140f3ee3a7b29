import FramaC.Hptmap.Merge

/-! # The operations on maps

The instances of `generic_merge`, the merges with a shape, and what every sequence of operations
returns.
-/
set_option linter.unusedSectionVars false
namespace FramaC.Hptmap
open BigEndian Tree
variable {K V W : Type} [DecidableEq K] [DecidableEq V] [DecidableEq W] [Key K]

inductive EmptyAction (K V : Type)
  | neutral
  | absorbing
  | traversing (f : K → V → Option V)

namespace EmptyAction

def decideNone : EmptyAction K V → Tree K V → Tree K V
  | neutral => fun t => t
  | absorbing => fun _ => empty
  | traversing f => fun t => mapOpt f t

def act : EmptyAction K V → K → V → Option V
  | neutral => fun _ v => some v
  | absorbing => fun _ _ => none
  | traversing f => f

theorem decideNone_spec (a : EmptyAction K V) {t : Tree K V} (hc : t.Canonical) :
    (a.decideNone t).Canonical ∧ ∀ k, (a.decideNone t).find k = (t.find k).bind (a.act k) := by
  cases a with
  | neutral => exact ⟨hc,fun k => by cases h : t.find k <;> simp [decideNone,act,h]⟩
  | absorbing => exact ⟨trivial,fun k => by cases h : t.find k <;> simp [decideNone,act,find]⟩
  | traversing f => exact mapOpt_spec f hc

end EmptyAction

/-- The leaf of a decided value, one of the two given leaves where the value is the same. -/
def shareLeaf (key : K) (value : V) (leaf leaf' : Tree K V) (value' v : V) : Tree K V :=
  if v = value then leaf else if v = value' then leaf' else Tree.leaf key v

theorem shareLeaf_eq (key : K) (value value' v : V) :
    shareLeaf key value (leaf key value) (leaf key value') value' v = leaf key v := by
  unfold shareLeaf
  split_ifs with h h'
  · rw [h]
  · rw [h']
  · rfl

namespace Merger
variable {M : Type → Type} [Monad M]

def ofMerge (symmetric idempotent : Bool) (decideBoth : K → V → V → M (Option V)) (left right : EmptyAction K V) :
    Merger M K V where
  symmetric := symmetric
  idempotent := idempotent
  increasing := false
  decideBoth key value leaf value' leaf' := do
    match ← decideBoth key value value' with
    | some v => return shareLeaf key value leaf leaf' value' v
    | none => return empty
  decideLeft t := return left.decideNone t
  decideRight t := return right.decideNone t

def ofGenericJoin (symmetric idempotent : Bool) (decide : K → Option V → Option V → V) : Merger M K V where
  symmetric := symmetric
  idempotent := idempotent
  increasing := true
  decideBoth key value leaf value' leaf' :=
    return shareLeaf key value leaf leaf' value' (decide key (some value) (some value'))
  decideRight t := return endoMap (fun k v => decide k none (some v)) t
  decideLeft t := return endoMap (fun k v => decide k (some v) none) t

def ofJoin (symmetric idempotent : Bool) (decide : K → V → V → M V) : Merger M K V where
  symmetric := symmetric
  idempotent := idempotent
  increasing := true
  decideBoth key value leaf value' leaf' := do
    let v ← decide key value value'
    return shareLeaf key value leaf leaf' value' v
  decideLeft t := return t
  decideRight t := return t

def ofInter (symmetric idempotent : Bool) (decide : K → V → V → M (Option V)) : Merger M K V where
  symmetric := symmetric
  idempotent := idempotent
  increasing := false
  decideBoth key value leaf value' leaf' := do
    match ← decide key value value' with
    | some v => return shareLeaf key value leaf leaf' value' v
    | none => return empty
  decideLeft _ := return empty
  decideRight _ := return empty

theorem optionLeaf_spec (key : K) (value value' : V) (o : Option V) :
    let r : Tree K V := match o with
      | some v => shareLeaf key value (leaf key value) (leaf key value') value' v
      | none => empty
    r.Canonical ∧ ∀ k, r.find k = if k = key then o else none := by
  cases o with
  | none => exact ⟨trivial,fun k => by simp [find]⟩
  | some v =>
    simp only [shareLeaf_eq]
    exact ⟨trivial,fun k => rfl⟩

theorem ofMerge_decides (symmetric idempotent : Bool) (decideBoth : K → V → V → Option V)
    (left right : EmptyAction K V) :
    (ofMerge (M := Id) symmetric idempotent decideBoth left right).Decides decideBoth left.act right.act where
  both_canonical k v w := (optionLeaf_spec k v w (decideBoth k v w)).1
  both_find k v w := (optionLeaf_spec k v w (decideBoth k v w)).2
  left_canonical _ ht := (left.decideNone_spec ht).1
  left_find _ ht := (left.decideNone_spec ht).2
  right_canonical _ ht := (right.decideNone_spec ht).1
  right_find _ ht := (right.decideNone_spec ht).2
  keeps h := absurd h (by simp [ofMerge])

theorem endoMap_spec (f : K → V → V) {t : Tree K V} (hc : t.Canonical) :
    (endoMap f t).Canonical ∧ ∀ k, (endoMap f t).find k = (t.find k).bind fun v => some (f k v) := by
  rw [endoMap_eq_fromShape]
  obtain ⟨h,hf⟩ := fromShape_spec f hc
  refine ⟨h,fun k => ?_⟩
  rw [hf]
  cases t.find k <;> rfl

theorem ofGenericJoin_decides (symmetric idempotent : Bool) (decide : K → Option V → Option V → V) :
    (ofGenericJoin (M := Id) symmetric idempotent decide).Decides
      (fun k v w => some (decide k (some v) (some w))) (fun k v => some (decide k (some v) none))
      (fun k v => some (decide k none (some v))) where
  both_canonical k v w := (optionLeaf_spec k v w (some (decide k (some v) (some w)))).1
  both_find k v w := (optionLeaf_spec k v w (some (decide k (some v) (some w)))).2
  left_canonical _ ht := (endoMap_spec _ ht).1
  left_find _ ht := (endoMap_spec _ ht).2
  right_canonical _ ht := (endoMap_spec _ ht).1
  right_find _ ht := (endoMap_spec _ ht).2
  keeps _ _ _ _ := ⟨rfl,rfl,rfl⟩

theorem ofJoin_decides (symmetric idempotent : Bool) (decide : K → V → V → V) :
    (ofJoin (M := Id) symmetric idempotent decide).Decides (fun k v w => some (decide k v w)) (fun _ v => some v)
      (fun _ v => some v) where
  both_canonical k v w := (optionLeaf_spec k v w (some (decide k v w))).1
  both_find k v w := (optionLeaf_spec k v w (some (decide k v w))).2
  left_canonical _ ht := ht
  left_find t _ k := (Option.bind_fun_some (t.find k)).symm
  right_canonical _ ht := ht
  right_find t _ k := (Option.bind_fun_some (t.find k)).symm
  keeps _ _ _ _ := ⟨rfl,rfl,rfl⟩

theorem ofInter_decides (symmetric idempotent : Bool) (decide : K → V → V → Option V) :
    (ofInter (M := Id) symmetric idempotent decide).Decides decide (fun _ _ => none) (fun _ _ => none) where
  both_canonical k v w := (optionLeaf_spec k v w (decide k v w)).1
  both_find k v w := (optionLeaf_spec k v w (decide k v w)).2
  left_canonical _ _ := trivial
  left_find t _ k := (Option.bind_fun_none (t.find k)).symm
  right_canonical _ _ := trivial
  right_find t _ k := (Option.bind_fun_none (t.find k)).symm
  keeps h := absurd h (by simp [ofInter])

end Merger

namespace Tree

def decideEmptyShape (inter : Bool) (t : Tree K V) : Tree K V := if inter then empty else t

def extractLeaf (key : K) (map : Tree K V) : Tree K V :=
  match map.find key with
  | some data => leaf key data
  | none => empty

def decideLeafShape (inter : Bool) (key : K) (map : Tree K V) : Tree K V :=
  if inter then extractLeaf key map else map.remove key

/-- A branch of the map whose children have become `u0` and `u1`. -/
def rewrapShape (map t0 t1 : Tree K V) (p m : NativeInt) (u0 u1 : Tree K V) : Tree K V :=
  if t0 = u0 ∧ t1 = u1 then map else prune p m u0 u1

/-- The maps under the shape of prefix `p` and mask `m`; `merge0` and `merge1` are the merges with its
children. -/
def mergeBranchShape (inter : Bool) (p m : NativeInt) (s0 s1 : Tree K W) (merge0 merge1 : Tree K V → Tree K V) :
    Tree K V → Tree K V
  | empty => empty
  | leaf key v => if inter = mem key (branch p m s0 s1) then leaf key v else empty
  | branch q n t0 t1 =>
    let rewrap := rewrapShape (branch q n t0 t1) t0 t1
    if p = q ∧ m = n then rewrap p m (merge0 t0) (merge1 t1)
    else if shorter m n && matchPrefix q p m then
      if q &&& m = 0 then merge0 (branch q n t0 t1) else merge1 (branch q n t0 t1)
    else if shorter n m && matchPrefix p q n then
      if p &&& n = 0 then
        rewrap q n (mergeBranchShape inter p m s0 s1 merge0 merge1 t0) (decideEmptyShape inter t1)
      else rewrap q n (decideEmptyShape inter t0) (mergeBranchShape inter p m s0 s1 merge0 merge1 t1)
    else decideEmptyShape inter (branch q n t0 t1)

def mergeWithShape (inter : Bool) : Tree K W → Tree K V → Tree K V
  | empty, map => decideEmptyShape inter map
  | leaf key d, map =>
    match map with
    | empty => empty
    | leaf key' v => if inter = mem key' (leaf key d) then leaf key' v else empty
    | map => decideLeafShape inter key map
  | branch p m s0 s1, map =>
    mergeBranchShape inter p m s0 s1 (mergeWithShape inter s0) (mergeWithShape inter s1) map

def interWithShape (shape : Tree K W) (map : Tree K V) : Tree K V := mergeWithShape true shape map

def diffWithShape (shape : Tree K W) (map : Tree K V) : Tree K V := mergeWithShape false shape map

/-- The bindings whose key is bound in the shape when `inter` holds, the others when it does not. -/
def Shaped (inter : Bool) (shape : Tree K W) (map r : Tree K V) : Prop :=
  r.Canonical ∧ ∀ k, r.find k = if inter = (shape.find k).isSome then map.find k else none

section Shapes
variable {inter : Bool}

theorem decideEmptyShape_shaped {shape : Tree K W} {map : Tree K V} (hc : map.Canonical)
    (h : ∀ k ∈ map.keys, shape.find k = none) : Shaped inter shape map (decideEmptyShape inter map) := by
  have hf : ∀ k, map.find k = none ∨ shape.find k = none := by
    intro k
    by_cases hk : k ∈ map.keys
    · exact Or.inr (h k hk)
    · exact Or.inl (Tree.find_eq_none hk)
  unfold decideEmptyShape
  cases inter with
  | false =>
    refine ⟨hc,fun k => ?_⟩
    rcases hf k with h | h
    · simp [h]
    · simp [h]
  | true =>
    refine ⟨trivial,fun k => ?_⟩
    rcases hf k with h | h
    · simp [h,find]
    · simp [h,find]

theorem memLeaf_shaped {shape : Tree K W} (hs : shape.Canonical) (key : K) (v : V) :
    Shaped inter shape (leaf key v) (if inter = mem key shape then leaf key v else empty) := by
  rw [mem_eq hs]
  split_ifs with h
  · refine ⟨trivial,fun k => ?_⟩
    simp only [find]
    by_cases hk : k = key
    · rw [hk,if_pos rfl,if_pos h]
    · rw [if_neg hk,ite_self]
  · refine ⟨trivial,fun k => ?_⟩
    simp only [find]
    by_cases hk : k = key
    · rw [hk,if_neg h]
    · rw [if_neg hk,ite_self]

theorem decideLeafShape_shaped (key : K) (d : W) {map : Tree K V} (hc : map.Canonical) :
    Shaped inter (leaf key d) map (decideLeafShape inter key map) := by
  unfold decideLeafShape
  cases inter with
  | false =>
    obtain ⟨hr,hf⟩ := remove_spec key hc
    refine ⟨hr,fun k => ?_⟩
    simp only [Bool.false_eq_true,if_false,hf,find]
    by_cases hk : k = key
    · simp [hk]
    · simp [hk]
  | true =>
    unfold extractLeaf
    cases hv : map.find key with
    | none =>
      refine ⟨trivial,fun k => ?_⟩
      simp only [find]
      by_cases hk : k = key
      · simp [hk,hv,find]
      · simp [hk,find]
    | some v =>
      refine ⟨trivial,fun k => ?_⟩
      simp only [find]
      by_cases hk : k = key
      · simp [hk,hv,find]
      · simp [hk,find]

theorem rewrapShape_shaped {shape : Tree K W} {q : NativeInt} {j : ℕ} {t0 t1 u0 u1 : Tree K V}
    (hc : (branch q (BitVec.twoPow _ j) t0 t1).Canonical) (hu0 : u0.Canonical) (hu1 : u1.Canonical)
    (h0 : ∀ k, (Key.id k).getLsbD j = false → u0.find k = if inter = (shape.find k).isSome then t0.find k else none)
    (h1 : ∀ k, (Key.id k).getLsbD j = true → u1.find k = if inter = (shape.find k).isSome then t1.find k else none)
    (hs0 : u0.Side q j false) (hs1 : u1.Side q j true) :
    Shaped inter shape (branch q (BitVec.twoPow _ j) t0 t1)
      (rewrapShape (branch q (BitVec.twoPow _ j) t0 t1) t0 t1 q (BitVec.twoPow _ j) u0 u1) := by
  obtain ⟨j',hj,hmask,hq,ht0,ht1,_,_,_,_⟩ := canonical_branch_iff.mp hc
  obtain rfl : j' = j := twoPow_inj (by omega) hmask.symm
  have heq : rewrapShape (branch q (BitVec.twoPow _ j') t0 t1) t0 t1 q (BitVec.twoPow _ j') u0 u1 =
      prune q (BitVec.twoPow _ j') u0 u1 := by
    unfold rewrapShape
    split
    · next h => rw [← h.1,← h.2,prune_eq_branch ht0 ht1]
    · rfl
  rw [heq]
  refine ⟨(prune_spec hj hq hu0 hu1 hs0 hs1).1,fun k => ?_⟩
  rw [Merger.prune_find hj hq hu0 hu1 hs0 hs1,find_branch_twoPow hj]
  cases hb : (Key.id k).getLsbD j' with
  | false => exact h0 k hb
  | true => exact h1 k hb

theorem Shaped.side {shape : Tree K W} {t u : Tree K V} {q : NativeInt} {j : ℕ} {b : Bool}
    (h : Shaped inter shape t u) (hs : t.Side q j b) : u.Side q j b :=
  hs.of_find (fun k hk => by rw [h.2,hk,ite_self]) h.1

theorem mergeBranchShape_shaped {p m : NativeInt} {s0 s1 : Tree K W} {merge0 merge1 : Tree K V → Tree K V}
    (hs : (branch p m s0 s1).Canonical) (h0 : ∀ t : Tree K V, t.Canonical → Shaped inter s0 t (merge0 t))
    (h1 : ∀ t : Tree K V, t.Canonical → Shaped inter s1 t (merge1 t)) {map : Tree K V} (hc : map.Canonical) :
    Shaped inter (branch p m s0 s1) map (mergeBranchShape inter p m s0 s1 merge0 merge1 map) := by
  induction map with
  | empty => exact ⟨trivial,fun k => (ite_self _).symm⟩
  | leaf key v => exact memLeaf_shaped hs key v
  | branch q n t0 t1 ih0 ih1 =>
    obtain ⟨i,hi,rfl,hp,hs0,hs1,hss0,hss1,hcs0,hcs1⟩ := canonical_branch_iff.mp hs
    obtain ⟨j,hj,rfl,hq,ht0,ht1,hst0,hst1,hct0,hct1⟩ := canonical_branch_iff.mp hc
    simp only [mergeBranchShape]
    split_ifs with hsame hshort hz hshort' hz
    · obtain ⟨rfl,hm⟩ := hsame
      obtain rfl : i = j := twoPow_inj (by omega) hm
      refine rewrapShape_shaped hc (h0 t0 hct0).1 (h1 t1 hct1).1 (fun k hk => ?_) (fun k hk => ?_)
        ((h0 t0 hct0).side hst0) ((h1 t1 hct1).side hst1)
      · rw [(h0 t0 hct0).2,find_branch_twoPow hi,hk,if_neg (by decide : ¬ false = true)]
      · rw [(h1 t1 hct1).2,find_branch_twoPow hi,hk,if_pos rfl]
    · rw [Bool.and_eq_true,shorter_iff hi hj,matchPrefix_iff (by omega) hp] at hshort
      have hside := Merger.side_of_contains hc hshort.1 hshort.2
      rw [(and_eq_zero_iff (by omega)).mp hz] at hside
      refine ⟨(h0 _ hc).1,fun k => ?_⟩
      rw [(h0 _ hc).2,find_branch_twoPow hi]
      cases hb : (Key.id k).getLsbD i with
      | false => rfl
      | true => rw [hside.find_eq_none (by rw [hb]; decide),ite_self,ite_self]
    · rw [Bool.and_eq_true,shorter_iff hi hj,matchPrefix_iff (by omega) hp] at hshort
      have hside := Merger.side_of_contains hc hshort.1 hshort.2
      rw [(and_ne_zero_iff (by omega)).mp hz] at hside
      refine ⟨(h1 _ hc).1,fun k => ?_⟩
      rw [(h1 _ hc).2,find_branch_twoPow hi]
      cases hb : (Key.id k).getLsbD i with
      | true => rfl
      | false => rw [hside.find_eq_none (by rw [hb]; decide),ite_self,ite_self]
    · rw [Bool.and_eq_true,shorter_iff hj hi,matchPrefix_iff (by omega) hq] at hshort'
      have hside := Merger.side_of_contains hs hshort'.1 hshort'.2
      rw [(and_eq_zero_iff (by omega)).mp hz] at hside
      have hempty : Shaped inter (empty : Tree K W) t1 (decideEmptyShape inter t1) :=
        decideEmptyShape_shaped hct1 fun _ _ => rfl
      refine rewrapShape_shaped hc (ih0 hct0).1 hempty.1 (fun k _ => (ih0 hct0).2 k) (fun k hk => ?_)
        ((ih0 hct0).side hst0) (hempty.side hst1)
      rw [hempty.2,hside.find_eq_none (by rw [hk]; decide)]
      rfl
    · rw [Bool.and_eq_true,shorter_iff hj hi,matchPrefix_iff (by omega) hq] at hshort'
      have hside := Merger.side_of_contains hs hshort'.1 hshort'.2
      rw [(and_ne_zero_iff (by omega)).mp hz] at hside
      have hempty : Shaped inter (empty : Tree K W) t0 (decideEmptyShape inter t0) :=
        decideEmptyShape_shaped hct0 fun _ _ => rfl
      refine rewrapShape_shaped hc hempty.1 (ih1 hct1).1 (fun k hk => ?_) (fun k _ => (ih1 hct1).2 k)
        (hempty.side hst0) ((ih1 hct1).side hst1)
      rw [hempty.2,hside.find_eq_none (by rw [hk]; decide)]
      rfl
    · rw [Bool.and_eq_true,shorter_iff hi hj,matchPrefix_iff (by omega) hp] at hshort
      rw [Bool.and_eq_true,shorter_iff hj hi,matchPrefix_iff (by omega) hq] at hshort'
      have hapart := Merger.apart_branches hs hc (fun h => hsame ⟨h.1,by rw [h.2]⟩) (fun h ha => hshort ⟨h,ha⟩)
        fun h ha => hshort' ⟨h,ha⟩
      refine decideEmptyShape_shaped hc fun k hk => ?_
      rcases Merger.Apart.disjoint hapart k with hn | hn
      · exact hn
      · rw [mem_keys_iff hc,hn] at hk
        exact absurd hk (by simp)

theorem mergeWithShape_shaped {shape : Tree K W} {map : Tree K V} (hs : shape.Canonical) (hc : map.Canonical) :
    Shaped inter shape map (mergeWithShape inter shape map) := by
  induction shape generalizing map with
  | empty => exact decideEmptyShape_shaped hc fun _ _ => rfl
  | leaf key d =>
    cases map with
    | empty => exact ⟨trivial,fun k => (ite_self _).symm⟩
    | leaf key' v => exact memLeaf_shaped hs key' v
    | branch q n t0 t1 => exact decideLeafShape_shaped key d hc
  | branch p m s0 s1 ih0 ih1 =>
    obtain ⟨_,_,_,_,_,_,_,_,hcs0,hcs1⟩ := canonical_branch_iff.mp hs
    exact mergeBranchShape_shaped hs (fun t ht => ih0 hcs0 ht) (fun t ht => ih1 hcs1 ht) hc

end Shapes
end Tree
end FramaC.Hptmap

/-! ## Joins whose decisions may raise

A join in which no decision raises is the one whose decisions are pure.
-/
set_option linter.unusedSectionVars false
namespace FramaC.Hptmap
open BigEndian Tree
variable {K V : Type} [DecidableEq K] [DecidableEq V] [Key K]

def Decided (decide : K → V → V → Option V) (d : K → V → V → V) (k : K) (v w : V) : Prop :=
  decide k v w = some (d k v w) ∧ decide k w v = some (d k w v)

namespace Merger
variable {decide : K → V → V → Option V} {d : K → V → V → V} {sy id : Bool}

theorem ofJoin_leaf_some (b : Bool) (key : K) (data : V) {tree : Tree K V} (hc : tree.Canonical)
    (h : ∀ v, tree.find key = some v → Decided decide d key v data) :
    (ofJoin (M := Option) sy id decide).mergeLeaf noCache b key data tree =
      some ((ofJoin (M := Id) sy id d).plainLeaf b key data tree) := by
  induction tree with
  | empty =>
    rw [mergeLeaf,cacheLeaf_noCache,plainLeaf_empty]
    cases b <;> rfl
  | leaf key' data' =>
    rw [mergeLeaf,cacheLeaf_noCache,plainLeaf_leaf]
    have hi : (ofJoin (M := Option) sy id decide).idempotent = (ofJoin (M := Id) sy id d).idempotent := rfl
    rw [hi]
    split_ifs with hid hk
    · rfl
    · subst hk
      obtain ⟨h1,h2⟩ := h data' (by simp [find])
      unfold decideLeafBoth
      have hs : (ofJoin (M := Option) sy id decide).symmetric = (ofJoin (M := Id) sy id d).symmetric := rfl
      rw [hs]
      split_ifs
      · simp only [ofJoin,h1]
        rfl
      · simp only [ofJoin,h2]
        rfl
    · cases b <;> rfl
  | branch p m t0 t1 ih0 ih1 =>
    obtain ⟨i,hi,rfl,hp,_,_,hs0,hs1,hc0,hc1⟩ := canonical_branch_iff.mp hc
    rw [mergeLeaf,cacheLeaf_noCache,plainLeaf_branch]
    split_ifs with hm hz
    · rw [ih0 hc0 fun v hv => h v (by rw [find_branch hi hs0 hs1,hv]; rfl)]
      cases b <;> rfl
    · have hbit := (and_ne_zero_iff (by omega)).mp hz
      rw [ih1 hc1 fun v hv => h v (by rw [find_branch_twoPow hi,if_pos hbit,hv])]
      cases b <;> rfl
    · cases b <;> rfl

theorem ofJoin_branches_some {p m : NativeInt} {s0 s1 : Tree K V} (hs : (branch p m s0 s1).Canonical)
    {merge0 merge1 : Tree K V → Option (Tree K V)} {plain0 plain1 : Tree K V → Tree K V}
    (h0 : ∀ t : Tree K V, t.Canonical → (∀ k v w, s0.find k = some v → t.find k = some w → Decided decide d k v w) →
      merge0 t = some (plain0 t))
    (h1 : ∀ t : Tree K V, t.Canonical → (∀ k v w, s1.find k = some v → t.find k = some w → Decided decide d k v w) →
      merge1 t = some (plain1 t)) {t : Tree K V} (ht : t.Canonical)
    (h : ∀ k v w, (branch p m s0 s1).find k = some v → t.find k = some w → Decided decide d k v w) :
    (ofJoin (M := Option) sy id decide).mergeBranches noCache p m s0 s1 merge0 merge1 t =
      some ((ofJoin (M := Id) sy id d).plainBranches p m s0 s1 plain0 plain1 t) := by
  induction t with
  | empty => rfl
  | leaf key v =>
    exact ofJoin_leaf_some true key v hs fun v' hv' => h key v' v hv' (by simp [find])
  | branch q n t0 t1 ih0 ih1 =>
    obtain ⟨i,hi,rfl,hp,_,_,hss0,hss1,hcs0,hcs1⟩ := canonical_branch_iff.mp hs
    obtain ⟨j,hj,rfl,hq,_,_,hst0,hst1,hct0,hct1⟩ := canonical_branch_iff.mp ht
    have up0 : ∀ {r : NativeInt} {i : ℕ} {u0 u1 : Tree K V}, i + 1 < intSize → u0.Side r i false → u1.Side r i true →
        ∀ k v, u0.find k = some v → (branch r (BitVec.twoPow _ i) u0 u1).find k = some v := by
      intro r i u0 u1 hi h0 h1 k v hv
      rw [find_branch hi h0 h1,hv]
      rfl
    have up1 : ∀ {r : NativeInt} {i : ℕ} {u0 u1 : Tree K V}, i + 1 < intSize → u0.Side r i false → u1.Side r i true →
        ∀ k v, u1.find k = some v → (branch r (BitVec.twoPow _ i) u0 u1).find k = some v := by
      intro r i u0 u1 hi h0 h1 k v hv
      rw [find_branch hi h0 h1,h0.find_eq_none,hv]
      · rfl
      · rw [(h1 k (find_mem_keys hv)).2]
        decide
    have down0 : ∀ t, t.Canonical → (∀ k w, t.find k = some w →
        (branch q (BitVec.twoPow _ j) t0 t1).find k = some w) → merge0 t = some (plain0 t) :=
      fun t htc hup => h0 t htc fun k v w hv hw => h k v w (up0 hi hss0 hss1 k v hv) (hup k w hw)
    have down1 : ∀ t, t.Canonical → (∀ k w, t.find k = some w →
        (branch q (BitVec.twoPow _ j) t0 t1).find k = some w) → merge1 t = some (plain1 t) :=
      fun t htc hup => h1 t htc fun k v w hv hw => h k v w (up1 hi hss0 hss1 k v hv) (hup k w hw)
    rw [mergeBranches,plainBranches_branch]
    have hidem : (ofJoin (M := Option) sy id decide).idempotent = (ofJoin (M := Id) sy id d).idempotent := rfl
    rw [hidem]
    simp only [noCache]
    split_ifs
    · rfl
    · rw [down0 t0 hct0 (up0 hj hst0 hst1),down1 t1 hct1 (up1 hj hst0 hst1)]
      rfl
    · rw [down0 _ ht fun _ _ hw => hw]
      rfl
    · rw [down1 _ ht fun _ _ hw => hw]
      rfl
    · rw [ih0 hct0 fun k v w hv hw => h k v w hv (up0 hj hst0 hst1 k w hw)]
      rfl
    · rw [ih1 hct1 fun k v w hv hw => h k v w hv (up1 hj hst0 hst1 k w hw)]
      rfl
    · rfl

theorem ofJoin_some {s t : Tree K V} (hs : s.Canonical) (ht : t.Canonical)
    (h : ∀ k v w, s.find k = some v → t.find k = some w → Decided decide d k v w) :
    (ofJoin (M := Option) sy id decide).merge noCache s t = some ((ofJoin (M := Id) sy id d).plain s t) := by
  induction s generalizing t with
  | empty => cases t <;> rfl
  | leaf key v =>
    have hleaf := @ofJoin_leaf_some _ _ _ _ _ decide d sy id false key v _ ht fun w hw => by
      have hdec := h key v w (by simp [find]) hw
      exact ⟨hdec.2,hdec.1⟩
    have hshort : ∀ (r : Tree K V) (m : Option (Tree K V)), m = some r →
        (if (ofJoin (M := Id) sy id d).idempotent && leaf key v == t then pure (leaf key v) else m) =
          some (if (ofJoin (M := Id) sy id d).idempotent && leaf key v == t then leaf key v else r) := by
      intro r m hm
      split_ifs
      · rfl
      · exact hm
    cases t with
    | empty => exact hshort _ _ rfl
    | leaf key' v' => exact hshort _ _ hleaf
    | branch q n t0 t1 => exact hshort _ _ hleaf
  | branch p m s0 s1 ih0 ih1 =>
    obtain ⟨_,_,_,_,_,_,_,_,hcs0,hcs1⟩ := canonical_branch_iff.mp hs
    exact ofJoin_branches_some hs (fun t ht h => ih0 hcs0 ht h) (fun t ht h => ih1 hcs1 ht h) ht h

def Only {A : Type} (r : A) (m : Option A) : Prop := ∀ x, m = some x → x = r

omit [DecidableEq V] in
theorem Only.bind {A : Type} {a : A} {r : V} {m : Option A} {f : A → Option V} (hm : Only a m) (hf : Only r (f a)) :
    Only r (m >>= f) := by
  intro x hx
  obtain ⟨y,hy,hxy⟩ := Option.bind_eq_some_iff.mp hx
  rw [hm y hy] at hxy
  exact hf x hxy

omit [DecidableEq V] in
theorem Only.pure (r : V) : Only r (Pure.pure r) := fun _ h => (Option.some.inj h).symm

section Returned
variable (decide : K → V → V → Option V) (sy id : Bool)

def value (k : K) (v w : V) : V := (decide k v w).getD v

theorem decideBoth_only (k : K) (v w : V) (s t : Tree K V) :
    Only ((ofJoin (M := Id) sy id (value decide)).decideBoth k v s w t : Tree K V)
      ((ofJoin (M := Option) sy id decide).decideBoth k v s w t) := by
  have hvalue : Only (value decide k v w) (decide k v w) := by
    intro x hx
    rw [value,hx]
    rfl
  exact Only.bind hvalue (Only.pure _)

theorem ofJoin_leaf_only (b : Bool) (key : K) (data : V) (tree : Tree K V) :
    Only ((ofJoin (M := Id) sy id (value decide)).plainLeaf b key data tree)
      ((ofJoin (M := Option) sy id decide).mergeLeaf noCache b key data tree) := by
  induction tree with
  | empty =>
    rw [mergeLeaf,cacheLeaf_noCache,plainLeaf_empty]
    cases b <;> exact Only.pure _
  | leaf key' data' =>
    rw [mergeLeaf,cacheLeaf_noCache,plainLeaf_leaf]
    have hi : (ofJoin (M := Option) sy id decide).idempotent = (ofJoin (M := Id) sy id (value decide)).idempotent := rfl
    rw [hi]
    split_ifs
    · exact Only.pure _
    · unfold decideLeafBoth
      have hs : (ofJoin (M := Option) sy id decide).symmetric = (ofJoin (M := Id) sy id (value decide)).symmetric := rfl
      rw [hs]
      split_ifs
      · exact decideBoth_only decide sy id key data' data _ _
      · exact decideBoth_only decide sy id key data data' _ _
    · cases b <;> exact Only.pure _
  | branch p m t0 t1 ih0 ih1 =>
    rw [mergeLeaf,cacheLeaf_noCache,plainLeaf_branch]
    split_ifs
    · exact Only.bind ih0 (by cases b <;> exact Only.pure _)
    · exact Only.bind ih1 (by cases b <;> exact Only.pure _)
    · cases b <;> exact Only.pure _

theorem ofJoin_branches_only {p m : NativeInt} {s0 s1 : Tree K V} {merge0 merge1 : Tree K V → Option (Tree K V)}
    {plain0 plain1 : Tree K V → Tree K V} (h0 : ∀ t, Only (plain0 t) (merge0 t)) (h1 : ∀ t, Only (plain1 t) (merge1 t))
    (t : Tree K V) : Only ((ofJoin (M := Id) sy id (value decide)).plainBranches p m s0 s1 plain0 plain1 t)
      ((ofJoin (M := Option) sy id decide).mergeBranches noCache p m s0 s1 merge0 merge1 t) := by
  induction t with
  | empty => exact Only.pure _
  | leaf key v => exact ofJoin_leaf_only decide sy id true key v _
  | branch q n t0 t1 ih0 ih1 =>
    rw [mergeBranches,plainBranches_branch]
    have hidem : (ofJoin (M := Option) sy id decide).idempotent = (ofJoin (M := Id) sy id (value decide)).idempotent := rfl
    rw [hidem]
    simp only [noCache]
    split_ifs
    · exact Only.pure _
    · exact Only.bind (h0 t0) (Only.bind (h1 t1) (Only.pure _))
    · exact Only.bind (h0 _) (Only.pure _)
    · exact Only.bind (Only.pure _) (Only.bind (h1 _) (Only.pure _))
    · exact Only.bind ih0 (Only.pure _)
    · exact Only.bind ih1 (Only.pure _)
    · exact Only.pure _

theorem ofJoin_only (s t : Tree K V) : Only ((ofJoin (M := Id) sy id (value decide)).plain s t)
    ((ofJoin (M := Option) sy id decide).merge noCache s t) := by
  induction s generalizing t with
  | empty => cases t <;> exact Only.pure _
  | leaf key v =>
    have hshort : ∀ (r : Tree K V) (m : Option (Tree K V)), Only r m →
        Only (if (ofJoin (M := Id) sy id (value decide)).idempotent && leaf key v == t then leaf key v else r)
          (if (ofJoin (M := Id) sy id (value decide)).idempotent && leaf key v == t then pure (leaf key v) else m) := by
      intro r m h
      split_ifs
      · exact Only.pure _
      · exact h
    cases t with
    | empty => exact hshort _ _ (Only.pure _)
    | leaf key' v' => exact hshort _ _ (ofJoin_leaf_only decide sy id false key v _)
    | branch q n t0 t1 => exact hshort _ _ (ofJoin_leaf_only decide sy id false key v _)
  | branch p m s0 s1 ih0 ih1 => exact ofJoin_branches_only decide sy id ih0 ih1 t

end Returned
end Merger
end FramaC.Hptmap
