import FramaC.Hptmap.Sequences
import FramaC.BinaryCache.Caches

/-! # Cached merges

The recursive calls of a merge share one cache with all earlier merges. What is stored under a
pair of trees is their merge, so that caching does not show in the results.
-/
set_option linter.unusedSectionVars false
namespace FramaC.Hptmap
open BigEndian Tree BinaryCache Memo Simulation
variable {K V : Type} [DecidableEq K] [DecidableEq V] [Key K]

instance : Inhabited (Tree K V) := ⟨empty⟩

inductive CacheType
  | noCache
  | persistentCache (name : String)
  | temporaryCache (name : String)

def cacheable (hash : Tree K V → NativeInt) : Cacheable (Tree K V) where
  hash := hash
  sentinel := empty
  equal s t := s == t
  eq_of_equal h := by simpa using h

/-- The cache of the merges, depending on `symmetric`. -/
def cacheTable (env : Option (Option ℤ)) (hash : Tree K V → NativeInt) (symmetric : Bool) :
    Table (Tree K V × Tree K V) (Tree K V) :=
  if symmetric then symmetricBinary env (cacheable hash) empty
  else arityTwo env (cacheable hash) (cacheable hash) empty

def cacheMerge (cache : CacheType) (t : Table (Tree K V × Tree K V) (Tree K V)) : CacheMerge t.M K V :=
  match cache with
  | .noCache => noCache
  | .persistentCache _ | .temporaryCache _ => fun f x y => t.memo (x,y) (f x y)

namespace Merger

def lift {M : Type → Type} [Monad M] (g : Merger Id K V) : Merger M K V where
  symmetric := g.symmetric
  idempotent := g.idempotent
  increasing := g.increasing
  decideBoth k v s w t := pure (g.decideBoth k v s w t : Tree K V)
  decideLeft t := pure (g.decideLeft t : Tree K V)
  decideRight t := pure (g.decideRight t : Tree K V)

end Merger

/-- A merge of two maps, or a call of the functions in `clear_caches`. -/
inductive Call (K V : Type)
  | merge (s t : Tree K V)
  | clearCaches

/-- Only persistent caches are registered in `clear_caches`. -/
def clearCaches (cache : CacheType) (t : Table (Tree K V × Tree K V) (Tree K V)) :
    Option t.State → Option (Option t.State) :=
  match cache with
  | .persistentCache _ => t.clearAll
  | .noCache | .temporaryCache _ => some

/-- The results of the merges of a run, and the last state of their cache. -/
def runCalls (cache : CacheType) (env : Option (Option ℤ)) (hash : Tree K V → NativeInt) (g : Merger Id K V) :
    List (Call K V) → Option (cacheTable env hash g.symmetric).State →
      Option (List (Tree K V) × Option (cacheTable env hash g.symmetric).State)
  | [], st => some ([],st)
  | .merge s t :: calls, st => do
    let (r,st) ← g.lift.merge (cacheMerge cache (cacheTable env hash g.symmetric)) s t st
    let (rs,st) ← runCalls cache env hash g calls st
    some (r :: rs,st)
  | .clearCaches :: calls, st => do
    let st ← clearCaches cache (cacheTable env hash g.symmetric) st
    runCalls cache env hash g calls st

def CacheKey (a : Tree K V × Tree K V) : Prop := a ≠ (empty,empty) ∧ a.1.Canonical ∧ a.2.Canonical

open Classical in
/-- The merge of two canonical trees. -/
noncomputable def mergeOf (g : Merger Id K V) (a : Tree K V × Tree K V) : Tree K V :=
  if a.1.Canonical ∧ a.2.Canonical then g.plain a.1 a.2 else empty

def SameKey (symmetric : Bool) (a b : Tree K V × Tree K V) : Prop := b = a ∨ symmetric = true ∧ b = (a.2,a.1)

theorem mergeOf_eq {g : Merger Id K V} {s t : Tree K V} (hs : s.Canonical) (ht : t.Canonical) :
    mergeOf g (s,t) = g.plain s t := if_pos ⟨hs,ht⟩

theorem cacheTable_laws (env : Option (Option ℤ)) (hash : Tree K V → NativeInt) (symmetric : Bool) :
    ∃ Good, (cacheTable env hash symmetric).Laws Good CacheKey (SameKey symmetric) ∧
      (cacheTable env hash symmetric).Clears Good CacheKey := by
  cases symmetric with
  | true =>
    refine ⟨Sized env array3,(symmetricBinary_laws env (cacheable hash) empty).restrict (fun a ha => ha.1) ?_,?_⟩
    · intro a b h
      exact h.imp id fun h => ⟨rfl,h⟩
    · intro s hs
      obtain ⟨s',h1,h2,h3⟩ := symmetricBinary_clears env (cacheable hash) empty s hs
      exact ⟨s',h1,h2,fun a ha => h3 a ha.1⟩
  | false =>
    refine ⟨Sized env array3,(arityTwo_laws env (cacheable hash) (cacheable hash) empty).restrict (fun a ha => ha.1) ?_,?_⟩
    · intro a b h
      exact Or.inl h.symm
    · intro s hs
      obtain ⟨s',h1,h2,h3⟩ := arityTwo_clears env (cacheable hash) (cacheable hash) empty s hs
      exact ⟨s',h1,h2,fun a ha => h3 a ha.1⟩

section Documented
variable {g : Merger Id K V} {both : K → V → V → Option V} {left right : K → V → Option V}
  (hd : g.Decides both left right) (hdoc : Documented g.symmetric g.idempotent both left right)
include hd hdoc

theorem plain_comm (hs : g.symmetric = true) {s t : Tree K V} (hcs : s.Canonical) (hct : t.Canonical) :
    g.plain s t = g.plain t s := by
  obtain ⟨h1,hf1⟩ := plain_pointwise hd hdoc hcs hct
  obtain ⟨h2,hf2⟩ := plain_pointwise hd hdoc hct hcs
  refine eq_of_find_eq h1 h2 fun k => ?_
  rw [hf1,hf2]
  obtain ⟨hboth,hside⟩ := hdoc.1 hs
  cases s.find k with
  | none =>
    cases t.find k with
    | none => rfl
    | some w => exact (hside k w).symm
  | some v =>
    cases t.find k with
    | none => exact hside k v
    | some w => exact hboth k v w

theorem mergeOf_same {a b : Tree K V × Tree K V} (h : SameKey g.symmetric a b) : mergeOf g a = mergeOf g b := by
  rcases h with rfl | ⟨hs,rfl⟩
  · rfl
  · by_cases hc : a.1.Canonical ∧ a.2.Canonical
    · rw [mergeOf,if_pos hc,mergeOf_eq hc.2 hc.1]
      exact plain_comm hd hdoc hs hc.1 hc.2
    · rw [mergeOf,if_neg hc,mergeOf,if_neg fun h => hc ⟨h.2,h.1⟩]

theorem plainLeaf_eq (b : Bool) (key : K) (data : V) {tree : Tree K V} (hc : tree.Canonical) :
    g.plainLeaf b key data tree = if b then g.plain tree (leaf key data) else g.plain (leaf key data) tree := by
  have hl : (leaf key data : Tree K V).Canonical := trivial
  obtain ⟨h1,hm⟩ := Merger.plainLeaf_spec hd b key data hc
  cases b with
  | false =>
    obtain ⟨h2,hf⟩ := plain_pointwise hd hdoc hl hc
    exact eq_of_find_eq h1 h2 fun k => (hdoc.merged_eq (hm k)).trans (hf k).symm
  | true =>
    obtain ⟨h2,hf⟩ := plain_pointwise hd hdoc hc hl
    exact eq_of_find_eq h1 h2 fun k => (hdoc.merged_eq (hm k)).trans (hf k).symm

section Returns
variable {σ : Type} {I : Option σ → Prop} {c : CacheMerge (StateT (Option σ) Option) K V}
  (hcache : ∀ (f : Tree K V → Tree K V → StateT (Option σ) Option (Tree K V)) (s t : Tree K V), CacheKey (s,t) →
    Returns I (mergeOf g (s,t)) (f s t) → Returns I (mergeOf g (s,t)) (c f s t))
include hcache

theorem cacheLeaf_returns (b : Bool) (key : K) (data : V) {tree : Tree K V} (hc : tree.Canonical)
    {f : Tree K V → Tree K V → StateT (Option σ) Option (Tree K V)}
    (hf : Returns I (g.plainLeaf b key data tree) (f (leaf key data) tree)) :
    Returns I (g.plainLeaf b key data tree) (g.lift.cacheLeaf c b f (leaf key data) tree) := by
  have hl : (leaf key data : Tree K V).Canonical := trivial
  have heq := plainLeaf_eq hd hdoc b key data hc
  have hkey : CacheKey (leaf key data,tree) := ⟨by simp,hl,hc⟩
  have hkey' : CacheKey (tree,leaf key data) := ⟨by simp,hc,hl⟩
  cases b with
  | false =>
    have hval : g.plainLeaf false key data tree = mergeOf g (leaf key data,tree) := by
      rw [heq,mergeOf_eq hl hc]
      rfl
    rw [hval] at hf ⊢
    exact hcache f _ _ hkey hf
  | true =>
    cases hs : g.symmetric with
    | false =>
      have hval : g.plainLeaf true key data tree = mergeOf g (tree,leaf key data) := by
        rw [heq,mergeOf_eq hc hl]
        rfl
      have hside : (g.lift (M := StateT (Option σ) Option)).cacheLeaf c true f (leaf key data) tree =
          c (fun t s => f s t) tree (leaf key data) := by
        simp [Merger.cacheLeaf,Merger.lift,hs]
      rw [hval] at hf ⊢
      rw [hside]
      exact hcache _ _ _ hkey' hf
    | true =>
      -- the cache is symmetric as well
      have hval : g.plainLeaf true key data tree = mergeOf g (leaf key data,tree) := by
        rw [heq,mergeOf_eq hl hc]
        exact plain_comm hd hdoc hs hc hl
      have hside : (g.lift (M := StateT (Option σ) Option)).cacheLeaf c true f (leaf key data) tree =
          c f (leaf key data) tree := by
        simp [Merger.cacheLeaf,Merger.lift,hs]
      rw [hval] at hf ⊢
      rw [hside]
      exact hcache f _ _ hkey hf

omit hd hdoc hcache in
theorem lift_decideTree (b : Bool) (t : Tree K V) :
    (g.lift (M := StateT (Option σ) Option)).decideTree b t = pure (g.decideTree b t : Tree K V) := by
  cases b <;> rfl

omit hd hdoc hcache in
theorem lift_decideLeaf (b : Bool) (t : Tree K V) :
    (g.lift (M := StateT (Option σ) Option)).decideLeaf b t = pure (g.decideLeaf b t : Tree K V) := by
  cases b <;> rfl

theorem mergeLeaf_returns (b : Bool) (key : K) (data : V) {tree : Tree K V} (hc : tree.Canonical) :
    Returns I (g.plainLeaf b key data tree) (g.lift.mergeLeaf c b key data tree) := by
  induction tree with
  | empty =>
    rw [Merger.mergeLeaf]
    apply cacheLeaf_returns hd hdoc hcache b key data hc
    rw [lift_decideLeaf,Merger.plainLeaf_empty]
    exact Returns.pure _
  | leaf key' data' =>
    rw [Merger.mergeLeaf]
    apply cacheLeaf_returns hd hdoc hcache b key data hc
    rw [Merger.plainLeaf_leaf]
    have hidem : (g.lift (M := StateT (Option σ) Option)).idempotent = g.idempotent := rfl
    simp only [lift_decideTree,lift_decideLeaf,hidem]
    split_ifs
    · exact Returns.pure _
    · unfold Merger.decideLeafBoth
      have hsym : (g.lift (M := StateT (Option σ) Option)).symmetric = g.symmetric := rfl
      rw [hsym]
      split_ifs
      · exact Returns.pure _
      · exact Returns.pure _
    · exact Returns.bind (Returns.pure _) (Returns.bind (Returns.pure _) (Returns.pure _))
  | branch p m t0 t1 ih0 ih1 =>
    obtain ⟨_,_,_,_,_,_,_,_,hc0,hc1⟩ := canonical_branch_iff.mp hc
    rw [Merger.mergeLeaf]
    apply cacheLeaf_returns hd hdoc hcache b key data hc
    rw [Merger.plainLeaf_branch]
    simp only [lift_decideTree,lift_decideLeaf]
    split_ifs
    · exact Returns.bind (ih0 hc0) (Returns.bind (Returns.pure _) (Returns.pure _))
    · exact Returns.bind (ih1 hc1) (Returns.bind (Returns.pure _) (Returns.pure _))
    · exact Returns.bind (Returns.pure _) (Returns.bind (Returns.pure _) (Returns.pure _))

theorem mergeBranches_returns {p m : NativeInt} {s0 s1 : Tree K V} (hs : (branch p m s0 s1).Canonical)
    {merge0 merge1 : Tree K V → StateT (Option σ) Option (Tree K V)}
    (h0 : ∀ t : Tree K V, t.Canonical → Returns I (g.plain s0 t) (merge0 t))
    (h1 : ∀ t : Tree K V, t.Canonical → Returns I (g.plain s1 t) (merge1 t)) {t : Tree K V} (ht : t.Canonical) :
    Returns I (g.plain (branch p m s0 s1) t) (g.lift.mergeBranches c p m s0 s1 merge0 merge1 t) := by
  have hplain : ∀ t, g.plain (branch p m s0 s1) t = g.plainBranches p m s0 s1 (g.plain s0) (g.plain s1) t :=
    fun _ => rfl
  induction t with
  | empty => exact Returns.pure _
  | leaf key v => exact mergeLeaf_returns hd hdoc hcache true key v hs
  | branch q n t0 t1 ih0 ih1 =>
    obtain ⟨_,_,_,_,_,_,_,_,hct0,hct1⟩ := canonical_branch_iff.mp ht
    have hkey : CacheKey (branch p m s0 s1,branch q n t0 t1) := ⟨by simp,hs,ht⟩
    have hval := mergeOf_eq (g := g) hs ht
    rw [Merger.mergeBranches]
    have hidem : (g.lift (M := StateT (Option σ) Option)).idempotent = g.idempotent := rfl
    rw [hidem]
    have hcall := Merger.plainBranches_branch g p m s0 s1 (g.plain s0) (g.plain s1) q n t0 t1
    by_cases hid : (g.idempotent && branch p m s0 s1 == branch q n t0 t1) = true
    · rw [hplain,hcall,if_pos hid,if_pos hid]
      exact Returns.pure _
    · rw [if_neg hid,← hval]
      apply hcache _ _ _ hkey
      rw [hval,hplain,hcall,if_neg hid]
      split_ifs
      · exact Returns.bind (h0 t0 hct0) (Returns.bind (h1 t1 hct1) (Returns.pure _))
      · exact Returns.bind (h0 _ ht) (Returns.bind (Returns.pure _) (Returns.pure _))
      · exact Returns.bind (Returns.pure _) (Returns.bind (h1 _ ht) (Returns.pure _))
      · exact Returns.bind (ih0 hct0) (Returns.bind (Returns.pure _) (Returns.pure _))
      · exact Returns.bind (ih1 hct1) (Returns.bind (Returns.pure _) (Returns.pure _))
      · exact Returns.bind (Returns.pure _) (Returns.bind (Returns.pure _) (Returns.pure _))

theorem merge_returns {s t : Tree K V} (hs : s.Canonical) (ht : t.Canonical) :
    Returns I (g.plain s t) (g.lift.merge c s t) := by
  induction s generalizing t with
  | empty => cases t <;> exact Returns.pure _
  | leaf key v =>
    have hshort : ∀ (t r : Tree K V) (m : StateT (Option σ) Option (Tree K V)), Returns I r m →
        Returns I (if g.idempotent && leaf key v == t then leaf key v else r)
          (if g.idempotent && leaf key v == t then pure (leaf key v) else m) := by
      intro t r m h
      split_ifs
      · exact Returns.pure _
      · exact h
    cases t with
    | empty => exact hshort _ _ _ (Returns.pure _)
    | leaf key' v' => exact hshort _ _ _ (mergeLeaf_returns hd hdoc hcache false key v ht)
    | branch q n t0 t1 => exact hshort _ _ _ (mergeLeaf_returns hd hdoc hcache false key v ht)
  | branch p m s0 s1 ih0 ih1 =>
    obtain ⟨_,_,_,_,_,_,_,_,hcs0,hcs1⟩ := canonical_branch_iff.mp hs
    exact mergeBranches_returns hd hdoc hcache hs (fun t ht => ih0 hcs0 ht) (fun t ht => ih1 hcs1 ht) ht

end Returns

def Call.result (g : Merger Id K V) : Call K V → Option (Tree K V)
  | .merge s t => some (g.plain s t)
  | .clearCaches => none

theorem cacheMerge_returns (cache : CacheType) {t : Table (Tree K V × Tree K V) (Tree K V)} {Good : t.State → Prop}
    (hl : t.Laws Good CacheKey (SameKey g.symmetric)) (f : Tree K V → Tree K V → t.M (Tree K V)) (x y : Tree K V)
    (hkey : CacheKey (x,y)) (hf : Returns (t.Inv Good CacheKey (mergeOf g)) (mergeOf g (x,y)) (f x y)) :
    Returns (t.Inv Good CacheKey (mergeOf g)) (mergeOf g (x,y)) (cacheMerge cache t f x y) := by
  have hmemo : Returns (t.Inv Good CacheKey (mergeOf g)) (mergeOf g (x,y)) (t.memo (x,y) (f x y)) :=
    hl.stores.memo_returns (hl.starts _) (fun a b h => mergeOf_same hd hdoc h) hkey hf
  cases cache with
  | noCache => exact hf
  | persistentCache name => exact hmemo
  | temporaryCache name => exact hmemo

theorem runCalls_ok (cache : CacheType) (env : Option (Option ℤ)) (hash : Tree K V → NativeInt)
    {Good : (cacheTable env hash g.symmetric).State → Prop}
    (hl : (cacheTable env hash g.symmetric).Laws Good CacheKey (SameKey g.symmetric))
    (hc : (cacheTable env hash g.symmetric).Clears Good CacheKey) (calls : List (Call K V))
    (hcalls : ∀ s t, .merge s t ∈ calls → s.Canonical ∧ t.Canonical)
    {st : Option (cacheTable env hash g.symmetric).State}
    (hst : (cacheTable env hash g.symmetric).Inv Good CacheKey (mergeOf g) st) :
    ∃ st', runCalls cache env hash g calls st = some (calls.filterMap (Call.result g),st') := by
  induction calls generalizing st with
  | nil => exact ⟨st,rfl⟩
  | cons call calls ih =>
    have ih := @ih fun s t h => hcalls s t (List.mem_cons_of_mem _ h)
    cases call with
    | merge s t =>
      obtain ⟨hs,ht⟩ := hcalls s t List.mem_cons_self
      obtain ⟨r,st',h1,rfl,h2⟩ :=
        merge_returns hd hdoc (fun f x y => cacheMerge_returns hd hdoc cache hl f x y) hs ht st hst
      obtain ⟨st'',h3⟩ := ih h2
      exact ⟨st'',by simp only [runCalls,h1,h3,Option.bind_eq_bind,Option.bind_some]; rfl⟩
    | clearCaches =>
      have hclear : ∃ st', clearCaches cache (cacheTable env hash g.symmetric) st = some st' ∧
          (cacheTable env hash g.symmetric).Inv Good CacheKey (mergeOf g) st' := by
        cases cache with
        | noCache => exact ⟨st,rfl,hst⟩
        | persistentCache name => exact (hc.restarts _).clearAll hst
        | temporaryCache name => exact ⟨st,rfl,hst⟩
      obtain ⟨st',h1,h2⟩ := hclear
      obtain ⟨st'',h3⟩ := ih h2
      refine ⟨st'',?_⟩
      rw [runCalls,h1]
      exact h3

end Documented

inductive Operation (K V : Type)
  | merge (symmetric idempotent : Bool) (decideBoth : K → V → V → Option V) (decideLeft decideRight : EmptyAction K V)
  | genericJoin (symmetric idempotent : Bool) (decide : K → Option V → Option V → V)
  | join (symmetric idempotent : Bool) (decide : K → V → V → V)
  | inter (symmetric idempotent : Bool) (decide : K → V → V → Option V)

namespace Operation

def merger : Operation K V → Merger Id K V
  | merge sy id both left right => Merger.ofMerge sy id both left right
  | genericJoin sy id decide => Merger.ofGenericJoin sy id decide
  | join sy id decide => Merger.ofJoin sy id decide
  | inter sy id decide => Merger.ofInter sy id decide

def both : Operation K V → K → V → V → Option V
  | merge _ _ both _ _ => both
  | genericJoin _ _ decide => fun k v w => some (decide k (some v) (some w))
  | join _ _ decide => fun k v w => some (decide k v w)
  | inter _ _ decide => decide

def left : Operation K V → K → V → Option V
  | merge _ _ _ left _ => left.act
  | genericJoin _ _ decide => fun k v => some (decide k (some v) none)
  | join _ _ _ => fun _ v => some v
  | inter _ _ _ => fun _ _ => none

def right : Operation K V → K → V → Option V
  | merge _ _ _ _ right => right.act
  | genericJoin _ _ decide => fun k v => some (decide k none (some v))
  | join _ _ _ => fun _ v => some v
  | inter _ _ _ => fun _ _ => none

def Meets : Operation K V → Prop
  | merge sy id both left right => Documented sy id both left.act right.act
  | genericJoin sy id decide => DocumentedJoin sy id decide
  | join sy id decide => Documented sy id (fun k v w => some (decide k v w)) (fun _ v => some v) (fun _ v => some v)
  | inter sy id decide => Documented sy id decide (fun _ _ => none) (fun _ _ => none)

theorem decides (o : Operation K V) : o.merger.Decides o.both o.left o.right := by
  cases o with
  | merge sy id both left right => exact Merger.ofMerge_decides sy id both left right
  | genericJoin sy id decide => exact Merger.ofGenericJoin_decides sy id decide
  | join sy id decide => exact Merger.ofJoin_decides sy id decide
  | inter sy id decide => exact Merger.ofInter_decides sy id decide

theorem Meets.documented {o : Operation K V} (h : o.Meets) :
    Documented o.merger.symmetric o.merger.idempotent o.both o.left o.right := by
  cases o with
  | merge sy id both left right => exact h
  | genericJoin sy id decide => exact DocumentedJoin.documented h
  | join sy id decide => exact h
  | inter sy id decide => exact h

/-- In every run of merges and clears, each merge returns the pointwise merge of its maps, under each
kind of cache. -/
theorem runCalls_pointwise {K V : Type} [DecidableEq K] [DecidableEq V] [Key K] (o : Operation K V) (h : o.Meets)
    (cache : CacheType) (env : Option (Option ℤ)) (hash : Tree K V → NativeInt) (calls : List (Call K V))
    (hcalls : ∀ s t, .merge s t ∈ calls → s.Canonical ∧ t.Canonical) :
    (∃ st, runCalls cache env hash o.merger calls none = some (calls.filterMap (Call.result o.merger),st)) ∧
      ∀ s t : Tree K V, s.Canonical → t.Canonical → (o.merger.plain s t).Canonical ∧
        ∀ k, (o.merger.plain s t).find k =
          match s.find k, t.find k with
          | none, none => none
          | some v, none => o.left k v
          | none, some w => o.right k w
          | some v, some w => o.both k v w := by
  constructor
  · obtain ⟨Good,hl,hc⟩ := cacheTable_laws env hash o.merger.symmetric
    exact runCalls_ok o.decides h.documented cache env hash hl hc calls hcalls fun s hs => absurd hs (by simp)
  · intro s t hs ht
    obtain ⟨hcan,hf⟩ := plain_pointwise o.decides h.documented hs ht
    refine ⟨hcan,fun k => ?_⟩
    rw [hf]
    cases s.find k <;> cases t.find k <;> rfl

def maxJoin : Operation (BitVec 62) ℕ := .join true true fun _ v w => max v w

theorem runCalls_pointwise_max : maxJoin.Meets ∧
    ∃ st, runCalls (.persistentCache "max") none (fun _ => 0) maxJoin.merger
      [.merge (leaf 3 1) (leaf 5 7),.clearCaches,.merge (leaf 5 9) (leaf 5 7)] none =
        some ([maxJoin.merger.plain (leaf 3 1) (leaf 5 7),maxJoin.merger.plain (leaf 5 9) (leaf 5 7)],st) := by
  have hmeets : maxJoin.Meets :=
    ⟨fun _ => ⟨fun _ v w => congrArg some (max_comm v w),fun _ _ => rfl⟩,fun _ _ v => congrArg some (max_self v)⟩
  refine ⟨hmeets,?_⟩
  have hcalls : ∀ s t : Tree (BitVec 62) ℕ, Call.merge s t ∈
      [Call.merge (leaf 3 1) (leaf 5 7),.clearCaches,.merge (leaf 5 9) (leaf 5 7)] → s.Canonical ∧ t.Canonical := by
    intro s t h
    simp only [List.mem_cons,Call.merge.injEq,reduceCtorEq,false_or,List.not_mem_nil,or_false] at h
    rcases h with ⟨rfl,rfl⟩ | ⟨rfl,rfl⟩ <;> exact ⟨trivial,trivial⟩
  exact (runCalls_pointwise maxJoin hmeets (.persistentCache "max") none (fun _ => 0) _ hcalls).1

end Operation
end FramaC.Hptmap
