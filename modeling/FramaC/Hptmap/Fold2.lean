import FramaC.Hptmap.Parts
import FramaC.Hptmap.Cached

/-! # Folds over two maps

A fold descends two maps at once: common keys are presented one by one, and subtrees whose keys are
not bound in the other map as a whole.
-/
set_option linter.unusedSectionVars false
namespace FramaC.Hptmap
open BigEndian Tree BinaryCache Memo Simulation
variable {K V W R : Type} [DecidableEq K] [DecidableEq V] [DecidableEq W] [Key K]

@[grind =] def Tree.entries : Tree K V → List (K × V)
  | empty => []
  | leaf key data => [(key,data)]
  | branch _ _ tree0 tree1 => entries tree0 ++ entries tree1

structure Fold2 (K V W R : Type) where
  emptyLeft : Tree K W → R
  emptyRight : Tree K V → R
  both : K → V → W → R
  join : R → R → R
  empty : R

namespace Fold2
section Source
variable {M : Type → Type} [Monad M] (g : Fold2 K V W R)

/-- One step of the descent, `compute` being called on the subtrees. -/
def aux (compute : Tree K V → Tree K W → M R) : Tree K V → Tree K W → M R
  | .empty, .empty => pure g.empty
  | .empty, t => pure (g.emptyLeft t)
  | s, .empty => pure (g.emptyRight s)
  | leaf ks vs, leaf kt vt =>
    if ks = kt then pure (g.both ks vs vt) else pure (g.join (g.emptyLeft (leaf kt vt)) (g.emptyRight (leaf ks vs)))
  | branch p m s0 s1, leaf kt vt => do
    let kId := Key.id kt
    let s := branch p m s0 s1
    let t := leaf kt vt
    if matchPrefix kId p m then
      if kId &&& m = 0 then
        let r ← compute s0 t
        pure (g.join r (g.emptyRight s1))
      else
        let r ← compute s1 t
        pure (g.join r (g.emptyRight s0))
    else pure (g.join (g.emptyRight s) (g.emptyLeft t))
  | leaf ks vs, branch q n t0 t1 => do
    let kId := Key.id ks
    let s := leaf ks vs
    let t := branch q n t0 t1
    if matchPrefix kId q n then
      if kId &&& n = 0 then
        let r ← compute s t0
        pure (g.join r (g.emptyLeft t1))
      else
        let r ← compute s t1
        pure (g.join r (g.emptyLeft t0))
    else pure (g.join (g.emptyRight s) (g.emptyLeft t))
  | branch p m s0 s1, branch q n t0 t1 => do
    let s := branch p m s0 s1
    let t := branch q n t0 t1
    if p = q ∧ m = n then
      let r0 ← compute s0 t0
      let r1 ← compute s1 t1
      pure (g.join r0 r1)
    else if shorter m n && matchPrefix q p m then
      if q &&& m = 0 then
        let r ← compute s0 t
        pure (g.join r (g.emptyRight s1))
      else
        let r ← compute s1 t
        pure (g.join r (g.emptyRight s0))
    else if shorter n m && matchPrefix p q n then
      if p &&& n = 0 then
        let r ← compute s t0
        pure (g.join r (g.emptyLeft t1))
      else
        let r ← compute s t1
        pure (g.join r (g.emptyLeft t0))
    else pure (g.join (g.emptyRight s) (g.emptyLeft t))

/-- Calls `aux` through the cache. The first argument bounds the depth. -/
def compute {σ : Type} (cacheMerge : (Tree K V → Tree K W → StateT σ Option R) → Tree K V → Tree K W → StateT σ Option R)
    (g : Fold2 K V W R) : ℕ → Tree K V → Tree K W → StateT σ Option R
  | 0, _, _ => failure
  | fuel + 1, s, t => cacheMerge (g.aux (compute cacheMerge g fuel)) s t

end Source

/-- The calls of a fold, as they are joined. -/
inductive Plan (K V W : Type)
  | empty
  | left (t : Tree K W)
  | right (s : Tree K V)
  | both (k : K) (v : V) (w : W)
  | join (x y : Plan K V W)

namespace Plan

def fold : Fold2 K V W (Plan K V W) where
  emptyLeft := left
  emptyRight := right
  both := both
  join := join
  empty := empty

def eval (g : Fold2 K V W R) : Plan K V W → R
  | empty => g.empty
  | left t => g.emptyLeft t
  | right s => g.emptyRight s
  | both k v w => g.both k v w
  | join x y => g.join (x.eval g) (y.eval g)

end Plan

namespace Plan

@[grind =] def presented : Plan K V W → List (K × Option V × Option W)
  | empty => []
  | left t => t.entries.map fun e => (e.1,none,some e.2)
  | right s => s.entries.map fun e => (e.1,some e.2,none)
  | both k v w => [(k,some v,some w)]
  | join x y => x.presented ++ y.presented

end Plan

def Presents (a : Tree K V × Tree K W) (l : List (K × Option V × Option W)) : Prop :=
  (l.map Prod.fst).Nodup ∧ ∀ k o, (k,o) ∈ l ↔ find2 a k = o ∧ o ≠ (none,none)

theorem Presents.append {a b c : Tree K V × Tree K W} (h : Parts a b c) {l l' : List (K × Option V × Option W)}
    (hb : Presents b l) (hc : Presents c l') : Presents a (l ++ l') := by
  have hbound : ∀ {d : Tree K V × Tree K W} {l : List (K × Option V × Option W)} {k : K}, Presents d l →
      k ∈ l.map Prod.fst → find2 d k ≠ (none,none) := by
    intro d l k hd hk
    obtain ⟨⟨k',o⟩,hmem,rfl⟩ := List.mem_map.mp hk
    obtain ⟨h1,h2⟩ := (hd.2 k' o).mp hmem
    rw [h1]
    exact h2
  constructor
  · rw [List.map_append,List.nodup_append]
    refine ⟨hb.1,hc.1,?_⟩
    rintro k hk _ hk' rfl
    rcases h k with ⟨-,hnone⟩ | ⟨-,hnone⟩
    · exact hbound hc hk' hnone
    · exact hbound hb hk hnone
  · intro k o
    rw [List.mem_append,hb.2,hc.2]
    rcases h k with ⟨h1,h2⟩ | ⟨h1,h2⟩
    · rw [h1,h2]
      refine ⟨?_,.inl⟩
      rintro (hk | ⟨rfl,hne⟩)
      · exact hk
      · exact absurd rfl hne
    · rw [h1,h2]
      refine ⟨?_,.inr⟩
      rintro (⟨rfl,hne⟩ | hk)
      · exact absurd rfl hne
      · exact hk

theorem Presents.nil : Presents ((Tree.empty,Tree.empty) : Tree K V × Tree K W) [] := by
  refine ⟨List.nodup_nil,fun k o => ?_⟩
  have hnone : find2 ((Tree.empty,Tree.empty) : Tree K V × Tree K W) k = (none,none) := rfl
  rw [hnone]
  simp only [List.not_mem_nil,false_iff,not_and]
  rintro rfl h
  exact h rfl

theorem Presents.single {a : Tree K V × Tree K W} {k : K} {o : Option V × Option W} (h : find2 a k = o)
    (ho : o ≠ (none,none)) (hne : ∀ k', k' ≠ k → find2 a k' = (none,none)) : Presents a [(k,o)] := by
  refine ⟨List.nodup_singleton _,fun k' o' => ?_⟩
  rw [List.mem_singleton,Prod.mk.injEq]
  constructor
  · rintro ⟨rfl,rfl⟩
    exact ⟨h,ho⟩
  · rintro ⟨h1,h2⟩
    by_cases hk : k' = k
    · subst hk
      exact ⟨rfl,h1.symm.trans h⟩
    · rw [hne k' hk] at h1
      exact absurd h1.symm h2

theorem presents_left {t : Tree K W} (ht : t.Canonical) :
    Presents ((Tree.empty : Tree K V),t) (Plan.left t : Plan K V W).presented := by
  induction t with
  | empty => exact Presents.nil (K := K)
  | leaf k w =>
    refine Presents.single ?_ (by simp) fun k' hk => ?_
    · simp [find2,Tree.find]
    · simp [find2,hk,Tree.find]
  | branch q n t0 t1 ih0 ih1 =>
    have hsplit : Split ((Tree.empty : Tree K V),branch q n t0 t1) (Tree.empty,t0) (Tree.empty,t1) := split_empty ht
    have happ := Presents.append hsplit.parts (ih0 hsplit.fst.snd) (ih1 hsplit.snd.snd)
    simpa only [Plan.presented,Tree.entries,List.map_append] using happ

theorem presents_right {s : Tree K V} (hs : s.Canonical) :
    Presents (s,(Tree.empty : Tree K W)) (Plan.right s : Plan K V W).presented := by
  induction s with
  | empty => exact Presents.nil (K := K)
  | leaf k v =>
    refine Presents.single ?_ (by simp) fun k' hk => ?_
    · simp [find2,Tree.find]
    · simp [find2,hk,Tree.find]
  | branch p m s0 s1 ih0 ih1 =>
    have hsplit : Split (branch p m s0 s1,(Tree.empty : Tree K W)) (s0,Tree.empty) (s1,Tree.empty) :=
      (split_empty hs).swap
    have happ := Presents.append hsplit.parts (ih0 hsplit.fst.fst) (ih1 hsplit.snd.fst)
    simpa only [Plan.presented,Tree.entries,List.map_append] using happ

def planAt : ℕ → Tree K V → Tree K W → Plan K V W
  | 0, _, _ => Plan.empty
  | fuel + 1, s, t => Plan.fold.aux (M := Id) (planAt fuel) s t

def plan (s : Tree K V) (t : Tree K W) : Plan K V W := planAt (s.size + t.size + 1) s t

theorem aux_congr {g : Fold2 K V W R} {f f' : Tree K V → Tree K W → R} {s : Tree K V} {t : Tree K W}
    (hs : s.Canonical) (ht : t.Canonical) (h : ∀ x : Tree K V × Tree K W, Below (s,t) x → f x.1 x.2 = f' x.1 x.2) :
    g.aux (M := Id) f s t = g.aux (M := Id) f' s t := by
  have hfst : ∀ {b c : Tree K V × Tree K W}, Split (s,t) b c → f b.1 b.2 = f' b.1 b.2 := fun hsplit => h _ hsplit.fst
  cases s with
  | empty => cases t <;> rfl
  | leaf ks vs =>
    cases t with
    | empty => rfl
    | leaf kt vt => rfl
    | branch q n t0 t1 =>
      have hsplit := split_leafMatch ht ks vs
      simp only [aux]
      split_ifs at hsplit ⊢
      · rw [hfst hsplit]
      · rw [hfst hsplit]
      · rfl
  | branch p m s0 s1 =>
    cases t with
    | empty => rfl
    | leaf kt vt =>
      have hsplit := split_leafMatch hs kt vt
      simp only [aux]
      split_ifs at hsplit ⊢
      · rw [show f s0 (leaf kt vt) = f' s0 (leaf kt vt) from hfst hsplit.swap]
      · rw [show f s1 (leaf kt vt) = f' s1 (leaf kt vt) from hfst hsplit.swap]
      · rfl
    | branch q n t0 t1 =>
      have hsplit := split_branches hs ht
      simp only [aux]
      split_ifs at hsplit ⊢
      · rw [hfst hsplit,hfst hsplit.comm]
      · rw [hfst hsplit]
      · rw [hfst hsplit]
      · rw [hfst hsplit]
      · rw [hfst hsplit]
      · rfl

theorem planAt_eq {fuel fuel' : ℕ} {s : Tree K V} {t : Tree K W} (hs : s.Canonical) (ht : t.Canonical)
    (h : s.size + t.size < fuel) (h' : s.size + t.size < fuel') : planAt fuel s t = planAt fuel' s t := by
  induction fuel generalizing fuel' s t with
  | zero => omega
  | succ fuel ih =>
    cases fuel' with
    | zero => omega
    | succ fuel' =>
      refine aux_congr hs ht fun x hx => ih hx.fst hx.snd ?_ ?_
      · have := hx.lt
        dsimp only at this
        omega
      · have := hx.lt
        dsimp only at this
        omega

theorem plan_eq {s : Tree K V} {t : Tree K W} (hs : s.Canonical) (ht : t.Canonical) :
    plan s t = Plan.fold.aux (M := Id) plan s t := by
  refine aux_congr hs ht fun x hx => planAt_eq hx.fst hx.snd ?_ (Nat.lt_succ_self _)
  exact hx.lt

theorem plan_induction {P : Tree K V × Tree K W → Prop}
    (h : ∀ s t, s.Canonical → t.Canonical → (∀ x, Below (s,t) x → P x) → P (s,t)) {s : Tree K V} {t : Tree K W}
    (hs : s.Canonical) (ht : t.Canonical) : P (s,t) := by
  induction hn : s.size + t.size using Nat.strong_induction_on generalizing s t with
  | _ n ih =>
    refine h s t hs ht fun x hx => ih _ ?_ hx.fst hx.snd rfl
    rw [← hn]
    exact hx.lt

theorem plan_presents {s : Tree K V} {t : Tree K W} (hs : s.Canonical) (ht : t.Canonical) :
    Presents (s,t) (plan s t).presented := by
  refine plan_induction (P := fun a => Presents a (plan a.1 a.2).presented) ?_ hs ht
  intro s t hs ht hrec
  rw [plan_eq hs ht]
  have hrec' : ∀ {x y : Tree K V × Tree K W}, Split (s,t) x y → Presents x (plan x.1 x.2).presented :=
    fun hsplit => hrec _ hsplit.fst
  have hright : ∀ {u : Tree K V} {x : Tree K V × Tree K W}, Split (s,t) x (u,Tree.empty) →
      Presents (s,t) ((plan x.1 x.2).presented ++ (Plan.right u : Plan K V W).presented) :=
    fun hsplit => Presents.append hsplit.parts (hrec _ hsplit.fst) (presents_right hsplit.snd.fst)
  have hleft : ∀ {u : Tree K W} {x : Tree K V × Tree K W}, Split (s,t) x (Tree.empty,u) →
      Presents (s,t) ((plan x.1 x.2).presented ++ (Plan.left u : Plan K V W).presented) :=
    fun hsplit => Presents.append hsplit.parts (hrec _ hsplit.fst) (presents_left hsplit.snd.snd)
  have happart : Split (s,t) (s,Tree.empty) (Tree.empty,t) →
      Presents (s,t) ((Plan.right s : Plan K V W).presented ++ (Plan.left t : Plan K V W).presented) :=
    fun hsplit => Presents.append hsplit.parts (presents_right hs) (presents_left ht)
  cases s with
  | empty =>
    cases t with
    | empty => exact Presents.nil
    | leaf kt vt => exact presents_left ht
    | branch q n t0 t1 => exact presents_left ht
  | leaf ks vs =>
    cases t with
    | empty => exact presents_right hs
    | leaf kt vt =>
      simp only [aux]
      split_ifs with hk
      · subst hk
        refine Presents.single (a := (leaf ks vs,leaf ks vt)) ?_ (by simp) fun k' hk => ?_
        · simp [find2,Tree.find]
        · simp [find2,Tree.find,hk]
      · have hsplit : Split (leaf ks vs,leaf kt vt) (leaf ks vs,Tree.empty) (Tree.empty,leaf kt vt) :=
          split_leaves hk vs vt
        exact Presents.append hsplit.comm.parts (presents_left ht) (presents_right hs)
    | branch q n t0 t1 =>
      have hsplit := split_leafMatch ht ks vs
      simp only [aux]
      split_ifs at hsplit ⊢
      · exact hleft hsplit
      · exact hleft hsplit
      · exact happart hsplit
  | branch p m s0 s1 =>
    cases t with
    | empty => exact presents_right hs
    | leaf kt vt =>
      have hsplit := split_leafMatch hs kt vt
      simp only [aux]
      split_ifs at hsplit ⊢
      · exact hright hsplit.swap
      · exact hright hsplit.swap
      · exact happart hsplit.comm.swap
    | branch q n t0 t1 =>
      have hsplit := split_branches hs ht
      simp only [aux]
      split_ifs at hsplit ⊢
      · exact Presents.append hsplit.parts (hrec _ hsplit.fst) (hrec _ hsplit.snd)
      · exact hright hsplit
      · exact hright hsplit
      · exact hleft hsplit
      · exact hleft hsplit
      · exact happart hsplit

inductive Field (K V W R : Type)
  | left (s : Tree K V)
  | right (t : Tree K W)
  | result (r : R)

instance : Inhabited (Field K V W R) := ⟨.left .empty⟩

def leftCacheable (hash : Tree K V → NativeInt) : Cacheable (Field K V W R) where
  hash
    | .left s => hash s
    | _ => 0
  sentinel := .left .empty
  equal
    | .left s, .left s' => s == s'
    | _, _ => false
  eq_of_equal := by
    intro x y h
    cases x <;> cases y <;> simp_all

def rightCacheable (hash : Tree K W → NativeInt) : Cacheable (Field K V W R) where
  hash
    | .right t => hash t
    | _ => 0
  sentinel := .right .empty
  equal
    | .right t, .right t' => t == t'
    | _, _ => false
  eq_of_equal := by
    intro x y h
    cases x <;> cases y <;> simp_all

/-- The cache of a fold, whose sentinel result is that of two empty trees. -/
def foldTable (env : Option (Option ℤ)) (hash : Tree K V → NativeInt) (hashArg : Tree K W → NativeInt) (r : R) :
    Table (Field K V W R × Field K V W R) (Field K V W R) :=
  arityTwo env (leftCacheable hash) (rightCacheable hashArg) (.result r)

def cacheMerge (cache : CacheType) (t : Table (Field K V W R × Field K V W R) (Field K V W R))
    (f : Tree K V → Tree K W → t.M R) (x : Tree K V) (y : Tree K W) : t.M R :=
  match cache with
  | .noCache => f x y
  | .persistentCache _ | .temporaryCache _ => do
    let r ← t.memo (.left x,.right y) do
      let r ← f x y
      pure (.result r)
    match r with
    | .result r => pure r
    | _ => failure

end Fold2

def fold2JoinHeterogeneous (cache : CacheType) (env : Option (Option ℤ)) (hash : Tree K V → NativeInt)
    (hashArg : Tree K W → NativeInt) (g : Fold2 K V W R) (s : Tree K V) (t : Tree K W) :
    (Fold2.foldTable env hash hashArg g.empty).M R :=
  Fold2.compute (Fold2.cacheMerge cache (Fold2.foldTable env hash hashArg g.empty)) g (s.size + t.size + 1) s t

namespace Fold2
section Returns
variable {σ : Type} {I : σ → Prop} {g : Fold2 K V W R}

theorem aux_returns {f : Tree K V → Tree K W → StateT σ Option R} {s : Tree K V} {t : Tree K W}
    (hs : s.Canonical) (ht : t.Canonical)
    (h : ∀ x, Below (s,t) x → Returns I ((plan x.1 x.2).eval g) (f x.1 x.2)) :
    Returns I ((plan s t).eval g) (g.aux f s t) := by
  have hfst : ∀ {b c : Tree K V × Tree K W}, Split (s,t) b c → ∀ r : R → R,
      Returns I (r ((plan b.1 b.2).eval g)) (f b.1 b.2 >>= fun x => pure (r x)) :=
    fun hsplit r => Returns.bind (h _ hsplit.fst) (Returns.pure _)
  rw [plan_eq hs ht]
  cases s with
  | empty => cases t <;> exact Returns.pure _
  | leaf ks vs =>
    cases t with
    | empty => exact Returns.pure _
    | leaf kt vt =>
      simp only [aux]
      split_ifs
      · exact Returns.pure _
      · exact Returns.pure _
    | branch q n t0 t1 =>
      have hsplit := split_leafMatch ht ks vs
      simp only [aux]
      split_ifs at hsplit ⊢
      · exact hfst hsplit fun r => g.join r (g.emptyLeft t1)
      · exact hfst hsplit fun r => g.join r (g.emptyLeft t0)
      · exact Returns.pure _
  | branch p m s0 s1 =>
    cases t with
    | empty => exact Returns.pure _
    | leaf kt vt =>
      have hsplit := split_leafMatch hs kt vt
      simp only [aux]
      split_ifs at hsplit ⊢
      · exact hfst hsplit.swap fun r => g.join r (g.emptyRight s1)
      · exact hfst hsplit.swap fun r => g.join r (g.emptyRight s0)
      · exact Returns.pure _
    | branch q n t0 t1 =>
      have hsplit := split_branches hs ht
      simp only [aux]
      split_ifs at hsplit ⊢
      · exact Returns.bind (h _ hsplit.fst) (hfst hsplit.comm _)
      · exact hfst hsplit fun r => g.join r (g.emptyRight s1)
      · exact hfst hsplit fun r => g.join r (g.emptyRight s0)
      · exact hfst hsplit fun r => g.join r (g.emptyLeft t1)
      · exact hfst hsplit fun r => g.join r (g.emptyLeft t0)
      · exact Returns.pure _

theorem compute_returns {c : (Tree K V → Tree K W → StateT σ Option R) → Tree K V → Tree K W → StateT σ Option R}
    (hc : ∀ (f : Tree K V → Tree K W → StateT σ Option R) (s : Tree K V) (t : Tree K W), s.Canonical → t.Canonical →
      Returns I ((plan s t).eval g) (f s t) → Returns I ((plan s t).eval g) (c f s t)) (fuel : ℕ)
    {s : Tree K V} {t : Tree K W} (hs : s.Canonical) (ht : t.Canonical) (hlt : s.size + t.size < fuel) :
    Returns I ((plan s t).eval g) (compute c g fuel s t) := by
  induction fuel generalizing s t with
  | zero => omega
  | succ fuel ih =>
    refine hc _ s t hs ht (aux_returns hs ht fun x hx => ih hx.fst hx.snd ?_)
    have := hx.lt
    dsimp only at this
    omega

end Returns

def FoldKey (a : Field K V W R × Field K V W R) : Prop :=
  ∃ s t, a = (.left s,.right t) ∧ s.Canonical ∧ t.Canonical

def resultOf (g : Fold2 K V W R) : Field K V W R × Field K V W R → Field K V W R
  | (.left s,.right t) => .result ((plan s t).eval g)
  | _ => .result g.empty

section Cache
variable (env : Option (Option ℤ)) (hash : Tree K V → NativeInt) (hashArg : Tree K W → NativeInt) (g : Fold2 K V W R)

theorem foldTable_stores : (foldTable env hash hashArg g.empty).Stores (Sized env array3) FoldKey Eq :=
  arityTwo_stores env _ _ _

theorem foldTable_blanks : (foldTable env hash hashArg g.empty).Blanks (Sized env array3)
    (fun a => a = (.left .empty,.right .empty)) (.result g.empty) :=
  arityTwo_blanks env (leftCacheable hash) (rightCacheable hashArg) (.result g.empty) rfl rfl

theorem resultOf_sentinel (a : Field K V W R × Field K V W R) (ha : a = (.left .empty,.right .empty)) :
    resultOf g a = .result g.empty := by
  subst ha
  rfl

theorem cacheMerge_returns (cache : CacheType)
    {f : Tree K V → Tree K W → (foldTable env hash hashArg g.empty).M R} {s : Tree K V} {t : Tree K W}
    (hs : s.Canonical) (ht : t.Canonical)
    (hf : Returns ((foldTable env hash hashArg g.empty).Inv (Sized env array3) FoldKey (resultOf g))
      ((plan s t).eval g) (f s t)) :
    Returns ((foldTable env hash hashArg g.empty).Inv (Sized env array3) FoldKey (resultOf g)) ((plan s t).eval g)
      (cacheMerge cache (foldTable env hash hashArg g.empty) f s t) := by
  have hstarts : (foldTable env hash hashArg g.empty).Starts (Sized env array3) FoldKey (resultOf g) :=
    (foldTable_blanks env hash hashArg g).starts fun a _ ha => resultOf_sentinel g a ha
  have hkey : FoldKey ((.left s,.right t) : Field K V W R × Field K V W R) := ⟨s,t,rfl,hs,ht⟩
  have hresult : Returns ((foldTable env hash hashArg g.empty).Inv (Sized env array3) FoldKey (resultOf g))
      (resultOf g (.left s,.right t)) (f s t >>= fun r => pure (.result r)) := Returns.bind hf (Returns.pure _)
  have hmemo := (foldTable_stores env hash hashArg g).memo_returns hstarts (fun a b h => by rw [h]) hkey hresult
  cases cache with
  | noCache => exact hf
  | persistentCache name => exact Returns.bind hmemo (Returns.pure _)
  | temporaryCache name => exact Returns.bind hmemo (Returns.pure _)

end Cache
end Fold2

theorem fold2_returns (cache : CacheType) (env : Option (Option ℤ)) (hash : Tree K V → NativeInt)
    (hashArg : Tree K W → NativeInt) (g : Fold2 K V W R) {s : Tree K V} {t : Tree K W} (hs : s.Canonical)
    (ht : t.Canonical) :
    Returns ((Fold2.foldTable env hash hashArg g.empty).Inv (Sized env array3) Fold2.FoldKey (Fold2.resultOf g))
      ((Fold2.plan s t).eval g) (fold2JoinHeterogeneous cache env hash hashArg g s t) :=
  Fold2.compute_returns (fun _ _ _ hs ht hf => Fold2.cacheMerge_returns env hash hashArg g cache hs ht hf) _ hs ht
    (Nat.lt_succ_self _)

end FramaC.Hptmap
