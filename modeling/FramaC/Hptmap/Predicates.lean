import FramaC.Hptmap.Parts
import FramaC.Hptmap.Cached

/-! # Predicates on two maps

A predicate combines decisions over all the keys of two maps. It descends both trees at once, and
may answer for two subtrees without visiting them, or from a cache of pairs of subtrees.
-/
set_option linter.unusedSectionVars false
namespace FramaC.Hptmap
open BigEndian Tree BinaryCache Memo Simulation
variable {K V W : Type} [DecidableEq K] [DecidableEq V] [DecidableEq W] [Key K] {σ : Type}

inductive PredicateType
  | existentialPredicate
  | universalPredicate
  deriving DecidableEq

inductive PredicateResult
  | pTrue
  | pFalse
  | pUnknown
  deriving DecidableEq

structure Decisions (K V : Type) where
  decideFst : K → V → Bool
  decideSnd : K → V → Bool
  decideBoth : K → V → V → Bool

abbrev Comp (σ : Type) := StateT σ Option

abbrev CachePredicate (σ K V : Type) :=
  (Tree K V → Tree K V → Comp σ Bool) → Tree K V → Tree K V → Comp σ Bool

def andThen (x y : Comp σ Bool) : Comp σ Bool := do
  let b ← x
  if b then y else pure false

def orElse (x y : Comp σ Bool) : Comp σ Bool := do
  let b ← x
  if b then pure true else y

def comb : PredicateType → Comp σ Bool → Comp σ Bool → Comp σ Bool
  | .universalPredicate => andThen
  | .existentialPredicate => orElse

namespace MakeBinaryPredicate

/-- One step of the descent, `aux'` being called on the subtrees. -/
def aux (pt : PredicateType) (d : Decisions K V) (aux' : Tree K V → Tree K V → Comp σ Bool) :
    Tree K V → Tree K V → Comp σ Bool
  | empty, empty =>
    match pt with
    | .existentialPredicate => pure false
    | .universalPredicate => pure true
  | leaf key data, empty => pure (d.decideFst key data)
  | empty, leaf key data => pure (d.decideSnd key data)
  | empty, branch _ _ tl tr => comb pt (aux' empty tl) (aux' empty tr)
  | branch _ _ tl tr, empty => comb pt (aux' tl empty) (aux' tr empty)
  | leaf k1 v1, leaf k2 v2 =>
    if Key.id k1 = Key.id k2 then pure (d.decideBoth k1 v1 v2)
    else comb pt (pure (d.decideFst k1 v1)) (pure (d.decideSnd k2 v2))
  | leaf key value, branch p m l r =>
    let i := Key.id key
    let s := leaf key value
    if i.slt (p + m) then comb pt (aux' empty r) (aux' s l) else comb pt (aux' empty l) (aux' s r)
  | branch p m l r, leaf key value =>
    let i := Key.id key
    let t := leaf key value
    if i.slt (p + m) then comb pt (aux' r empty) (aux' l t) else comb pt (aux' l empty) (aux' r t)
  | branch p m s0 s1, branch q n t0 t1 =>
    let s := branch p m s0 s1
    let t := branch q n t0 t1
    if p = q ∧ m = n then comb pt (aux' s0 t0) (aux' s1 t1)
    else if shorter m n && matchPrefix q p m then
      if q &&& m = 0 then comb pt (aux' s1 empty) (aux' s0 t) else comb pt (aux' s0 empty) (aux' s1 t)
    else if shorter n m && matchPrefix p q n then
      if p &&& n = 0 then comb pt (aux' s t0) (aux' empty t1) else comb pt (aux' s t1) (aux' empty t0)
    else comb pt (aux' s empty) (aux' empty t)

def aux' (cacheMerge : CachePredicate σ K V) (pt : PredicateType)
    (decideFast : Tree K V → Tree K V → PredicateResult) (d : Decisions K V) :
    ℕ → Tree K V → Tree K V → Comp σ Bool
  | 0, _, _ => failure
  | fuel + 1, s, t =>
    match decideFast s t with
    | .pFalse => pure false
    | .pTrue => pure true
    | .pUnknown => cacheMerge (aux pt d (aux' cacheMerge pt decideFast d fuel)) s t

end MakeBinaryPredicate

def makeBinaryPredicate (cacheMerge : CachePredicate σ K V) (pt : PredicateType)
    (decideFast : Tree K V → Tree K V → PredicateResult) (d : Decisions K V) (s t : Tree K V) : Comp σ Bool :=
  MakeBinaryPredicate.aux' cacheMerge pt decideFast d (s.size + t.size + 1) s t

inductive DecideFast
  | done
  | unknown
  deriving DecidableEq

/-- Decisions that do nothing (true) or raise the exception. -/
structure Checks (K V : Type) where
  decideFst : K → V → Bool
  decideSnd : K → V → Bool
  decideBoth : V → V → Bool

def Tree.iter (f : K → V → Bool) : Tree K V → Bool
  | empty => true
  | leaf key data => f key data
  | branch _ _ tree0 tree1 => iter f tree0 && iter f tree1

namespace MakePredicate

/-- The comparison of two branches; the result is false when the exception is raised. -/
def compute (aux : Tree K V → Tree K V → Comp σ Bool) : Tree K V → Tree K V → Comp σ Bool
  | branch p m s0 s1, branch q n t0 t1 =>
    let s := branch p m s0 s1
    let t := branch q n t0 t1
    if p = q ∧ m = n then andThen (aux s0 t0) (aux s1 t1)
    else if shorter m n && matchPrefix q p m then
      if q &&& m = 0 then andThen (aux s0 t) (aux s1 empty) else andThen (aux s0 empty) (aux s1 t)
    else if shorter n m && matchPrefix p q n then
      if p &&& n = 0 then andThen (aux s t0) (aux empty t1) else andThen (aux s t1) (aux empty t0)
    else andThen (aux s empty) (aux empty t)
  | _, _ => failure

/-- The first argument bounds the depth, and the result is false when the exception is raised, as
`decideFast` may do (`none`). -/
def aux (cacheMerge : CachePredicate σ K V) (decideFast : Tree K V → Tree K V → Option DecideFast)
    (d : Checks K V) : ℕ → Tree K V → Tree K V → Comp σ Bool
  | 0, _, _ => failure
  | fuel + 1, s, t =>
    match decideFast s t with
    | none => pure false
    | some .done => pure true
    | some .unknown =>
      match s, t with
      | empty, t => pure (t.iter d.decideSnd)
      | leaf k v, empty => pure ((leaf k v).iter d.decideFst)
      | branch p m s0 s1, empty => pure ((branch p m s0 s1).iter d.decideFst)
      | leaf k1 v1, leaf k2 v2 =>
        if Key.id k1 = Key.id k2 then pure (d.decideBoth v1 v2)
        else andThen (pure (d.decideFst k1 v1)) (pure (d.decideSnd k2 v2))
      | leaf key value, branch p m l r =>
        let i := Key.id key
        let s := leaf key value
        if i.slt (p + m) then andThen (aux cacheMerge decideFast d fuel s l) (aux cacheMerge decideFast d fuel empty r)
        else andThen (aux cacheMerge decideFast d fuel empty l) (aux cacheMerge decideFast d fuel s r)
      | branch p m l r, leaf key value =>
        let i := Key.id key
        let t := leaf key value
        if i.slt (p + m) then andThen (aux cacheMerge decideFast d fuel l t) (aux cacheMerge decideFast d fuel r empty)
        else andThen (aux cacheMerge decideFast d fuel l empty) (aux cacheMerge decideFast d fuel r t)
      | branch p m s0 s1, branch q n t0 t1 =>
        cacheMerge (compute (aux cacheMerge decideFast d fuel)) (branch p m s0 s1) (branch q n t0 t1)

end MakePredicate

def makePredicate (cacheMerge : CachePredicate σ K V) (decideFast : Tree K V → Tree K V → Option DecideFast)
    (d : Checks K V) (s t : Tree K V) : Comp σ Bool :=
  MakePredicate.aux cacheMerge decideFast d (s.size + t.size + 1) s t

def Decisions.answer (d : Decisions K V) (k : K) : Option V × Option V → Option Bool
  | (none,none) => none
  | (some v,none) => some (d.decideFst k v)
  | (none,some w) => some (d.decideSnd k w)
  | (some v,some w) => some (d.decideBoth k v w)

/-- The conjunction or the disjunction of the decisions for all the bound keys. -/
def PredicateHolds (pt : PredicateType) (d : Decisions K V) (a : Tree K V × Tree K V) : Prop :=
  match pt with
  | .universalPredicate => ∀ k, d.answer k (find2 a k) ≠ some false
  | .existentialPredicate => ∃ k, d.answer k (find2 a k) = some true

def PredicateType.op : PredicateType → Bool → Bool → Bool
  | .universalPredicate => and
  | .existentialPredicate => or

open Classical in
noncomputable def value (pt : PredicateType) (d : Decisions K V) (a : Tree K V × Tree K V) : Bool :=
  decide (PredicateHolds pt d a)

section Values
variable {pt : PredicateType} {d : Decisions K V} {a b c : Tree K V × Tree K V}

theorem value_eq_true : value pt d a = true ↔ PredicateHolds pt d a := by simp [value]

theorem value_parts (h : Parts a b c) : value pt d a = pt.op (value pt d b) (value pt d c) := by
  have hnone : ∀ k, d.answer k (none,none) = none := fun _ => rfl
  rw [Bool.eq_iff_iff,value_eq_true]
  cases pt with
  | universalPredicate =>
    simp only [PredicateType.op,Bool.and_eq_true,value_eq_true,PredicateHolds]
    rw [← forall_and]
    refine forall_congr' fun k => ?_
    rcases h k with ⟨h1,h2⟩ | ⟨h1,h2⟩ <;> simp [h1,h2,hnone]
  | existentialPredicate =>
    simp only [PredicateType.op,Bool.or_eq_true,value_eq_true,PredicateHolds]
    rw [← exists_or]
    refine exists_congr fun k => ?_
    rcases h k with ⟨h1,h2⟩ | ⟨h1,h2⟩ <;> simp [h1,h2,hnone]

theorem value_empty : value pt d (empty,empty) = decide (pt = .universalPredicate) := by
  have hnone : ∀ k, d.answer k (find2 ((empty : Tree K V),(empty : Tree K V)) k) = none := fun _ => rfl
  rw [Bool.eq_iff_iff,value_eq_true]
  cases pt <;> simp [PredicateHolds,hnone]

theorem value_single (k0 : K) {x : Bool} (h0 : d.answer k0 (find2 a k0) = some x)
    (h : ∀ k, k ≠ k0 → d.answer k (find2 a k) = none) : value pt d a = x := by
  rw [Bool.eq_iff_iff,value_eq_true]
  cases pt with
  | universalPredicate =>
    constructor
    · intro hall
      have := hall k0
      rw [h0] at this
      simpa using this
    · intro hx k
      by_cases hk : k = k0
      · rw [hk,h0,hx]
        simp
      · rw [h k hk]
        simp
  | existentialPredicate =>
    constructor
    · rintro ⟨k,hk⟩
      by_cases hk0 : k = k0
      · rw [hk0,h0] at hk
        simpa using hk
      · rw [h k hk0] at hk
        cases hk
    · intro hx
      exact ⟨k0,by rw [h0,hx]⟩

theorem find_leaf_ne {k key : K} (h : k ≠ key) (v : V) : (leaf key v).find k = none := if_neg h

theorem find_leaf_self (key : K) (v : V) : (leaf key v).find key = some v := if_pos rfl

theorem value_fst (k : K) (v : V) : value pt d (leaf k v,empty) = d.decideFst k v := by
  refine value_single k ?_ fun k' hk => ?_
  · simp only [find2,find_leaf_self]
    rfl
  · simp only [find2,find_leaf_ne hk]
    rfl

theorem value_snd (k : K) (v : V) : value pt d (empty,leaf k v) = d.decideSnd k v := by
  refine value_single k ?_ fun k' hk => ?_
  · simp only [find2,find_leaf_self]
    rfl
  · simp only [find2,find_leaf_ne hk]
    rfl

theorem value_both (k : K) (v w : V) : value pt d (leaf k v,leaf k w) = d.decideBoth k v w := by
  refine value_single k ?_ fun k' hk => ?_
  · simp only [find2,find_leaf_self]
    rfl
  · simp only [find2,find_leaf_ne hk]
    rfl

theorem value_leaves {k1 k2 : K} (h : k1 ≠ k2) (v w : V) :
    value pt d (leaf k1 v,leaf k2 w) = pt.op (d.decideFst k1 v) (d.decideSnd k2 w) := by
  rw [value_parts (split_leaves h v w).parts,value_fst,value_snd]

def Decisions.Symmetric (d : Decisions K V) : Prop :=
  d.decideFst = d.decideSnd ∧ ∀ k v w, d.decideBoth k v w = d.decideBoth k w v

theorem value_swap (h : d.Symmetric) (s t : Tree K V) : value pt d (t,s) = value pt d (s,t) := by
  have hans : ∀ k, d.answer k (find2 (t,s) k) = d.answer k (find2 (s,t) k) := by
    intro k
    simp only [find2]
    cases s.find k <;> cases t.find k <;> simp [Decisions.answer,h.1,h.2 k]
  rw [Bool.eq_iff_iff,value_eq_true,value_eq_true]
  cases pt <;> simp only [PredicateHolds,hans]

end Values

section Returns
variable {I : σ → Prop} {pt : PredicateType} {d : Decisions K V}

theorem comb_returns {x y : Bool} {m m' : Comp σ Bool} (hx : Returns I x m) (hy : Returns I y m') :
    Returns I (pt.op x y) (comb pt m m') := by
  cases pt with
  | universalPredicate =>
    refine Returns.bind hx ?_
    cases x with
    | false => exact Returns.pure false
    | true => exact hy
  | existentialPredicate =>
    refine Returns.bind hx ?_
    cases x with
    | false => exact hy
    | true => exact Returns.pure true

theorem comb_split {a b c : Tree K V × Tree K V} (h : Split a b c) {f : Tree K V → Tree K V → Comp σ Bool}
    (hrec : ∀ x, Below a x → Returns I (value pt d x) (f x.1 x.2)) :
    Returns I (value pt d a) (comb pt (f b.1 b.2) (f c.1 c.2)) := by
  rw [value_parts h.parts]
  exact comb_returns (hrec b h.fst) (hrec c h.snd)

namespace MakeBinaryPredicate

theorem aux_returns {s t : Tree K V} (hs : s.Canonical) (ht : t.Canonical)
    {aux' : Tree K V → Tree K V → Comp σ Bool}
    (hrec : ∀ x, Below (s,t) x → Returns I (value pt d x) (aux' x.1 x.2)) :
    Returns I (value pt d (s,t)) (aux pt d aux' s t) := by
  cases s with
  | empty =>
    cases t with
    | empty =>
      rw [value_empty]
      cases pt <;> exact Returns.pure _
    | leaf key data =>
      rw [value_snd]
      exact Returns.pure _
    | branch q n t0 t1 => exact comb_split (split_empty ht) hrec
  | leaf k1 v1 =>
    cases t with
    | empty =>
      rw [value_fst]
      exact Returns.pure _
    | leaf k2 v2 =>
      rw [aux]
      split
      · next h =>
        obtain rfl := Key.id_injective h
        rw [value_both]
        exact Returns.pure _
      · next h =>
        rw [value_leaves fun hk => h (by rw [hk])]
        exact comb_returns (Returns.pure _) (Returns.pure _)
    | branch q n t0 t1 =>
      have hsplit := split_leaf ht k1 v1
      rw [aux]
      split at hsplit
      · next h =>
        rw [if_pos h]
        exact comb_split hsplit.comm hrec
      · next h =>
        rw [if_neg h]
        exact comb_split hsplit.comm hrec
  | branch p m s0 s1 =>
    cases t with
    | empty => exact comb_split (split_empty hs).swap hrec
    | leaf key value =>
      have hsplit := split_leaf hs key value
      rw [aux]
      split at hsplit
      · next h =>
        rw [if_pos h]
        exact comb_split hsplit.comm.swap hrec
      · next h =>
        rw [if_neg h]
        exact comb_split hsplit.comm.swap hrec
    | branch q n t0 t1 =>
      have hsplit := split_branches hs ht
      rw [aux]
      split_ifs at hsplit ⊢
      · exact comb_split hsplit hrec
      · exact comb_split hsplit.comm hrec
      · exact comb_split hsplit.comm hrec
      · exact comb_split hsplit hrec
      · exact comb_split hsplit hrec
      · exact comb_split hsplit hrec

end MakeBinaryPredicate

def FastSound (pt : PredicateType) (d : Decisions K V) (decideFast : Tree K V → Tree K V → PredicateResult) : Prop :=
  ∀ s t : Tree K V, s.Canonical → t.Canonical →
    (decideFast s t = .pTrue → PredicateHolds pt d (s,t)) ∧ (decideFast s t = .pFalse → ¬ PredicateHolds pt d (s,t))

/-- What a cache does with a function on pairs: it returns the value when the function does. -/
def Caching (I : σ → Prop) (F : Tree K V × Tree K V → Bool) (Valid : Tree K V × Tree K V → Prop) (symmetric : Bool)
    (c : CachePredicate σ K V) : Prop :=
  ∀ (f : Tree K V → Tree K V → Comp σ Bool) (s t : Tree K V), Valid (s,t) →
    (∀ x, SameKey symmetric (s,t) x → Returns I (F x) (f x.1 x.2)) → Returns I (F (s,t)) (c f s t)

section Caching
variable {Valid : Tree K V × Tree K V → Prop} {symmetric : Bool} {c : CachePredicate σ K V}

theorem SameKey.canonical {s t : Tree K V} {x : Tree K V × Tree K V} (h : SameKey symmetric (s,t) x) (hs : s.Canonical)
    (ht : t.Canonical) : x.1.Canonical ∧ x.2.Canonical ∧ x.1.size + x.2.size = s.size + t.size := by
  rcases h with rfl | ⟨-,rfl⟩
  · exact ⟨hs,ht,rfl⟩
  · exact ⟨ht,hs,Nat.add_comm _ _⟩

theorem MakeBinaryPredicate.aux'_returns (hc : Caching I (value pt d) Valid symmetric c)
    (hvalid : ∀ a : Tree K V × Tree K V, a.1.Canonical → a.2.Canonical → a ≠ (empty,empty) → Valid a)
    {decideFast : Tree K V → Tree K V → PredicateResult} (hfast : FastSound pt d decideFast) (fuel : ℕ)
    {s t : Tree K V} (hs : s.Canonical) (ht : t.Canonical) (hlt : s.size + t.size < fuel) (hkey : decideFast s t = .pUnknown → Valid (s,t)) :
    Returns I (value pt d (s,t)) (aux' c pt decideFast d fuel s t) := by
  induction fuel generalizing s t with
  | zero => omega
  | succ fuel ih =>
    obtain ⟨htrue,hfalse⟩ := hfast s t hs ht
    rw [aux']
    cases hf : decideFast s t with
    | pTrue =>
      rw [value_eq_true.mpr (htrue hf)]
      exact Returns.pure true
    | pFalse =>
      have hval : value pt d (s,t) = false := by
        rw [Bool.eq_false_iff,ne_eq,value_eq_true]
        exact hfalse hf
      rw [hval]
      exact Returns.pure false
    | pUnknown =>
      refine hc _ s t (hkey hf) fun x hx => ?_
      obtain ⟨hx1,hx2,hsize⟩ := hx.canonical hs ht
      refine aux_returns hx1 hx2 fun y hy => ih hy.fst hy.snd ?_ fun _ => hvalid _ hy.fst hy.snd hy.ne
      have := hy.lt
      dsimp only at this
      omega

theorem makeBinaryPredicate_returns (hc : Caching I (value pt d) Valid symmetric c)
    (hvalid : ∀ a : Tree K V × Tree K V, a.1.Canonical → a.2.Canonical → a ≠ (empty,empty) → Valid a)
    {decideFast : Tree K V → Tree K V → PredicateResult} (hfast : FastSound pt d decideFast) {s t : Tree K V}
    (hs : s.Canonical) (ht : t.Canonical) (hkey : decideFast s t = .pUnknown → Valid (s,t)) :
    Returns I (value pt d (s,t)) (makeBinaryPredicate c pt decideFast d s t) :=
  MakeBinaryPredicate.aux'_returns hc hvalid hfast _ hs ht (Nat.lt_succ_self _) hkey

end Caching

def Checks.decisions (d : Checks K V) : Decisions K V where
  decideFst := d.decideFst
  decideSnd := d.decideSnd
  decideBoth _ v w := d.decideBoth v w

/-- Returning `Done` means that the relation holds, and raising the exception that it does not. -/
def RaiseSound (d : Checks K V) (decideFast : Tree K V → Tree K V → Option DecideFast) : Prop :=
  ∀ s t : Tree K V, s.Canonical → t.Canonical →
    (decideFast s t = some .done → PredicateHolds .universalPredicate d.decisions (s,t)) ∧
      (decideFast s t = none → ¬ PredicateHolds .universalPredicate d.decisions (s,t))

section Checks
variable {d : Checks K V}

theorem iter_snd {t : Tree K V} (ht : t.Canonical) :
    t.iter d.decideSnd = value .universalPredicate d.decisions (empty,t) := by
  induction t with
  | empty =>
    rw [value_empty]
    rfl
  | leaf k v =>
    rw [value_snd]
    rfl
  | branch p m t0 t1 ih0 ih1 =>
    have hsplit := split_empty (V := V) ht
    rw [value_parts hsplit.parts,Tree.iter,ih0 hsplit.fst.snd,ih1 hsplit.snd.snd]
    rfl

theorem iter_fst {t : Tree K V} (ht : t.Canonical) :
    t.iter d.decideFst = value .universalPredicate d.decisions (t,empty) := by
  induction t with
  | empty =>
    rw [value_empty]
    rfl
  | leaf k v =>
    rw [value_fst]
    rfl
  | branch p m t0 t1 ih0 ih1 =>
    have hsplit := (split_empty (V := V) ht).swap
    rw [Prod.swap_prod_mk,Prod.swap_prod_mk,Prod.swap_prod_mk] at hsplit
    rw [value_parts hsplit.parts,Tree.iter,ih0 hsplit.fst.fst,ih1 hsplit.snd.fst]
    rfl

theorem andThen_split {a b c : Tree K V × Tree K V} (h : Split a b c) {f : Tree K V → Tree K V → Comp σ Bool}
    (hrec : ∀ x, Below a x → Returns I (value .universalPredicate d.decisions x) (f x.1 x.2)) :
    Returns I (value .universalPredicate d.decisions a) (andThen (f b.1 b.2) (f c.1 c.2)) := comb_split h hrec

namespace MakePredicate

theorem compute_returns {s t : Tree K V} {p m q n : NativeInt} {s0 s1 t0 t1 : Tree K V} (hs : s = branch p m s0 s1)
    (ht : t = branch q n t0 t1) (hcs : s.Canonical) (hct : t.Canonical) {aux : Tree K V → Tree K V → Comp σ Bool}
    (hrec : ∀ x, Below (s,t) x → Returns I (value .universalPredicate d.decisions x) (aux x.1 x.2)) :
    Returns I (value .universalPredicate d.decisions (s,t)) (compute aux s t) := by
  subst hs ht
  have hsplit := split_branches hcs hct
  rw [compute]
  split_ifs at hsplit ⊢
  · exact andThen_split hsplit hrec
  · exact andThen_split hsplit hrec
  · exact andThen_split hsplit.comm hrec
  · exact andThen_split hsplit hrec
  · exact andThen_split hsplit hrec
  · exact andThen_split hsplit hrec

theorem aux_returns {Valid : Tree K V × Tree K V → Prop} {symmetric : Bool} {c : CachePredicate σ K V}
    (hc : Caching I (value .universalPredicate d.decisions) Valid symmetric c)
    (hvalid : ∀ a : Tree K V × Tree K V, a.1.Canonical → a.2.Canonical → a ≠ (empty,empty) → Valid a)
    {decideFast : Tree K V → Tree K V → Option DecideFast} (hfast : RaiseSound d decideFast) (fuel : ℕ)
    {s t : Tree K V} (hs : s.Canonical) (ht : t.Canonical) (hlt : s.size + t.size < fuel) :
    Returns I (value .universalPredicate d.decisions (s,t)) (aux c decideFast d fuel s t) := by
  induction fuel generalizing s t with
  | zero => omega
  | succ fuel ih =>
    obtain ⟨htrue,hfalse⟩ := hfast s t hs ht
    have hrec : ∀ u v : Tree K V, u.size + v.size = s.size + t.size → ∀ x, Below (u,v) x →
        Returns I (value .universalPredicate d.decisions x) (aux c decideFast d fuel x.1 x.2) := by
      intro u v huv x hx
      have := hx.lt
      dsimp only at this
      exact ih hx.fst hx.snd (by omega)
    unfold aux
    cases hf : decideFast s t with
    | none =>
      have hval : value .universalPredicate d.decisions (s,t) = false := by
        rw [Bool.eq_false_iff,ne_eq,value_eq_true]
        exact hfalse hf
      rw [hval]
      exact Returns.pure false
    | some fast =>
      cases fast with
      | done =>
        rw [value_eq_true.mpr (htrue hf)]
        exact Returns.pure true
      | unknown =>
        have hrec' := hrec s t rfl
        cases s with
        | empty =>
          rw [← iter_snd ht]
          exact Returns.pure _
        | leaf k1 v1 =>
          cases t with
          | empty =>
            rw [← iter_fst hs]
            exact Returns.pure _
          | leaf k2 v2 =>
            dsimp only
            split
            · next h =>
              obtain rfl := Key.id_injective h
              rw [value_both]
              exact Returns.pure _
            · next h =>
              rw [value_leaves fun hk => h (by rw [hk])]
              exact comb_returns (Returns.pure _) (Returns.pure _)
          | branch q n t0 t1 =>
            have hsplit := split_leaf ht k1 v1
            dsimp only
            split_ifs at hsplit ⊢
            · exact andThen_split hsplit hrec'
            · exact andThen_split hsplit.comm hrec'
        | branch p m s0 s1 =>
          cases t with
          | empty =>
            rw [← iter_fst hs]
            exact Returns.pure _
          | leaf key v =>
            have hsplit := split_leaf hs key v
            dsimp only
            split_ifs at hsplit ⊢
            · exact andThen_split hsplit.swap hrec'
            · exact andThen_split hsplit.comm.swap hrec'
          | branch q n t0 t1 =>
            refine hc _ _ _ (hvalid _ hs ht (by simp)) fun x hx => ?_
            rcases hx with rfl | ⟨-,rfl⟩
            · exact compute_returns rfl rfl hs ht (hrec _ _ rfl)
            · exact compute_returns rfl rfl ht hs (hrec _ _ (Nat.add_comm _ _))

end MakePredicate

theorem makePredicate_returns {Valid : Tree K V × Tree K V → Prop} {symmetric : Bool} {c : CachePredicate σ K V}
    (hc : Caching I (value .universalPredicate d.decisions) Valid symmetric c)
    (hvalid : ∀ a : Tree K V × Tree K V, a.1.Canonical → a.2.Canonical → a ≠ (empty,empty) → Valid a)
    {decideFast : Tree K V → Tree K V → Option DecideFast} (hfast : RaiseSound d decideFast) {s t : Tree K V}
    (hs : s.Canonical) (ht : t.Canonical) :
    Returns I (value .universalPredicate d.decisions (s,t)) (makePredicate c decideFast d s t) :=
  MakePredicate.aux_returns hc hvalid hfast _ hs ht (Nat.lt_succ_self _)

end Checks
end Returns
end FramaC.Hptmap
