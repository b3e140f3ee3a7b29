import FramaC.Lib.BalancedMap
import Mathlib.Order.Nat
import Mathlib.Order.Lattice
import Mathlib.Order.Std
import Mathlib.Data.List.Perm.Basic

/-! # Range maps

Maps over a totally ordered type of keys, and the simultaneous enumeration of two of them. When the
least remaining key is bound in the second map only, the enumeration presents its binding as one of
the first map.
-/
namespace FramaC
open BalancedMap
variable {K V : Type} [LinearOrder K]

/-- A balanced tree whose keys increase strictly. -/
structure Rangemap (K V : Type) [LinearOrder K] where
  tree : Tree K V
  ordered : tree.Ordered (compare : K → K → Ordering)

namespace Rangemap

def empty : Rangemap K V := ⟨.empty,List.Pairwise.nil⟩

def singleton (x : K) (d : V) : Rangemap K V := ⟨.singleton x d,List.pairwise_singleton ..⟩

/-- `fastEqual` recognises values that need not be replaced. -/
def add (fastEqual : V → V → Bool) (x : K) (data : V) (m : Rangemap K V) : Rangemap K V :=
  ⟨m.tree.add compare x fastEqual data,m.ordered.add x fastEqual data⟩

/-- `none` is `Not_found`. -/
def find (x : K) (m : Rangemap K V) : Option V := m.tree.find compare x

def mem (x : K) (m : Rangemap K V) : Bool := m.tree.mem compare x

def remove (x : K) (m : Rangemap K V) : Rangemap K V :=
  ⟨m.tree.remove compare x,m.ordered.remove x⟩

@[grind =] def bindings (m : Rangemap K V) : List (K × V) := m.tree.bindings

def filter (fastEqual : V → V → Bool) (p : K → V → Bool) (s : Rangemap K V) : Rangemap K V :=
  filt s.tree empty
where
  filt : Tree K V → Rangemap K V → Rangemap K V
    | .empty,accu => accu
    | .node l v d r _,accu => filt r (filt l (if p v d then add fastEqual v d accu else accu))

/-- What remains of the enumeration of a map. -/
inductive Enumeration (K V : Type) where
  | done
  | more (key : K) (data : V) (tree : Tree K V) (rest : Enumeration K V)

omit [LinearOrder K] in
def consEnum : Tree K V → Enumeration K V → Enumeration K V
  | .empty,e => e
  | .node l v d r _,e => consEnum l (.more v d r e)

@[grind =] def Enumeration.bindings : Enumeration K V → List (K × V)
  | .done => []
  | .more k v t e => (k,v) :: t.bindings ++ e.bindings

omit [LinearOrder K] in
@[simp] theorem bindings_consEnum (t : Tree K V) (e : Enumeration K V) :
    (consEnum t e).bindings = t.bindings ++ e.bindings := by
  induction t generalizing e with
  | empty => rfl
  | node l v d r _ ihl ihr => simp [consEnum,ihl,Enumeration.bindings]

/-- The recursion common to the four functions: `visit` receives a key, the options of both maps and
the result for the keys that follow. -/
def enumerate {A : Type} (visit : K → Option V → Option V → A → A) (stop : A) :
    Enumeration K V → Enumeration K V → A
  | .done,.done => stop
  | .done,.more k v t e => visit k none (some v) (enumerate visit stop .done (consEnum t e))
  | .more k v t e,.done => visit k (some v) none (enumerate visit stop (consEnum t e) .done)
  | .more k1 v1 t1 e1,.more k2 v2 t2 e2 =>
    match compare k1 k2 with
    | .eq => visit k1 (some v1) (some v2) (enumerate visit stop (consEnum t1 e1) (consEnum t2 e2))
    | .lt => visit k1 (some v1) none (enumerate visit stop (consEnum t1 e1) (.more k2 v2 t2 e2))
    -- the value of the second map is passed in the place of the first
    | .gt => visit k2 (some v2) none (enumerate visit stop (.more k1 v1 t1 e1) (consEnum t2 e2))
termination_by e1 e2 => e1.bindings.length + e2.bindings.length
decreasing_by all_goals simp [Enumeration.bindings] <;> omega

def fold2 {A : Type} (f : K → Option V → Option V → A → A) (m1 m2 : Rangemap K V) (r : A) : A :=
  enumerate f r (consEnum m1.tree .done) (consEnum m2.tree .done)

def iter2 {M : Type → Type} [Monad M] (f : K → Option V → Option V → M Unit) (m1 m2 : Rangemap K V) : M Unit :=
  enumerate (fun k v1 v2 rest => do f k v1 v2; rest) (pure ()) (consEnum m1.tree .done) (consEnum m2.tree .done)

def exists2 (f : K → Option V → Option V → Bool) (m1 m2 : Rangemap K V) : Bool :=
  enumerate (fun k v1 v2 rest => f k v1 v2 || rest) false (consEnum m1.tree .done) (consEnum m2.tree .done)

def forAll2 (f : K → Option V → Option V → Bool) (m1 m2 : Rangemap K V) : Bool :=
  enumerate (fun k v1 v2 rest => f k v1 v2 && rest) true (consEnum m1.tree .done) (consEnum m2.tree .done)

def presented : List (K × V) → List (K × V) → List (K × Option V × Option V)
  | [],[] => []
  | [],b :: l2 => (b.1,none,some b.2) :: presented [] l2
  | a :: l1,[] => (a.1,some a.2,none) :: presented l1 []
  | a :: l1,b :: l2 =>
    match compare a.1 b.1 with
    | .eq => (a.1,some a.2,some b.2) :: presented l1 l2
    | .lt => (a.1,some a.2,none) :: presented l1 (b :: l2)
    | .gt => (b.1,some b.2,none) :: presented (a :: l1) l2
termination_by l1 l2 => l1.length + l2.length

theorem enumerate_eq_foldr {A : Type} (visit : K → Option V → Option V → A → A) (stop : A)
    (e1 e2 : Enumeration K V) :
    enumerate visit stop e1 e2 =
      (presented e1.bindings e2.bindings).foldr (fun t r => visit t.1 t.2.1 t.2.2 r) stop := by
  induction e1,e2 using enumerate.induct with
  | case1 => simp [enumerate,presented,Enumeration.bindings]
  | case2 k v t e ih => simp [enumerate,presented,Enumeration.bindings,ih]
  | case3 k v t e ih => simp [enumerate,presented,Enumeration.bindings,ih]
  | case4 k1 v1 t1 e1 k2 v2 t2 e2 h ih => simp [enumerate,presented,Enumeration.bindings,ih,h]
  | case5 k1 v1 t1 e1 k2 v2 t2 e2 h ih => simp [enumerate,presented,Enumeration.bindings,ih,h]
  | case6 k1 v1 t1 e1 k2 v2 t2 e2 h ih => simp [enumerate,presented,Enumeration.bindings,ih,h]

abbrev Increasing (l : List (K × V)) : Prop := l.Pairwise fun a b => a.1 < b.1

theorem mem_presented {l1 l2 : List (K × V)} {k : K} :
    (∃ t ∈ presented l1 l2, t.1 = k) ↔ (∃ a ∈ l1, a.1 = k) ∨ ∃ b ∈ l2, b.1 = k := by
  induction l1,l2 using presented.induct with
  | case1 => simp [presented]
  | case2 b l2 ih => simp [presented,ih]
  | case3 a l1 ih => simp [presented,ih]
  | case4 a l1 b l2 h ih =>
    have he := compare_eq_iff_eq.mp h
    rw [presented,h]
    simp only [List.mem_cons,exists_eq_or_imp,ih]
    grind
  | case5 a l1 b l2 h ih =>
    rw [presented,h]
    simp only [List.mem_cons,exists_eq_or_imp,ih]
    grind
  | case6 a l1 b l2 h ih =>
    rw [presented,h]
    simp only [List.mem_cons,exists_eq_or_imp,ih]
    grind

theorem presented_increasing {l1 l2 : List (K × V)} (h1 : Increasing l1) (h2 : Increasing l2) :
    (presented l1 l2).Pairwise fun t u => t.1 < u.1 := by
  -- a key that bounds both remaining lists bounds all that is presented of them
  have bounded : ∀ {l l' : List (K × V)} {k : K}, (∀ a ∈ l, k < a.1) → (∀ b ∈ l', k < b.1) →
      ∀ t ∈ presented l l', k < t.1 := fun ha hb t ht => by
    obtain ⟨a,hm,he⟩ | ⟨b,hm,he⟩ := (mem_presented).mp ⟨t,ht,rfl⟩
    · exact he ▸ ha a hm
    · exact he ▸ hb b hm
  induction l1,l2 using presented.induct with
  | case1 => simp [presented]
  | case2 b l2 ih =>
    obtain ⟨hb,h2⟩ := List.pairwise_cons.mp h2
    rw [presented]
    exact List.pairwise_cons.mpr ⟨bounded (by simp) hb,ih h1 h2⟩
  | case3 a l1 ih =>
    obtain ⟨ha,h1⟩ := List.pairwise_cons.mp h1
    rw [presented]
    exact List.pairwise_cons.mpr ⟨bounded ha (by simp),ih h1 h2⟩
  | case4 a l1 b l2 h ih =>
    obtain ⟨ha,h1⟩ := List.pairwise_cons.mp h1
    obtain ⟨hb,h2⟩ := List.pairwise_cons.mp h2
    have he : a.1 = b.1 := compare_eq_iff_eq.mp h
    rw [presented,h]
    exact List.pairwise_cons.mpr ⟨bounded ha (he ▸ hb),ih h1 h2⟩
  | case5 a l1 b l2 h ih =>
    obtain ⟨ha,h1⟩ := List.pairwise_cons.mp h1
    have hlt : a.1 < b.1 := compare_lt_iff_lt.mp h
    rw [presented,h]
    refine List.pairwise_cons.mpr ⟨bounded ha (List.forall_mem_cons.mpr ⟨hlt,fun c hc => ?_⟩),ih h1 h2⟩
    exact lt_trans hlt ((List.pairwise_cons.mp h2).1 c hc)
  | case6 a l1 b l2 h ih =>
    obtain ⟨hb,h2⟩ := List.pairwise_cons.mp h2
    have hlt : b.1 < a.1 := compare_gt_iff_gt.mp h
    rw [presented,h]
    refine List.pairwise_cons.mpr ⟨bounded (List.forall_mem_cons.mpr ⟨hlt,fun c hc => ?_⟩) hb,ih h1 h2⟩
    exact lt_trans hlt ((List.pairwise_cons.mp h1).1 c hc)

def Carries (l1 l2 : List (K × V)) (t : K × Option V × Option V) : Prop :=
  (∀ v, t.2.1 = some v ↔ (t.1,v) ∈ l1) ∧ ∀ v, t.2.2 = some v ↔ (t.1,v) ∈ l2

theorem mem_cons_of_lt {a : K × V} {l : List (K × V)} {k : K} (h : a.1 < k) (v : V) : (k,v) ∈ a :: l ↔ (k,v) ∈ l := by
  refine ⟨fun hm => ?_,List.mem_cons_of_mem a⟩
  rcases List.mem_cons.mp hm with rfl | hm
  · exact absurd h (lt_irrefl _)
  · exact hm

theorem mem_cons_self_iff {a : K × V} {l : List (K × V)} (h : Increasing (a :: l)) (v : V) :
    (a.1,v) ∈ a :: l ↔ some a.2 = some v := by
  refine ⟨fun hm => ?_,fun he => ?_⟩
  · rcases List.mem_cons.mp hm with he | hm
    · rw [← he]
    · exact absurd ((List.pairwise_cons.mp h).1 _ hm) (lt_irrefl _)
  · cases he
    exact List.mem_cons_self

theorem not_mem_of_lt {a : K × V} {l : List (K × V)} (h : Increasing (a :: l)) {k : K} (hk : k < a.1) (v : V) :
    (k,v) ∉ a :: l := by
  intro hm
  rcases List.mem_cons.mp hm with rfl | hm
  · exact lt_irrefl _ hk
  · exact lt_asymm hk ((List.pairwise_cons.mp h).1 _ hm)

/-- Every key of the second list that the first lacks is above the keys of the first. -/
def OnlyAbove (l1 l2 : List (K × V)) : Prop :=
  ∀ b ∈ l2, (∀ a ∈ l1, a.1 ≠ b.1) → ∀ a ∈ l1, a.1 < b.1

theorem presented_carries {l1 l2 : List (K × V)} (h1 : Increasing l1) (h2 : Increasing l2) (hc : OnlyAbove l1 l2) :
    ∀ t ∈ presented l1 l2, Carries l1 l2 t := by
  have hinc := presented_increasing h1 h2
  induction l1,l2 using presented.induct with
  | case1 => simp [presented]
  | case2 b l2 ih =>
    rw [presented] at hinc ⊢
    obtain ⟨hlt,hinc⟩ := List.pairwise_cons.mp hinc
    have ih' := ih h1 (List.pairwise_cons.mp h2).2 (by simp [OnlyAbove]) hinc
    refine List.forall_mem_cons.mpr ⟨⟨by simp,fun v => (mem_cons_self_iff h2 v).symm⟩,fun t ht => ?_⟩
    exact ⟨(ih' t ht).1,fun v => ((ih' t ht).2 v).trans (mem_cons_of_lt (a := b) (hlt t ht) v).symm⟩
  | case3 a l1 ih =>
    rw [presented] at hinc ⊢
    obtain ⟨hlt,hinc⟩ := List.pairwise_cons.mp hinc
    have ih' := ih (List.pairwise_cons.mp h1).2 h2 (by simp [OnlyAbove]) hinc
    refine List.forall_mem_cons.mpr ⟨⟨fun v => (mem_cons_self_iff h1 v).symm,by simp⟩,fun t ht => ?_⟩
    exact ⟨fun v => ((ih' t ht).1 v).trans (mem_cons_of_lt (a := a) (hlt t ht) v).symm,(ih' t ht).2⟩
  | case4 a l1 b l2 h ih =>
    have he : a.1 = b.1 := compare_eq_iff_eq.mp h
    rw [presented,h] at hinc ⊢
    obtain ⟨hlt,hinc⟩ := List.pairwise_cons.mp hinc
    have hc' : OnlyAbove l1 l2 := fun c hcm hn x hx => hc c (List.mem_cons_of_mem b hcm)
      (List.forall_mem_cons.mpr ⟨ne_of_lt (he ▸ (List.pairwise_cons.mp h2).1 c hcm),hn⟩) x (List.mem_cons_of_mem a hx)
    have ih' := ih (List.pairwise_cons.mp h1).2 (List.pairwise_cons.mp h2).2 hc' hinc
    refine List.forall_mem_cons.mpr ⟨⟨fun v => (mem_cons_self_iff h1 v).symm,fun v => ?_⟩,fun t ht => ⟨fun v => ?_,fun v => ?_⟩⟩
    · rw [he]
      exact (mem_cons_self_iff h2 v).symm
    · exact ((ih' t ht).1 v).trans (mem_cons_of_lt (a := a) (hlt t ht) v).symm
    · exact ((ih' t ht).2 v).trans (mem_cons_of_lt (a := b) (he ▸ hlt t ht) v).symm
  | case5 a l1 b l2 h ih =>
    have hab : a.1 < b.1 := compare_lt_iff_lt.mp h
    rw [presented,h] at hinc ⊢
    obtain ⟨hlt,hinc⟩ := List.pairwise_cons.mp hinc
    have hc' : OnlyAbove l1 (b :: l2) := fun c hcm hn x hx => by
      have hac : a.1 < c.1 := by
        rcases List.mem_cons.mp hcm with rfl | hcm
        · exact hab
        · exact lt_trans hab ((List.pairwise_cons.mp h2).1 c hcm)
      exact hc c hcm (List.forall_mem_cons.mpr ⟨ne_of_lt hac,hn⟩) x (List.mem_cons_of_mem a hx)
    have ih' := ih (List.pairwise_cons.mp h1).2 h2 hc' hinc
    refine List.forall_mem_cons.mpr ⟨⟨fun v => (mem_cons_self_iff h1 v).symm,fun v => ?_⟩,fun t ht => ⟨fun v => ?_,(ih' t ht).2⟩⟩
    · simpa using not_mem_of_lt h2 hab v
    · exact ((ih' t ht).1 v).trans (mem_cons_of_lt (a := a) (hlt t ht) v).symm
  | case6 a l1 b l2 h ih =>
    -- the least remaining key would be bound in the second list only
    have hba : b.1 < a.1 := compare_gt_iff_gt.mp h
    have hn : ∀ c ∈ a :: l1, c.1 ≠ b.1 := fun c hcm he => not_mem_of_lt h1 hba c.2 (he ▸ hcm)
    exact absurd (hc b List.mem_cons_self hn a List.mem_cons_self) (lt_asymm hba)

theorem presented_swapped {l1 l2 : List (K × V)} (h1 : Increasing l1) (h2 : Increasing l2) {c : K × V} (hcm : c ∈ l2)
    (hn : ∀ a ∈ l1, a.1 ≠ c.1) {x : K × V} (hx : x ∈ l1) (hlt : c.1 < x.1) :
    (c.1,some c.2,none) ∈ presented l1 l2 := by
  induction l1,l2 using presented.induct with
  | case1 => cases hcm
  | case2 b l2 ih => cases hx
  | case3 a l1 ih => cases hcm
  | case4 a l1 b l2 h ih =>
    have he : a.1 = b.1 := compare_eq_iff_eq.mp h
    rw [presented,h]
    have hcm' : c ∈ l2 := (List.mem_cons.mp hcm).resolve_left fun hcb => hn a List.mem_cons_self (hcb ▸ he)
    have hac : a.1 < c.1 := he ▸ (List.pairwise_cons.mp h2).1 c hcm'
    have hx' : x ∈ l1 := (List.mem_cons.mp hx).resolve_left fun hxa => lt_asymm hac (hxa ▸ hlt)
    exact List.mem_cons_of_mem _ (ih (List.pairwise_cons.mp h1).2 (List.pairwise_cons.mp h2).2 hcm'
      (fun y hy => hn y (List.mem_cons_of_mem a hy)) hx')
  | case5 a l1 b l2 h ih =>
    have hab : a.1 < b.1 := compare_lt_iff_lt.mp h
    rw [presented,h]
    have hac : a.1 < c.1 := by
      rcases List.mem_cons.mp hcm with rfl | hcm
      · exact hab
      · exact lt_trans hab ((List.pairwise_cons.mp h2).1 c hcm)
    have hx' : x ∈ l1 := (List.mem_cons.mp hx).resolve_left fun hxa => lt_asymm hac (hxa ▸ hlt)
    exact List.mem_cons_of_mem _ (ih (List.pairwise_cons.mp h1).2 h2 hcm
      (fun y hy => hn y (List.mem_cons_of_mem a hy)) hx')
  | case6 a l1 b l2 h ih =>
    rw [presented,h]
    rcases List.mem_cons.mp hcm with rfl | hcm
    · exact List.mem_cons_self
    · exact List.mem_cons_of_mem _ (ih h1 (List.pairwise_cons.mp h2).2 hcm hn hx)

theorem increasing_bindings (m : Rangemap K V) : Increasing m.bindings :=
  List.Pairwise.imp (fun h => compare_lt_iff_lt.mp h) m.ordered

theorem find_eq_some {m : Rangemap K V} {k : K} {v : V} : m.find k = some v ↔ (k,v) ∈ m.bindings :=
  m.ordered.find_eq_some

theorem isSome_find {m : Rangemap K V} {k : K} : (m.find k).isSome = true ↔ ∃ a ∈ m.bindings, a.1 = k := by
  rw [Option.isSome_iff_exists]
  refine ⟨fun ⟨v,hv⟩ => ⟨(k,v),(find_eq_some).mp hv,rfl⟩,?_⟩
  rintro ⟨a,ha,rfl⟩
  exact ⟨a.2,(find_eq_some).mpr ha⟩

/-- What the two maps bind to a key, passed to `f`. -/
def apply {A : Type} (f : K → Option V → Option V → A) (m1 m2 : Rangemap K V) (k : K) : A :=
  f k (m1.find k) (m2.find k)

/-- The keys bound in either map, in increasing order, are each presented once with what the maps
bind to them: by `fold2` in some order, by the others in increasing order. -/
def Law (m1 m2 : Rangemap K V) : Prop :=
  ∃ ks : List K, ks.Pairwise (· < ·) ∧
    (∀ k, k ∈ ks ↔ (m1.find k).isSome = true ∨ (m2.find k).isSome = true) ∧
    (∃ ks' : List K, ks'.Perm ks ∧ ∀ (A : Type) (f : K → Option V → Option V → A → A) (r : A),
      fold2 f m1 m2 r = ks'.foldr (apply f m1 m2) r) ∧
    (∀ (M : Type → Type) [Monad M] (f : K → Option V → Option V → M Unit),
      iter2 f m1 m2 = ks.forM (apply f m1 m2)) ∧
    (∀ f : K → Option V → Option V → Bool, exists2 f m1 m2 = ks.any (apply f m1 m2)) ∧
    ∀ f : K → Option V → Option V → Bool, forAll2 f m1 m2 = ks.all (apply f m1 m2)

/-- Every key bound in the second map only is above all keys of the first. -/
def SecondOnlyAbove (m1 m2 : Rangemap K V) : Prop :=
  ∀ k k', m1.find k = none → (m2.find k).isSome = true → (m1.find k').isSome = true → k' < k

theorem secondOnlyAbove_iff {m1 m2 : Rangemap K V} :
    SecondOnlyAbove m1 m2 ↔ OnlyAbove m1.bindings m2.bindings := by
  have unbound : ∀ {k : K}, m1.find k = none ↔ ∀ a ∈ m1.bindings, a.1 ≠ k := fun {k} => by
    rw [← Option.not_isSome_iff_eq_none,isSome_find]
    exact ⟨fun h a ha he => h ⟨a,ha,he⟩,fun h ⟨a,ha,he⟩ => h a ha he⟩
  refine ⟨fun h b hb hn a ha => ?_,fun h k k' hk hk2 hk' => ?_⟩
  · exact h b.1 a.1 (unbound.mpr hn) (isSome_find.mpr ⟨b,hb,rfl⟩) (isSome_find.mpr ⟨a,ha,rfl⟩)
  · obtain ⟨b,hb,rfl⟩ := (isSome_find).mp hk2
    obtain ⟨a,ha,rfl⟩ := (isSome_find).mp hk'
    exact h b hb (unbound.mp hk) a ha

def triples (m1 m2 : Rangemap K V) : List (K × Option V × Option V) := presented m1.bindings m2.bindings

theorem enumerate_maps {A : Type} (visit : K → Option V → Option V → A → A) (stop : A) (m1 m2 : Rangemap K V) :
    enumerate visit stop (consEnum m1.tree .done) (consEnum m2.tree .done) =
      (triples m1 m2).foldr (fun t r => visit t.1 t.2.1 t.2.2 r) stop := by
  rw [enumerate_eq_foldr,bindings_consEnum,bindings_consEnum]
  simp only [Enumeration.bindings,List.append_nil]
  rfl

theorem triples_eq_map {m1 m2 : Rangemap K V} (h : SecondOnlyAbove m1 m2) :
    triples m1 m2 = ((triples m1 m2).map Prod.fst).map fun k => (k,m1.find k,m2.find k) := by
  rw [List.map_map]
  refine (List.map_id _).symm.trans (List.map_congr_left fun t ht => ?_)
  obtain ⟨c1,c2⟩ := presented_carries (increasing_bindings m1) (increasing_bindings m2)
    (secondOnlyAbove_iff.mp h) t ht
  have e1 : t.2.1 = m1.find t.1 := Option.ext fun v => (c1 v).trans (find_eq_some).symm
  have e2 : t.2.2 = m2.find t.1 := Option.ext fun v => (c2 v).trans (find_eq_some).symm
  simp [← e1,← e2]

/-! The three lazy traversals as folds -/

theorem forM_eq_foldr {M : Type → Type} [Monad M] {A : Type} (g : A → M Unit) (l : List A) :
    l.forM g = l.foldr (fun k rest => do g k; rest) (pure ()) := by
  induction l with
  | nil => rfl
  | cons k l ih => exact congrArg (fun rest => g k >>= fun _ => rest) ih

theorem any_eq_foldr {A : Type} (g : A → Bool) (l : List A) : l.any g = l.foldr (fun k rest => g k || rest) false := by
  induction l with
  | nil => rfl
  | cons k l ih => rw [List.any_cons,ih,List.foldr_cons]

theorem all_eq_foldr {A : Type} (g : A → Bool) (l : List A) : l.all g = l.foldr (fun k rest => g k && rest) true := by
  induction l with
  | nil => rfl
  | cons k l ih => rw [List.all_cons,ih,List.foldr_cons]

theorem secondOnlyAbove_of_law {m1 m2 : Rangemap K V} (h : Law m1 m2) : SecondOnlyAbove m1 m2 := by
  obtain ⟨ks,-,-,⟨ks',-,hfold⟩,-⟩ := h
  -- collecting the triples is a fold
  have hall : triples m1 m2 = ks'.foldr (fun k r => (k,m1.find k,m2.find k) :: r) [] := by
    have h := hfold _ (fun k v1 v2 r => (k,v1,v2) :: r) []
    rw [fold2,enumerate_maps] at h
    exact (List.foldr_cons_nil (l := triples m1 m2)).symm.trans h
  rw [List.foldr_cons_eq_append] at hall
  refine (secondOnlyAbove_iff).mpr fun b hb hn a ha => ?_
  by_contra hnlt
  have hba : b.1 < a.1 := lt_of_le_of_ne (not_lt.mp hnlt) (hn a ha).symm
  have hmem : (b.1,some b.2,none) ∈ triples m1 m2 :=
    presented_swapped (increasing_bindings m1) (increasing_bindings m2) hb hn ha hba
  rw [hall,List.append_nil] at hmem
  obtain ⟨k,-,he⟩ := List.mem_map.mp hmem
  obtain ⟨rfl,hk⟩ := Prod.mk.inj he
  obtain ⟨c,hc⟩ : ∃ c, m1.find b.1 = some c := ⟨b.2,(Prod.mk.inj hk).1⟩
  exact hn (b.1,c) (find_eq_some.mp hc) rfl

theorem law_of_secondOnlyAbove {m1 m2 : Rangemap K V} (h : SecondOnlyAbove m1 m2) : Law m1 m2 := by
  have hmap := triples_eq_map h
  set ks := (triples m1 m2).map Prod.fst
  have hsorted : ks.Pairwise (· < ·) :=
    List.pairwise_map.mpr (presented_increasing (increasing_bindings m1) (increasing_bindings m2))
  have run : ∀ {A : Type} (visit : K → Option V → Option V → A → A) (stop : A),
      enumerate visit stop (consEnum m1.tree .done) (consEnum m2.tree .done) =
        ks.foldr (fun k r => visit k (m1.find k) (m2.find k) r) stop := fun visit stop => by
    rw [enumerate_maps,hmap,List.foldr_map]
  refine ⟨ks,hsorted,fun k => ?_,⟨ks,.refl ks,fun A f r => run f r⟩,fun M _ f => ?_,fun f => ?_,fun f => ?_⟩
  · rw [isSome_find,isSome_find,← mem_presented]
    exact List.mem_map
  · rw [iter2,run,forM_eq_foldr]
    rfl
  · rw [exists2,run,any_eq_foldr]
    rfl
  · rw [forAll2,run,all_eq_foldr]
    rfl

/-- The functions obey the law exactly on pairs of maps where no key bound only in the second is
below a key of the first. -/
theorem law_iff (m1 m2 : Rangemap K V) : Law m1 m2 ↔ SecondOnlyAbove m1 m2 :=
  ⟨secondOnlyAbove_of_law,law_of_secondOnlyAbove⟩

/-- The key 1, bound in the second map only and below the key 2 of the first, is presented as bound in
the first. -/
theorem fold2_swaps : fold2 (fun k v1 v2 r => (k,v1,v2) :: r) (singleton 2 5 : Rangemap Nat Nat) (singleton 1 7) [] =
      [(1,some 7,none),(2,some 5,none)] ∧ ¬ Law (singleton 2 5 : Rangemap Nat Nat) (singleton 1 7) := by
  refine ⟨?_,fun h => absurd (secondOnlyAbove_of_law h 1 2 rfl rfl rfl) (by decide)⟩
  have hgt : compare 2 1 = Ordering.gt := rfl
  rw [fold2,enumerate_maps]
  simp [triples,bindings,singleton,Tree.singleton,presented,hgt]

end Rangemap
end FramaC
