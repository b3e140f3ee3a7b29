import Mathlib
import FramaC.Qed.Listset
import FramaC.Lib.BalancedMap

/-! # Splits

A split binds sets of tags to values, as a list sorted by the sets. Splits are combined by walking two sorted lists, by
collecting the values of any number of splits in a map, and by sorting a list and merging the values of equal sets.
-/
namespace FramaC.Splitter
open Cut Qed BalancedMap

/-- The tags, with the ranks of statements, functions and predicates. -/
inductive Tag
  | mark (stmt : ℤ)
  | ifThen (stmt : ℤ)
  | ifElse (stmt : ℤ)
  | call (stmt kf : ℤ)
  | switchCases (stmt : ℤ) (ks : List ℤ)
  | switchDefault (stmt : ℤ)
  | assert (ip k n : ℤ)
  deriving DecidableEq

def Tag.compare : Tag → Tag → Ordering
  | .mark s,.mark t => Ord.compare s t
  | .mark _,_ => .lt
  | _,.mark _ => .gt
  | .ifThen s,.ifThen t => Ord.compare s t
  | .ifThen _,_ => .lt
  | _,.ifThen _ => .gt
  | .ifElse s,.ifElse t => Ord.compare s t
  | .ifElse _,_ => .lt
  | _,.ifElse _ => .gt
  | .switchCases s1 k1,.switchCases s2 k2 => (Ord.compare s1 s2).then (List.compareLex Ord.compare k1 k2)
  | .switchCases _ _,_ => .lt
  | _,.switchCases _ _ => .gt
  | .switchDefault s,.switchDefault t => Ord.compare s t
  | .switchDefault _,_ => .lt
  | _,.switchDefault _ => .gt
  | .call s1 f1,.call s2 f2 => (Ord.compare s1 s2).then (Ord.compare f1 f2)
  | .call _ _,_ => .lt
  | _,.call _ _ => .gt
  | .assert ip1 k1 _,.assert ip2 k2 _ => (Ord.compare ip1 ip2).then (Ord.compare k1 k2)

/-- A tag is compared as the list of its constructor and its arguments, but the number of disjuncts. -/
def Tag.key : Tag → List ℤ
  | .mark s => [0,s]
  | .ifThen s => [1,s]
  | .ifElse s => [2,s]
  | .switchCases s ks => 3 :: s :: ks
  | .switchDefault s => [4,s]
  | .call s f => [5,s,f]
  | .assert ip k _ => [6,ip,k]

theorem compareLex_cons_self (a : ℤ) (l m : List ℤ) : Ord.compare (a :: l) (a :: m) = Ord.compare l m := by
  have h : Ord.compare a a = .eq := Std.ReflCmp.compare_self
  exact (List.compareLex_cons_cons ..).trans (by rw [h]; rfl)

theorem compareLex_pair (s t : ℤ) : Ord.compare [s] [t] = Ord.compare s t := by
  refine (List.compareLex_cons_cons ..).trans ?_
  cases Ord.compare s t <;> rfl

theorem Tag.compare_eq : Tag.compare = compareOn Tag.key := by
  funext p q
  cases p <;> cases q <;> try rfl
  case switchCases.switchCases => exact ((compareLex_cons_self ..).trans (List.compareLex_cons_cons ..)).symm
  case call.call s1 f1 s2 f2 =>
    exact ((compareLex_cons_self ..).trans ((List.compareLex_cons_cons ..).trans
      (congrArg _ (compareLex_pair f1 f2)))).symm
  case assert.assert ip1 k1 _ ip2 k2 _ =>
    exact ((compareLex_cons_self ..).trans ((List.compareLex_cons_cons ..).trans
      (congrArg _ (compareLex_pair k1 k2)))).symm
  all_goals exact ((compareLex_cons_self ..).trans (compareLex_pair ..)).symm

instance tagTransCmp : Std.TransCmp Tag.compare := by
  rw [Tag.compare_eq]
  infer_instance

abbrev Tags := List Tag

namespace Tags

abbrev compare : Tags → Tags → Ordering := List.compareLex Tag.compare
def add : Tag → Tags → Tags := Listset.add Tag.compare
def mem : Tag → Tags → Bool := Listset.mem Tag.compare

end Tags

abbrev Split (V : Type) := List (Tags × V)

section Splits
variable {A B C V : Type}

mutual

def compact (merge : List V → V) : Split V → Split V
  | [] => []
  | [e] => [e]
  | (k1,v1) :: (k2,v2) :: r =>
    if Tags.compare k1 k2 = .eq then collect merge k1 [v2,v1] r else (k1,v1) :: compact merge ((k2,v2) :: r)

def collect (merge : List V → V) (k : Tags) (vs : List V) : Split V → Split V
  | [] => [(k,merge vs)]
  | (k',v') :: r =>
    if Tags.compare k k' = .eq then collect merge k (v' :: vs) r else (k,merge vs) :: compact merge ((k',v') :: r)

end

def bytags (e e' : Tags × V) : Bool := (Tags.compare e.1 e'.1).isLE

def group (tag : Tag) (merge : List V → V) (m : Split V) : Split V :=
  let compaction := m.any fun e => Tags.mem tag e.1
  let m := (m.map fun e => (Tags.add tag e.1,e.2)).mergeSort bytags
  if compaction then compact merge m else m

def singleton (e : V) : Split V := [([],e)]

def union [DecidableEq V] (merge : V → V → V) (m1 m2 : Split V) : Split V :=
  Listmap.union Tags.compare (fun _ => merge) m1 m2

def merge (left : A → C) (both : A → B → C) (right : B → C) : Split A → Split B → Split C
  | [],[] => []
  | m1,[] => m1.map fun e => (e.1,left e.2)
  | [],m2 => m2.map fun e => (e.1,right e.2)
  | (k1,v1) :: w1,(k2,v2) :: w2 =>
    match Tags.compare k1 k2 with
    | .lt => (k1,left v1) :: merge left both right w1 ((k2,v2) :: w2)
    | .gt => (k2,right v2) :: merge left both right ((k1,v1) :: w1) w2
    | .eq => (k1,both v1 v2) :: merge left both right w1 w2
termination_by m1 m2 => m1.length + m2.length

def assign (x : Tags) (f : V → V) : Tree Tags V → Tree Tags V
  | .empty => .empty
  | .node l v d r h =>
    match Tags.compare x v with
    | .eq => .node l v (f d) r h
    | .lt => .node (assign x f l) v d r h
    | .gt => .node l v d (assign x f r) h

def collectEntry (t : Tree Tags (List V)) (e : Tags × V) : Tree Tags (List V) :=
  match t.find Tags.compare e.1 with
  | some _ => assign e.1 (e.2 :: ·) t
  | none => t.add Tags.compare e.1 (fun _ _ => false) [e.2]

def mergeEntry (merge : List V → V) (m : Split V) (e : Tags × List V) : Split V :=
  match e.2 with
  | [] => m
  | [v] => (e.1,v) :: m
  | vs => (e.1,merge vs) :: m

def mergeAll [DecidableEq V] (merge : List V → V) : List (Split V) → Split V
  | [] => []
  | [m] => m
  | [m1,m2] => union (fun u v => merge [u,v]) m1 m2
  | ms => (ms.foldl (fun t m => m.foldl collectEntry t) Tree.empty).bindings.foldl (mergeEntry merge) []

end Splits
end FramaC.Splitter

/-! ## Runs of splits

Grouping, unions and merges keep splits sorted. When more than two splits are merged at once, their values and their keys come
in reverse order.
-/
namespace FramaC.Splitter
open Cut Qed BalancedMap
variable {A B C V : Type}

/-- The keys increase strictly, and each of them is a set. -/
structure Wf (m : Split V) : Prop where
  sorted : Sorted Tags.compare Prod.fst m
  keys : ∀ e ∈ m, Sorted Tag.compare id e.1

def get (k : Tags) (m : Split V) : Option V := (SideBySide.find Tags.compare Prod.fst k m).map Prod.snd

theorem compare_eq_iff {k k' : Tags} : Tags.compare k k' = .eq ↔ List.Forall₂ (fun p q => Tag.compare p q = .eq) k k' := by
  induction k generalizing k' with
  | nil => cases k' <;> simp [List.compareLex]
  | cons p k ih =>
    cases k' with
    | nil => simp [List.compareLex]
    | cons q k' => simp only [List.compareLex_cons_cons,Ordering.then_eq_eq,ih,List.forall₂_cons]

theorem add_of_not_mem {tag : Tag} {k : Tags} (h : Sorted Tag.compare id k) (hn : Tags.mem tag k = false) :
    Tags.add tag k = lower (Tag.compare tag) k ++ tag :: upper (Tag.compare tag) k := by
  have hne : ¬ ∃ e ∈ k, Tag.compare tag e = .eq := by
    rw [← Listset.mem_iff h]
    simpa [Tags.mem] using hn
  rw [Tags.add,Listset.add_eq h,if_neg hne]

theorem filter_add {tag : Tag} {k : Tags} (h : Sorted Tag.compare id k) (hn : Tags.mem tag k = false) :
    (Tags.add tag k).filter (fun p => Tag.compare tag p ≠ .eq) = k := by
  have hne : ∀ e ∈ k, Tag.compare tag e ≠ .eq := by
    intro e he hte
    have := (Listset.mem_iff h).mpr ⟨e,he,hte⟩
    simp [Tags.mem] at hn
    simp [hn] at this
  have hself : Tag.compare tag tag = .eq := Std.ReflCmp.compare_self
  have hlo : ∀ e ∈ lower (Tag.compare tag) k, Tag.compare tag e ≠ .eq := fun e he => hne e (mem_lower.mp he).1
  have hup : ∀ e ∈ upper (Tag.compare tag) k, Tag.compare tag e ≠ .eq := fun e he => hne e (mem_upper.mp he).1
  rw [add_of_not_mem h hn,List.filter_append,List.filter_cons_of_neg (by simp [hself]),
    List.filter_eq_self.mpr (by simpa using hlo),List.filter_eq_self.mpr (by simpa using hup)]
  exact (h.strict tag).split_of_not_mem hne

theorem compare_add {tag : Tag} {k k' : Tags} (h : Sorted Tag.compare id k) (h' : Sorted Tag.compare id k')
    (hn : Tags.mem tag k = false) (hn' : Tags.mem tag k' = false)
    (heq : Tags.compare (Tags.add tag k) (Tags.add tag k') = .eq) : Tags.compare k k' = .eq := by
  rw [compare_eq_iff] at heq ⊢
  rw [← filter_add h hn,← filter_add h' hn']
  refine List.rel_filter (fun p q hpq => ?_) heq
  have hiff : Tag.compare tag p = .eq ↔ Tag.compare tag q = .eq :=
    ⟨fun hp => Std.TransCmp.eq_trans hp hpq,fun hq => Std.TransCmp.eq_trans hq (Std.OrientedCmp.eq_symm hpq)⟩
  simp [hiff]

def Increases (m : Split V) : Prop := m.Pairwise fun e e' => (Tags.compare e.1 e'.1).isLE = true

theorem lt_of_isLE {k k' : Tags} (h : (Tags.compare k k').isLE = true) (hne : Tags.compare k k' ≠ .eq) :
    Tags.compare k k' = .lt := by
  cases hk : Tags.compare k k' with
  | lt => rfl
  | eq => exact absurd hk hne
  | gt => simp [hk] at h

/-- A list that increases strictly, with keys that are those of another list. -/
structure SortedFrom (m r : Split V) : Prop where
  sorted : Sorted Tags.compare Prod.fst r
  keys : ∀ e ∈ r, ∃ e' ∈ m, e'.1 = e.1

theorem SortedFrom.cons {m r : Split V} (h : SortedFrom m r) {e e₀ : Tags × V}
    (hlt : ∀ e' ∈ m, Tags.compare e.1 e'.1 = .lt) (he : e.1 = e₀.1) : SortedFrom (e₀ :: m) (e :: r) where
  sorted := List.pairwise_cons.mpr ⟨fun e'' he'' => by
    obtain ⟨e',he',hk⟩ := h.keys e'' he''
    rw [← hk]
    exact hlt e' he',h.sorted⟩
  keys e' he' := by
    rcases List.mem_cons.mp he' with rfl | he'
    · exact ⟨e₀,by simp,he.symm⟩
    · obtain ⟨e'',he'',hk⟩ := h.keys e' he'
      exact ⟨e'',by simp [he''],hk⟩

theorem SortedFrom.mono {m m' r : Split V} (h : SortedFrom m r) (hm : ∀ e ∈ m, e ∈ m') : SortedFrom m' r where
  sorted := h.sorted
  keys e he := by
    obtain ⟨e',he',hk⟩ := h.keys e he
    exact ⟨e',hm e' he',hk⟩

theorem Increases.lt_of_ne {e e' : Tags × V} {r : Split V} (h : Increases (e' :: r))
    (hle : (Tags.compare e.1 e'.1).isLE = true) (hne : Tags.compare e.1 e'.1 ≠ .eq) :
    ∀ e'' ∈ e' :: r, Tags.compare e.1 e''.1 = .lt := by
  have hlt := lt_of_isLE hle hne
  intro e'' he''
  rcases List.mem_cons.mp he'' with rfl | he''
  · exact hlt
  · exact Std.TransCmp.lt_of_lt_of_isLE hlt ((List.pairwise_cons.mp h).1 e'' he'')

mutual

theorem compact_spec (merge : List V → V) : ∀ m : Split V, Increases m → SortedFrom m (compact merge m)
  | [],_ => ⟨by simp [compact,Sorted],by simp [compact]⟩
  | [e],_ => ⟨by simp [compact,Sorted],by simp [compact]⟩
  | (k1,v1) :: (k2,v2) :: r,h => by
    obtain ⟨hle,hr⟩ := List.pairwise_cons.mp h
    rw [compact]
    split
    · refine (collect_spec merge k1 [v2,v1] v1 r (List.pairwise_cons.mp hr).2 fun e he => ?_).mono ?_
      · exact hle e (by simp [he])
      · intro e he
        rcases List.mem_cons.mp he with rfl | he
        · simp
        · simp [he]
    · next hne =>
      exact (compact_spec merge ((k2,v2) :: r) hr).cons (Increases.lt_of_ne hr (hle _ (by simp)) hne) rfl

theorem collect_spec (merge : List V → V) (k : Tags) (vs : List V) (v : V) : ∀ r : Split V, Increases r →
    (∀ e ∈ r, (Tags.compare k e.1).isLE = true) → SortedFrom ((k,v) :: r) (collect merge k vs r)
  | [],_,_ => ⟨by simp [collect,Sorted],by simp [collect]⟩
  | (k',v') :: r,h,hle => by
    rw [collect]
    split
    · refine (collect_spec merge k (v' :: vs) v r (List.pairwise_cons.mp h).2 fun e he => hle e (by simp [he])).mono ?_
      intro e he
      rcases List.mem_cons.mp he with rfl | he
      · simp
      · simp [he]
    · next hne =>
      exact (compact_spec merge ((k',v') :: r) h).cons (Increases.lt_of_ne (e := (k,v)) h (hle _ (by simp)) hne) rfl

end

theorem group_wf (tag : Tag) (merge : List V → V) {m : Split V} (h : Wf m) : Wf (group tag merge m) := by
  have hsort : Increases ((m.map fun e => (Tags.add tag e.1,e.2)).mergeSort bytags) := by
    refine List.pairwise_mergeSort (fun a b c => ?_) (fun a b => ?_) _
    · exact Std.TransCmp.isLE_trans
    · have hswap : Tags.compare b.1 a.1 = (Tags.compare a.1 b.1).swap := Std.OrientedCmp.eq_swap
      simp only [hswap]
      cases Tags.compare a.1 b.1 <;> rfl
  have hkeys : ∀ e ∈ (m.map fun e => (Tags.add tag e.1,e.2)).mergeSort bytags, Sorted Tag.compare id e.1 := by
    intro e he
    obtain ⟨e',he',rfl⟩ := List.mem_map.mp ((List.mergeSort_perm _ _).mem_iff.mp he)
    exact Listset.sorted_add (h.keys e' he') tag
  simp only [group]
  split
  · have hc := compact_spec merge _ hsort
    refine ⟨hc.sorted,fun e he => ?_⟩
    obtain ⟨e',he',hk⟩ := hc.keys e he
    rw [← hk]
    exact hkeys e' he'
  · next hany =>
    refine ⟨?_,hkeys⟩
    have hmem : ∀ e ∈ m, Tags.mem tag e.1 = false := by simpa using hany
    -- no set has the tag, so they are still different
    have hne : (m.map fun e => (Tags.add tag e.1,e.2)).Pairwise fun e e' => Tags.compare e.1 e'.1 ≠ .eq := by
      rw [List.pairwise_map]
      refine h.sorted.imp_of_mem fun {e e'} he he' hlt heq => ?_
      have := compare_add (h.keys e he) (h.keys e' he') (hmem e he) (hmem e' he') heq
      rw [hlt] at this
      cases this
    have hne' := ((List.mergeSort_perm _ bytags).pairwise_iff fun {e e'} hee' heq =>
      hee' (Std.OrientedCmp.eq_symm heq)).mpr hne
    exact (hsort.and hne').imp fun hee' => lt_of_isLE hee'.1 hee'.2

theorem merge_eq_walk (left : A → C) (both : A → B → C) (right : B → C) (m1 : Split A) (m2 : Split B) :
    merge left both right m1 m2 = SideBySide.walk Tags.compare Prod.fst Prod.fst (fun e => some (e.1,left e.2))
      (fun e => some (e.1,right e.2)) (fun a b => some (a.1,both a.2 b.2)) m1 m2 := by
  induction m1, m2 using SideBySide.walk.induct Tags.compare Prod.fst Prod.fst with
  | case1 m2 => cases m2 <;> simp [merge,SideBySide.walk]
  | case2 e m1 => simp [merge,SideBySide.walk]
  | case3 e m1 e' m2 hlt ih =>
    rw [merge,SideBySide.walk]
    simp only [hlt,ih]
    rfl
  | case4 e m1 e' m2 hgt ih =>
    rw [merge,SideBySide.walk]
    simp only [hgt,ih]
    rfl
  | case5 e m1 e' m2 heq ih =>
    rw [merge,SideBySide.walk]
    simp only [heq,ih]
    rfl

theorem keeps_merge (left : A → C) (both : A → B → C) (right : B → C) : SideBySide.Keeps Tags.compare Prod.fst Prod.fst
    Prod.fst (fun e : Tags × A => some (e.1,left e.2)) (fun e : Tags × B => some (e.1,right e.2))
    (fun a b => some (a.1,both a.2 b.2)) where
  left h := by
    obtain rfl := Option.some.inj h
    exact Std.ReflCmp.compare_self
  right h := by
    obtain rfl := Option.some.inj h
    exact Std.ReflCmp.compare_self
  both h _ := by
    obtain rfl := Option.some.inj h
    exact Std.ReflCmp.compare_self

def mergeValues (left : A → C) (both : A → B → C) (right : B → C) : Option A → Option B → Option C
  | some a,some b => some (both a b)
  | some a,none => some (left a)
  | none,some b => some (right b)
  | none,none => none

theorem merge_wf (left : A → C) (both : A → B → C) (right : B → C) {m1 : Split A} {m2 : Split B} (h1 : Wf m1)
    (h2 : Wf m2) : Wf (merge left both right m1 m2) := by
  rw [merge_eq_walk]
  refine ⟨SideBySide.sorted_walk (keeps_merge left both right) h1.sorted h2.sorted,fun e he => ?_⟩
  rcases (SideBySide.mem_walk h1.sorted h2.sorted).mp he with ⟨a,ha,_,h⟩ | ⟨b,hb,_,h⟩ | ⟨a,ha,b,_,_,h⟩
  · obtain rfl := Option.some.inj h
    exact h1.keys a ha
  · obtain rfl := Option.some.inj h
    exact h2.keys b hb
  · obtain rfl := Option.some.inj h
    exact h1.keys a ha

theorem get_merge (left : A → C) (both : A → B → C) (right : B → C) {m1 : Split A} {m2 : Split B} (h1 : Wf m1)
    (h2 : Wf m2) (k : Tags) :
    get k (merge left both right m1 m2) = mergeValues left both right (get k m1) (get k m2) := by
  rw [get,merge_eq_walk,SideBySide.find_walk (keeps_merge left both right) h1.sorted h2.sorted,get,get]
  cases SideBySide.find Tags.compare Prod.fst k m1 <;> cases SideBySide.find Tags.compare Prod.fst k m2 <;> rfl

theorem union_eq_merge [DecidableEq V] (f : V → V → V) {m1 : Split V} (h : Wf m1) (m2 : Split V) :
    union f m1 m2 = merge id f id m1 m2 := by
  rw [union,Listmap.union_eq_walk _ h.sorted,merge_eq_walk]
  rfl

def assignTo (x : Tags) (f : V → V) (b : Tags × V) : Tags × V := if Tags.compare x b.1 = .eq then (b.1,f b.2) else b

@[simp] theorem assignTo_fst (x : Tags) (f : V → V) (b : Tags × V) : (assignTo x f b).1 = b.1 := by
  unfold assignTo
  split <;> rfl

theorem bindings_assign {x : Tags} {t : Tree Tags V} (h : Strict (Tree.cutAt Tags.compare x) t.bindings) (f : V → V) :
    (assign x f t).bindings = t.bindings.map (assignTo x f) := by
  induction t with
  | empty => rfl
  | node l v d r _ ihl ihr =>
    rw [Tree.bindings_node] at h
    obtain ⟨hl,hr,hlo,hup⟩ := h.around
    have hid : ∀ bs : List (Tags × V), (∀ b ∈ bs, Tags.compare x b.1 ≠ .eq) → bs.map (assignTo x f) = bs :=
      fun bs hbs => (List.map_congr_left fun b hb => if_neg (hbs b hb)).trans (List.map_id' bs)
    have hlid : Tags.compare x v ≠ .lt → l.bindings.map (assignTo x f) = l.bindings :=
      fun hv => hid _ fun b hb hbe => by simp [hlo b hb hv] at hbe
    have hrid : Tags.compare x v ≠ .gt → r.bindings.map (assignTo x f) = r.bindings :=
      fun hv => hid _ fun b hb hbe => by simp [hup b hb hv] at hbe
    rw [assign,Tree.bindings_node,List.map_append,List.map_cons]
    cases hxv : Tags.compare x v with
    | eq => simp [hlid,hrid,hxv,assignTo]
    | lt => simp [hrid,hxv,assignTo,ihl hl]
    | gt => simp [hlid,hxv,assignTo,ihr hr]

def valuesOf (k : Tags) (es : List (Tags × V)) : List V := (es.filter fun e => Tags.compare k e.1 = .eq).map Prod.snd

/-- The map has the values of every key, the last one first. -/
structure Collected (es : List (Tags × V)) (t : Tree Tags (List V)) : Prop where
  ordered : t.Ordered Tags.compare
  get : ∀ k, get k t.bindings = if valuesOf k es = [] then none else some (valuesOf k es).reverse
  keys : ∀ b ∈ t.bindings, ∃ e ∈ es, e.1 = b.1

theorem valuesOf_concat (k : Tags) (es : List (Tags × V)) (e : Tags × V) :
    valuesOf k (es ++ [e]) = valuesOf k es ++ if Tags.compare k e.1 = .eq then [e.2] else [] := by
  rw [valuesOf,List.filter_append,List.map_append,valuesOf]
  by_cases h : Tags.compare k e.1 = .eq <;> simp [h]

theorem find_map_assignTo (x k : Tags) (f : V → V) (bs : Split V) :
    SideBySide.find Tags.compare Prod.fst k (bs.map (assignTo x f)) =
      (SideBySide.find Tags.compare Prod.fst k bs).map (assignTo x f) := by
  rw [SideBySide.find,List.find?_map,SideBySide.find]
  simp

theorem trans_left {k k' k'' : Tags} (h : Tags.compare k k' = .eq) :
    Tags.compare k k'' = .eq ↔ Tags.compare k' k'' = .eq :=
  ⟨fun h' => Std.TransCmp.eq_trans (Std.OrientedCmp.eq_symm h) h',fun h' => Std.TransCmp.eq_trans h h'⟩

theorem Collected.valuesOf_eq_nil {es : List (Tags × V)} {t : Tree Tags (List V)} (h : Collected es t) {k : Tags}
    (hk : SideBySide.find Tags.compare Prod.fst k t.bindings = none) : valuesOf k es = [] := by
  have hget := h.get k
  rw [Splitter.get,hk] at hget
  by_contra hne
  rw [if_neg hne] at hget
  cases hget

theorem Collected.valuesOf_reverse {es : List (Tags × V)} {t : Tree Tags (List V)} (h : Collected es t) {k : Tags}
    {b : Tags × List V} (hk : SideBySide.find Tags.compare Prod.fst k t.bindings = some b) :
    valuesOf k es ≠ [] ∧ b.2 = (valuesOf k es).reverse := by
  have hget := h.get k
  rw [Splitter.get,hk] at hget
  split at hget
  · cases hget
  · next hne => exact ⟨hne,Option.some.inj hget⟩

theorem collected_assign {es : List (Tags × V)} {t : Tree Tags (List V)} (h : Collected es t) {e : Tags × V}
    {r : List V} (hr : t.find Tags.compare e.1 = some r) : Collected (es ++ [e]) (assign e.1 (e.2 :: ·) t) := by
  have hb := bindings_assign (h.ordered.strict e.1) (e.2 :: ·)
  refine ⟨?_,fun k => ?_,?_⟩
  · rw [Tree.Ordered,hb,Sorted,List.pairwise_map]
    exact h.ordered.imp fun hlt => by rwa [assignTo_fst,assignTo_fst]
  · rw [Splitter.get,hb,find_map_assignTo,valuesOf_concat]
    by_cases hk : Tags.compare k e.1 = .eq
    · obtain ⟨v,hv,hev⟩ := (Tree.find_eq_some (h.ordered.strict e.1)).mp hr
      have hf := (SideBySide.find_eq_some h.ordered).mpr ⟨hv,(trans_left hk).mpr hev⟩
      obtain ⟨hne,hrev⟩ := h.valuesOf_reverse hf
      rw [hf]
      simpa [assignTo,hev,hk] using hrev
    · rw [if_neg hk,List.append_nil,← h.get k,Splitter.get]
      cases hf : SideBySide.find Tags.compare Prod.fst k t.bindings with
      | none => rfl
      | some b =>
        have hkb := ((SideBySide.find_eq_some h.ordered).mp hf).2
        have hne : Tags.compare e.1 b.1 ≠ .eq := fun he => hk ((trans_left hkb).mpr (Std.OrientedCmp.eq_symm he))
        simp [assignTo,hne]
  · intro b hbt
    rw [hb] at hbt
    obtain ⟨b',hb',rfl⟩ := List.mem_map.mp hbt
    obtain ⟨e',he',hk⟩ := h.keys b' hb'
    exact ⟨e',by simp [he'],by rw [hk,assignTo_fst]⟩

theorem collected_add {es : List (Tags × V)} {t : Tree Tags (List V)} (h : Collected es t) {e : Tags × V}
    (hr : t.find Tags.compare e.1 = none) :
    Collected (es ++ [e]) (t.add Tags.compare e.1 (fun _ _ => false) [e.2]) := by
  have hnone : ∀ b ∈ t.bindings, Tags.compare e.1 b.1 ≠ .eq := by
    intro b hb heb
    rw [(Tree.find_eq_some (h.ordered.strict e.1)).mpr ⟨b.1,hb,heb⟩] at hr
    cases hr
  have hord := h.ordered.add e.1 (fun _ _ => false) [e.2]
  obtain ⟨mid,hbs,hmid⟩ := Tree.bindings_add (h.ordered.strict e.1) (fun _ _ => false) [e.2]
  obtain rfl : mid = (e.1,[e.2]) := by simpa using hmid
  have hmem : ∀ b, b ∈ (t.add Tags.compare e.1 (fun _ _ => false) [e.2]).bindings ↔ b = (e.1,[e.2]) ∨ b ∈ t.bindings := by
    intro b
    rw [hbs,List.mem_append,List.mem_cons,mem_lower,mem_upper]
    constructor
    · rintro (hb | rfl | hb)
      · exact .inr hb.1
      · exact .inl rfl
      · exact .inr hb.1
    · rintro (rfl | hb)
      · exact .inr (.inl rfl)
      · cases hc : Tags.compare e.1 b.1 with
        | lt => exact .inr (.inr ⟨hb,hc⟩)
        | eq => exact absurd hc (hnone b hb)
        | gt => exact .inl ⟨hb,hc⟩
  refine ⟨hord,fun k => ?_,?_⟩
  · rw [Splitter.get,valuesOf_concat]
    by_cases hk : Tags.compare k e.1 = .eq
    · have hold : SideBySide.find Tags.compare Prod.fst k t.bindings = none :=
        SideBySide.find_eq_none.mpr fun b hb hkb => hnone b hb ((trans_left hk).mp hkb)
      rw [(SideBySide.find_eq_some hord).mpr ⟨(hmem _).mpr (.inl rfl),hk⟩,h.valuesOf_eq_nil hold]
      simp [hk]
    · rw [if_neg hk,List.append_nil,← h.get k,Splitter.get]
      congr 1
      ext b
      rw [SideBySide.find_eq_some hord,SideBySide.find_eq_some h.ordered,hmem]
      constructor
      · rintro ⟨rfl | hb,hkb⟩
        · exact absurd hkb hk
        · exact ⟨hb,hkb⟩
      · exact fun hb => ⟨.inr hb.1,hb.2⟩
  · intro b hb
    rcases (hmem b).mp hb with rfl | hb
    · exact ⟨e,by simp,rfl⟩
    · obtain ⟨e',he',hk⟩ := h.keys b hb
      exact ⟨e',by simp [he'],hk⟩

theorem collectEntry_collected {es : List (Tags × V)} {t : Tree Tags (List V)} (h : Collected es t) (e : Tags × V) :
    Collected (es ++ [e]) (collectEntry t e) := by
  unfold collectEntry
  split
  · next r hr => exact collected_assign h hr
  · next hr => exact collected_add h hr

theorem foldl_collected (es es' : List (Tags × V)) {t : Tree Tags (List V)} (h : Collected es t) :
    Collected (es ++ es') (es'.foldl collectEntry t) := by
  induction es' generalizing es t with
  | nil => simpa using h
  | cons e es' ih =>
    have := ih (es ++ [e]) (collectEntry_collected h e)
    simpa using this

theorem collected (ms : List (Split V)) :
    Collected ms.flatten (ms.foldl (fun t m => m.foldl collectEntry t) Tree.empty) := by
  rw [← List.foldl_flatten]
  have hempty : Collected ([] : List (Tags × V)) Tree.empty :=
    ⟨List.Pairwise.nil,fun k => rfl,fun b hb => by cases hb⟩
  exact foldl_collected [] ms.flatten hempty

def mergedValue (merge : List V → V) : List V → Option V
  | [] => none
  | [v] => some v
  | vs => some (merge vs)

def emit (merge : List V → V) (e : Tags × List V) : Option (Tags × V) := (mergedValue merge e.2).map (e.1,·)

theorem foldl_mergeEntry (merge : List V → V) (bs : Split (List V)) (m : Split V) :
    bs.foldl (mergeEntry merge) m = (bs.filterMap (emit merge)).reverse ++ m := by
  induction bs generalizing m with
  | nil => rfl
  | cons b bs ih =>
    have hb : mergeEntry merge m b = (emit merge b).toList ++ m := by
      obtain ⟨k,vs⟩ := b
      match vs with
      | [] => rfl
      | [v] => rfl
      | v :: w :: vs => rfl
    rw [List.foldl_cons,ih,hb,List.filterMap_cons]
    cases emit merge b <;> simp

theorem emit_fst {merge : List V → V} {e : Tags × List V} {c : Tags × V} (h : emit merge e = some c) :
    Tags.compare c.1 e.1 = .eq := by
  obtain ⟨v,_,rfl⟩ := Option.map_eq_some_iff.mp h
  exact Std.ReflCmp.compare_self

theorem filter_eq_find {s : Split V} (h : Sorted Tags.compare Prod.fst s) (k : Tags) :
    s.filter (fun e => Tags.compare k e.1 = .eq) = (SideBySide.find Tags.compare Prod.fst k s).toList := by
  induction s with
  | nil => rfl
  | cons e s ih =>
    obtain ⟨hlt,hs⟩ := List.pairwise_cons.mp h
    rw [SideBySide.find,List.find?_cons,List.filter_cons]
    by_cases hk : Tags.compare k e.1 = .eq
    · have hnil : s.filter (fun e' => Tags.compare k e'.1 = .eq) = [] := by
        refine List.filter_eq_nil_iff.mpr fun e' he' => ?_
        rw [decide_eq_true_eq,Std.TransCmp.lt_of_eq_of_lt hk (hlt e' he')]
        exact fun h => by cases h
      simp [hk,hnil]
    · simp only [hk,decide_false]
      exact ih hs

theorem valuesOf_flatten {ms : List (Split V)} (h : ∀ s ∈ ms, Wf s) (k : Tags) :
    valuesOf k ms.flatten = ms.filterMap (get k) := by
  induction ms with
  | nil => rfl
  | cons s ms ih =>
    have hs := filter_eq_find (h s (by simp)).sorted k
    have ih := ih fun s' hs' => h s' (by simp [hs'])
    rw [valuesOf] at ih
    rw [valuesOf,List.flatten_cons,List.filter_append,List.map_append,hs,ih,List.filterMap_cons,get]
    cases SideBySide.find Tags.compare Prod.fst k s <;> simp

def collectAll (merge : List V → V) (ms : List (Split V)) : Split V :=
  (ms.foldl (fun t m => m.foldl collectEntry t) Tree.empty).bindings.foldl (mergeEntry merge) []

theorem exists_sorted_collectAll (merge : List V → V) {ms : List (Split V)} (h : ∀ s ∈ ms, Wf s) :
    ∃ L : Split V, collectAll merge ms = L.reverse ∧ Sorted Tags.compare Prod.fst L ∧
      (∀ e ∈ L, ∃ e' ∈ ms.flatten, e'.1 = e.1) ∧
      ∀ k, get k L = mergedValue merge (ms.filterMap (get k)).reverse := by
  have hc := collected ms
  refine ⟨_,(foldl_mergeEntry merge _ []).trans (List.append_nil _),SideBySide.sorted_filterMap emit_fst hc.ordered,?_,?_⟩
  · intro e he
    obtain ⟨b,hb,hbe⟩ := List.mem_filterMap.mp he
    obtain ⟨v,_,rfl⟩ := Option.map_eq_some_iff.mp hbe
    exact hc.keys b hb
  · intro k
    rw [get,SideBySide.find_filterMap emit_fst hc.ordered,← valuesOf_flatten h]
    cases hf : SideBySide.find Tags.compare Prod.fst k _ with
    | none =>
      rw [hc.valuesOf_eq_nil hf]
      rfl
    | some b =>
      rw [← (hc.valuesOf_reverse hf).2,Option.bind_some,emit,Option.map_map]
      exact Option.map_id'

def OneKey (ms : List (Split V)) : Prop := ∀ e ∈ ms.flatten, ∀ e' ∈ ms.flatten, Tags.compare e.1 e'.1 = .eq

theorem get_reverse {L : Split V} (h : Sorted Tags.compare Prod.fst L) (k : Tags) : get k L.reverse = get k L := by
  rw [get,get]
  congr 1
  ext e
  rw [SideBySide.find_eq_some h,SideBySide.find_eq_some_of_unique,List.mem_reverse]
  intro a ha b hb
  exact SideBySide.unique h k a (List.mem_reverse.mp ha) b (List.mem_reverse.mp hb)

theorem exists_of_get {k : Tags} {m : Split V} {v : V} (h : get k m = some v) : ∃ e ∈ m, Tags.compare k e.1 = .eq := by
  obtain ⟨e,he,_⟩ := Option.map_eq_some_iff.mp h
  exact ⟨e,List.mem_of_find?_eq_some he,by simpa using List.find?_some he⟩

theorem sorted_reverse_iff {L : Split V} (h : Sorted Tags.compare Prod.fst L) :
    Sorted Tags.compare Prod.fst L.reverse ↔ L.length ≤ 1 := by
  constructor
  · intro hr
    rw [Sorted,List.pairwise_reverse] at hr
    match L with
    | [] => simp
    | [e] => simp
    | e :: e' :: L =>
      have hlt := (List.pairwise_cons.mp h).1 e' (by simp)
      have hgt := Std.OrientedCmp.gt_of_lt ((List.pairwise_cons.mp hr).1 e' (by simp))
      rw [hlt] at hgt
      cases hgt
  · intro hl
    match L with
    | [] => simp [Sorted]
    | [e] => simp [Sorted]

theorem mergedValue_isSome (merge : List V → V) {vs : List V} (h : vs ≠ []) : ∃ v, mergedValue merge vs = some v := by
  match vs with
  | [] => exact absurd rfl h
  | [v] => exact ⟨v,rfl⟩
  | v :: w :: vs => exact ⟨_,rfl⟩

theorem collectAll_wf_iff (merge : List V → V) {ms : List (Split V)} (h : ∀ s ∈ ms, Wf s) :
    Wf (collectAll merge ms) ↔ OneKey ms := by
  obtain ⟨L,hL,hsort,hkeys,hget⟩ := exists_sorted_collectAll merge h
  rw [hL]
  constructor
  · intro hwf e he e' he'
    have hlen := (sorted_reverse_iff hsort).mp hwf.sorted
    have hfound : ∀ e ∈ ms.flatten, ∃ c ∈ L, Tags.compare e.1 c.1 = .eq := by
      intro e he
      have hne : (ms.filterMap (get e.1)).reverse ≠ [] := by
        rw [← valuesOf_flatten h,Ne,List.reverse_eq_nil_iff,valuesOf,List.map_eq_nil_iff,List.filter_eq_nil_iff]
        intro hall
        exact hall e he (by simpa using Std.ReflCmp.compare_self)
      obtain ⟨v,hv⟩ := mergedValue_isSome merge hne
      exact exists_of_get ((hget e.1).trans hv)
    obtain ⟨c,hc,hec⟩ := hfound e he
    obtain ⟨c',hc',hec'⟩ := hfound e' he'
    obtain rfl : c = c' := by
      match L with
      | [a] =>
        rw [List.mem_singleton.mp hc,List.mem_singleton.mp hc']
    exact Std.TransCmp.eq_trans hec (Std.OrientedCmp.eq_symm hec')
  · intro hone
    have hlen : L.length ≤ 1 := by
      match L with
      | [] => simp
      | [e] => simp
      | e :: e' :: L =>
        have hlt := (List.pairwise_cons.mp hsort).1 e' (by simp)
        obtain ⟨a,ha,hak⟩ := hkeys e (by simp)
        obtain ⟨b,hb,hbk⟩ := hkeys e' (by simp)
        have heq := hone a ha b hb
        rw [hak,hbk,hlt] at heq
        cases heq
    refine ⟨(sorted_reverse_iff hsort).mpr hlen,fun e he => ?_⟩
    obtain ⟨e',he',hk⟩ := hkeys e (List.mem_reverse.mp he)
    obtain ⟨s,hs,hes⟩ := List.mem_flatten.mp he'
    rw [← hk]
    exact (h s hs).keys e' hes

theorem get_collectAll (merge : List V → V) {ms : List (Split V)} (h : ∀ s ∈ ms, Wf s) (k : Tags) :
    get k (collectAll merge ms) = mergedValue merge (ms.filterMap (get k)).reverse := by
  obtain ⟨L,hL,hsort,_,hget⟩ := exists_sorted_collectAll merge h
  rw [hL,get_reverse hsort,hget]

/-- Every key that some splits bind is bound to the merge of its values in the order of the splits. -/
def MergesAll (merge : List V → V) (ms : List (Split V)) (r : Split V) : Prop :=
  ∀ k, get k r = mergedValue merge (ms.filterMap (get k))

/-- There are at most two splits, or one key, whose values are merged to the same value in both orders. -/
def MergeAllRight (merge : List V → V) (ms : List (Split V)) : Prop :=
  ms.length ≤ 2 ∨ OneKey ms ∧
    ∀ k, mergedValue merge (ms.filterMap (get k)).reverse = mergedValue merge (ms.filterMap (get k))

theorem get_union [DecidableEq V] (f : V → V → V) {m1 m2 : Split V} (h1 : Wf m1) (h2 : Wf m2) (k : Tags) :
    get k (union f m1 m2) = mergeValues id f id (get k m1) (get k m2) := by
  rw [union_eq_merge f h1,get_merge id f id h1 h2]

theorem union_wf [DecidableEq V] (f : V → V → V) {m1 m2 : Split V} (h1 : Wf m1) (h2 : Wf m2) : Wf (union f m1 m2) := by
  rw [union_eq_merge f h1]
  exact merge_wf id f id h1 h2

theorem mergeAll_iff [DecidableEq V] (merge : List V → V) {ms : List (Split V)} (h : ∀ s ∈ ms, Wf s) :
    Wf (mergeAll merge ms) ∧ MergesAll merge ms (mergeAll merge ms) ↔ MergeAllRight merge ms := by
  match ms with
  | [] => exact iff_of_true ⟨⟨List.Pairwise.nil,fun e he => by cases he⟩,fun k => rfl⟩ (.inl (by simp))
  | [m] =>
    refine iff_of_true ⟨h m (by simp),fun k => ?_⟩ (.inl (by simp))
    rw [mergeAll,List.filterMap_cons]
    cases get k m <;> rfl
  | [m1,m2] =>
    have h1 := h m1 (by simp)
    have h2 := h m2 (by simp)
    refine iff_of_true ⟨union_wf _ h1 h2,fun k => ?_⟩ (.inl (by simp))
    rw [mergeAll,get_union _ h1 h2,List.filterMap_cons,List.filterMap_cons]
    cases get k m1 <;> cases get k m2 <;> rfl
  | m1 :: m2 :: m3 :: ms =>
    have hlen : ¬ (m1 :: m2 :: m3 :: ms).length ≤ 2 := by simp
    have hall : mergeAll merge (m1 :: m2 :: m3 :: ms) = collectAll merge (m1 :: m2 :: m3 :: ms) := rfl
    rw [hall,MergeAllRight,or_iff_right hlen,collectAll_wf_iff merge h,MergesAll]
    simp only [get_collectAll merge h]

/-- The splits that the operations build, as long as `mergeAll` is applied where it is right. -/
inductive Reachable : (V : Type) → Split V → Prop
  | empty {V : Type} : Reachable V []
  | singleton {V : Type} (e : V) : Reachable V (singleton e)
  | group {V : Type} {m : Split V} (tag : Tag) (merge : List V → V) : Reachable V m → Reachable V (group tag merge m)
  | union {V : Type} [DecidableEq V] {m1 m2 : Split V} (f : V → V → V) : Reachable V m1 → Reachable V m2 →
      Reachable V (union f m1 m2)
  | merge {A B C : Type} {m1 : Split A} {m2 : Split B} (left : A → C) (both : A → B → C) (right : B → C) :
      Reachable A m1 → Reachable B m2 → Reachable C (merge left both right m1 m2)
  | mergeAll {V : Type} [DecidableEq V] {ms : List (Split V)} (merge : List V → V) : (∀ s ∈ ms, Reachable V s) →
      MergeAllRight merge ms → Reachable V (mergeAll merge ms)

theorem Reachable.wf {V : Type} {m : Split V} (h : Reachable V m) : Wf m := by
  induction h with
  | empty => exact ⟨List.Pairwise.nil,fun e he => by cases he⟩
  | singleton e => exact ⟨List.pairwise_singleton _ _,fun e' he' => by simp [List.mem_singleton.mp he',Sorted]⟩
  | group tag merge _ ih => exact group_wf tag merge ih
  | union f _ _ ih1 ih2 => exact union_wf f ih1 ih2
  | merge left both right _ _ ih1 ih2 => exact merge_wf left both right ih1 ih2
  | mergeAll merge _ hright ih => exact ((mergeAll_iff merge ih).mpr hright).1

/-- Splits are sorted, and their values are combined key by key. -/
theorem splits_combine (V : Type) [DecidableEq V] :
    (∀ m : Split V, Reachable V m → Wf m) ∧
    (∀ (merge : List V → V) (ms : List (Split V)), (∀ s ∈ ms, Reachable V s) →
      (Wf (mergeAll merge ms) ∧ MergesAll merge ms (mergeAll merge ms) ↔ MergeAllRight merge ms)) ∧
    (∀ (f : V → V → V) (m1 m2 : Split V), Reachable V m1 → Reachable V m2 → ∀ k,
      get k (union f m1 m2) = mergeValues id f id (get k m1) (get k m2)) ∧
    ∀ (A B C : Type) (left : A → C) (both : A → B → C) (right : B → C) (m1 : Split A) (m2 : Split B), Reachable A m1 →
      Reachable B m2 → ∀ k, get k (merge left both right m1 m2) = mergeValues left both right (get k m1) (get k m2) :=
  ⟨fun _ h => h.wf,fun merge _ h => mergeAll_iff merge fun s hs => (h s hs).wf,
    fun f _ _ h1 h2 => get_union f h1.wf h2.wf,
    fun _ _ _ left both right _ _ h1 h2 => get_merge left both right h1.wf h2.wf⟩

section Examples

def tagged (s : ℤ) (v : ℕ) : Split ℕ := group (.mark s) List.sum (singleton v)

theorem reachable_tagged (s : ℤ) (v : ℕ) : Reachable ℕ (tagged s v) := .group _ _ (.singleton v)

theorem tagged_eq (s : ℤ) (v : ℕ) : tagged s v = [([.mark s],v)] := by
  simp [tagged,group,singleton,Tags.mem,Listset.mem,Tags.add,Listset.add,Listset.addAux]

/-- Three splits with two keys are merged to a split that is not sorted, and a union does not find a key in it. -/
theorem mergeAll_wrong : (∀ s ∈ [tagged 0 1,tagged 1 2,tagged 0 3], Reachable ℕ s) ∧
    mergeAll List.sum [tagged 0 1,tagged 1 2,tagged 0 3] = [([.mark 1],2),([.mark 0],4)] ∧
    ¬ Wf (mergeAll List.sum [tagged 0 1,tagged 1 2,tagged 0 3]) ∧
    union (· + ·) (mergeAll List.sum [tagged 0 1,tagged 1 2,tagged 0 3]) (tagged 0 5) =
      [([.mark 0],5),([.mark 1],2),([.mark 0],4)] := by
  have hall : mergeAll List.sum [tagged 0 1,tagged 1 2,tagged 0 3] = [([.mark 1],2),([.mark 0],4)] := by
    simp only [tagged_eq]
    decide
  refine ⟨by simp [reachable_tagged],hall,fun h => ?_,?_⟩
  · rw [hall] at h
    have := (List.pairwise_cons.mp h.sorted).1 _ (List.mem_singleton_self _)
    exact absurd this (by decide)
  · have hgt : Tags.compare [.mark 1] [.mark 0] = .gt := by decide
    rw [hall,tagged_eq]
    simp [union,Listmap.union,Listmap.unionAux,hgt,Listset.revAppendUntil]

theorem splits_combine_tagged :
    get [.mark 0] (mergeAll List.sum [tagged 0 1,tagged 0 3]) = mergedValue List.sum [1,3] := by
  have hr : ∀ s ∈ [tagged 0 1,tagged 0 3], Reachable ℕ s := by
    simp [reachable_tagged]
  have h := (((splits_combine ℕ).2.1 List.sum [tagged 0 1,tagged 0 3] hr).mpr (.inl (by simp))).2 [.mark 0]
  rw [h]
  simp only [tagged_eq]
  decide

end Examples
end FramaC.Splitter
