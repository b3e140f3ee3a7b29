import FramaC.Qed.Intmap.ElementSets

/-! # Sets of integers and of indexed elements

`Intset` and `Idxset` instantiate the operations on trees. Their `diff` gives to `diffq` the callback of `inter`, which
keeps the common elements; `Idxset.map` and `Idxset.mapf` leave an element under the key of the element it replaces.
-/
namespace FramaC.Qed

open Intmap

namespace Intset

abbrev T := Intmap.Tree Unit

def empty : T := Intmap.Tree.empty
def singleton (x : Key) : T := Intmap.Tree.singleton x ()
def add (sh : Sharing Unit) (x : Key) : T → T := Intmap.Tree.add sh x ()
def remove (sh : Sharing Unit) (x : Key) : T → T := Intmap.Tree.remove sh x
def mem : Key → T → Bool := Intmap.Tree.mem
def equal (sh : Sharing Unit) : T → T → Bool := Intmap.Tree.equal sh fun _ _ => true

def keep (_ : Key) (_ _ : Unit) : Unit := ()
def keepq (_ : Key) (_ _ : Unit) : Option Unit := some ()
def same (_ : Key) (_ _ : Unit) : Bool := true

def union (sh : Sharing Unit) : T → T → T := Intmap.Tree.union sh keep
def inter (sh : Sharing Unit) : T → T → T := Intmap.Tree.interq sh keepq
def diff (sh : Sharing Unit) : T → T → T := Intmap.Tree.diffq sh keepq
def subset : T → T → Bool := Intmap.Tree.subset same
def intersect : T → T → Bool := Intmap.Tree.intersectf same
def filter (sh : Sharing Unit) (f : Key → Bool) : T → T := Intmap.Tree.filter sh fun i _ => f i
def partition (sh : Sharing Unit) (f : Key → Bool) : T → T × T := Intmap.Tree.partition sh fun i _ => f i
def elements : T → List Key := Intmap.Tree.mapl fun i _ => i

def indexing : Indexing Key Unit := ⟨fun x => x,fun _ => (),fun _ _ h => h⟩

/-- Sets built by the operations, with the sets they stand for; no difference is of sets with a common element. -/
inductive Runs : T → Set Key → Prop
  | empty : Runs empty ∅
  | singleton (x : Key) : Runs (singleton x) {x}
  | add {t : T} {A : Set Key} (sh : Sharing Unit) (x : Key) : Runs t A → Runs (add sh x t) (insert x A)
  | remove {t : T} {A : Set Key} (sh : Sharing Unit) (x : Key) : Runs t A → Runs (remove sh x t) (A \ {x})
  | union {s t : T} {A B : Set Key} (sh : Sharing Unit) : Runs s A → Runs t B → Runs (union sh s t) (A ∪ B)
  | inter {s t : T} {A B : Set Key} (sh : Sharing Unit) : Runs s A → Runs t B → Runs (inter sh s t) (A ∩ B)
  | diff {s t : T} {A B : Set Key} (sh : Sharing Unit) : Runs s A → Runs t B → Disjoint A B →
      Runs (diff sh s t) (A \ B)
  | filter {t : T} {A : Set Key} (sh : Sharing Unit) (f : Key → Bool) : Runs t A →
      Runs (filter sh f t) {x | x ∈ A ∧ f x = true}
  | partitionYes {t : T} {A : Set Key} (sh : Sharing Unit) (f : Key → Bool) : Runs t A →
      Runs (partition sh f t).1 {x | x ∈ A ∧ f x = true}
  | partitionNo {t : T} {A : Set Key} (sh : Sharing Unit) (f : Key → Bool) : Runs t A →
      Runs (partition sh f t).2 {x | x ∈ A ∧ f x = false}

theorem keepq_self (k : Key) (v : Unit) : keepq k v v = some v := rfl

theorem Runs.isSet {t : T} {A : Set Key} (h : Runs t A) : Intmap.Tree.IsSet indexing t A := by
  induction h with
  | empty => exact Intmap.Tree.isSet_empty
  | singleton x => exact Intmap.Tree.isSet_singleton indexing x
  | add sh x _ ih => exact ih.add sh x
  | remove sh x _ ih => exact ih.remove sh x
  | union sh _ _ ihs iht => exact ihs.union iht sh fun _ _ => rfl
  | inter sh _ _ ihs iht => exact ihs.interq iht sh keepq_self
  | diff sh _ _ hdis ihs iht => exact (ihs.diffq_iff iht sh keepq_self).2 hdis
  | filter sh f _ ih => exact ih.filter sh fun _ => rfl
  | partitionYes sh f _ ih => exact (ih.partition sh fun _ => rfl).1
  | partitionNo sh f _ ih => exact (ih.partition sh fun _ => rfl).2

end Intset

namespace Idxset

variable {E : Type} (id : E → Key)

abbrev T (E : Type) := Intmap.Tree E

def empty : T E := Intmap.Tree.empty
def singleton (x : E) : T E := Intmap.Tree.singleton (id x) x
def add (sh : Sharing E) (x : E) : T E → T E := Intmap.Tree.add sh (id x) x
def remove (sh : Sharing E) (x : E) : T E → T E := Intmap.Tree.remove sh (id x)
def mem (x : E) (m : T E) : Bool := Intmap.Tree.mem (id x) m
def equal (sh : Sharing E) (m1 m2 : T E) : Bool := Intmap.Tree.equal sh (fun _ _ => true) m1 m2

def keep (_ : Key) (x _ : E) : E := x
def keepq (_ : Key) (x _ : E) : Option E := some x
def same (_ : Key) (_ _ : E) : Bool := true

def union (sh : Sharing E) (m1 m2 : T E) : T E := Intmap.Tree.union sh keep m1 m2
def inter (sh : Sharing E) (m1 m2 : T E) : T E := Intmap.Tree.interq sh keepq m1 m2
def diff (sh : Sharing E) (m1 m2 : T E) : T E := Intmap.Tree.diffq sh keepq m1 m2
def subset (m1 m2 : T E) : Bool := Intmap.Tree.subset same m1 m2
def intersect (m1 m2 : T E) : Bool := Intmap.Tree.intersectf same m1 m2
def filter (sh : Sharing E) (f : E → Bool) (m : T E) : T E := Intmap.Tree.filter sh (fun _ x => f x) m
def partition (sh : Sharing E) (f : E → Bool) (m : T E) : T E × T E := Intmap.Tree.partition sh (fun _ x => f x) m
def elements (m : T E) : List E := Intmap.Tree.mapl (fun _ x => x) m
def mapf (sh : Sharing E) (f : E → Option E) (m : T E) : T E := Intmap.Tree.mapq sh (fun _ x => f x) m
def map (sh : Sharing E) (f : E → E) (m : T E) : T E := Intmap.Tree.mapq sh (fun _ x => some (f x)) m

def indexing {id : E → Key} (hid : Function.Injective id) : Indexing E E := ⟨id,fun x => x,hid⟩

/-- Sets built by the operations, with the sets they stand for; no difference is of sets with a common element, and no
map changes an element. -/
inductive Runs : T E → Set E → Prop
  | empty : Runs empty ∅
  | singleton (x : E) : Runs (singleton id x) {x}
  | add {t : T E} {A : Set E} (sh : Sharing E) (x : E) : Runs t A → Runs (add id sh x t) (insert x A)
  | remove {t : T E} {A : Set E} (sh : Sharing E) (x : E) : Runs t A → Runs (remove id sh x t) (A \ {x})
  | union {s t : T E} {A B : Set E} (sh : Sharing E) : Runs s A → Runs t B → Runs (union sh s t) (A ∪ B)
  | inter {s t : T E} {A B : Set E} (sh : Sharing E) : Runs s A → Runs t B → Runs (inter sh s t) (A ∩ B)
  | diff {s t : T E} {A B : Set E} (sh : Sharing E) : Runs s A → Runs t B → Disjoint A B →
      Runs (diff sh s t) (A \ B)
  | filter {t : T E} {A : Set E} (sh : Sharing E) (f : E → Bool) : Runs t A →
      Runs (filter sh f t) {x | x ∈ A ∧ f x = true}
  | partitionYes {t : T E} {A : Set E} (sh : Sharing E) (f : E → Bool) : Runs t A →
      Runs (partition sh f t).1 {x | x ∈ A ∧ f x = true}
  | partitionNo {t : T E} {A : Set E} (sh : Sharing E) (f : E → Bool) : Runs t A →
      Runs (partition sh f t).2 {x | x ∈ A ∧ f x = false}
  | mapf {t : T E} {A : Set E} (sh : Sharing E) (f : E → Option E) : Runs t A → (∀ x ∈ A, ∀ y, f x = some y → y = x) →
      Runs (mapf sh f t) {y | ∃ x ∈ A, f x = some y}
  | map {t : T E} {A : Set E} (sh : Sharing E) (f : E → E) : Runs t A → (∀ x ∈ A, f x = x) →
      Runs (map sh f t) (f '' A)

section maps

variable {id} {hid : Function.Injective id} {t : T E} {A : Set E} (h : Intmap.Tree.IsSet (indexing hid) t A) (sh : Sharing E)

include h

theorem find_mapf (f : E → Option E) {x : E} (hx : x ∈ A) : Intmap.Tree.find (id x) (mapf sh f t) = f x := by
  rw [mapf,(Intmap.Tree.mapq_represents sh (fun _ x => f x) h.canonical).2]
  rw [show Intmap.Tree.find (id x) t = some x from h.find_of_mem hx]
  rfl

theorem mapf_isSet_iff (f : E → Option E) : Intmap.Tree.IsSet (indexing hid) (mapf sh f t) {y | ∃ x ∈ A, f x = some y} ↔
    ∀ x ∈ A, ∀ y, f x = some y → y = x := by
  constructor
  · intro himage x hx y hy
    obtain ⟨z,_,hkey,hval⟩ := himage.exists_of_find ((find_mapf h sh f hx).trans hy)
    rw [← show z = y from hval]
    exact hid hkey
  · intro hfix
    obtain ⟨hc,hf⟩ := Intmap.Tree.mapq_represents sh (fun _ x => f x) h.canonical
    have hsep := h.sep hc (P := fun x => f x = some x) ?_ ?_ ?_
    · have hset : {y | ∃ x ∈ A, f x = some y} = {x | x ∈ A ∧ f x = some x} := by
        ext y
        constructor
        · rintro ⟨x,hx,hy⟩
          obtain rfl := hfix x hx y hy
          exact ⟨hx,hy⟩
        · rintro ⟨hy,hfy⟩
          exact ⟨y,hy,hfy⟩
      rw [hset]
      exact hsep
    · intro x hx hp
      exact (find_mapf h sh f hx).trans hp
    · intro x hx hp
      refine (find_mapf h sh f hx).trans ?_
      cases hy : f x with
      | none => rfl
      | some y =>
        obtain rfl := hfix x hx y hy
        exact absurd hy hp
    · intro k hk
      rw [hf,hk]
      rfl

theorem map_isSet_iff (f : E → E) : Intmap.Tree.IsSet (indexing hid) (map sh f t) (f '' A) ↔ ∀ x ∈ A, f x = x := by
  have himage : f '' A = {y | ∃ x ∈ A, some (f x) = some y} := by
    ext y
    simp only [Set.mem_image,Set.mem_ofPred_eq,Option.some.injEq]
  have hmap : map sh f t = mapf sh (fun x => some (f x)) t := rfl
  rw [himage,hmap,mapf_isSet_iff h]
  constructor
  · intro hfix x hx
    exact hfix x hx (f x) rfl
  · intro hfix x hx y hy
    exact (Option.some.inj hy).symm.trans (hfix x hx)

theorem mem_map (f : E → E) (x : E) : mem id x (map sh f t) = true ↔ x ∈ A := by
  obtain ⟨_,hf⟩ := Intmap.Tree.mapq_represents sh (fun _ x => some (f x)) h.canonical
  rw [mem,map,Intmap.Tree.mem_eq,hf,← h.mem_iff x,Intmap.Tree.mem_eq]
  change ((Intmap.Tree.find (id x) t).bind _).isSome = true ↔ (Intmap.Tree.find (id x) t).isSome = true
  cases Intmap.Tree.find (id x) t with
  | none => rfl
  | some y => exact iff_of_true rfl rfl

end maps

theorem keepq_self (k : Key) (v : E) : keepq k v v = some v := rfl

theorem Runs.isSet {id : E → Key} (hid : Function.Injective id) {t : T E} {A : Set E} (h : Runs id t A) :
    Intmap.Tree.IsSet (indexing hid) t A := by
  induction h with
  | empty => exact Intmap.Tree.isSet_empty
  | singleton x => exact Intmap.Tree.isSet_singleton (indexing hid) x
  | add sh x _ ih => exact ih.add sh x
  | remove sh x _ ih => exact ih.remove sh x
  | union sh _ _ ihs iht => exact ihs.union iht sh fun _ _ => rfl
  | inter sh _ _ ihs iht => exact ihs.interq iht sh keepq_self
  | diff sh _ _ hdis ihs iht => exact (ihs.diffq_iff iht sh keepq_self).2 hdis
  | filter sh f _ ih => exact ih.filter sh fun _ => rfl
  | partitionYes sh f _ ih => exact (ih.partition sh fun _ => rfl).1
  | partitionNo sh f _ ih => exact (ih.partition sh fun _ => rfl).2
  | mapf sh f _ hfix ih => exact (mapf_isSet_iff ih sh f).2 hfix
  | map sh f _ hfix ih => exact (map_isSet_iff ih sh f).2 hfix

end Idxset

/-- Over every run whose differences are of disjoint sets and whose maps change no element, the operations are those of
sets. One more difference is right only between disjoint sets, one more map only when its image is the set. -/
theorem sets_correct (E : Type) (id : E → Key) :
    (∀ (s t : Intset.T) (A B : Set Key), Intset.Runs s A → Intset.Runs t B →
      (∀ x, Intset.mem x s = true ↔ x ∈ A) ∧ (∀ x, x ∈ Intset.elements s ↔ x ∈ A) ∧
      ((Intset.elements s).Pairwise fun x y => x.toInt < y.toInt) ∧ (Intset.subset s t = true ↔ A ⊆ B) ∧
      (Intset.intersect s t = true ↔ (A ∩ B).Nonempty) ∧
      ∀ sh, (Intset.equal sh s t = true ↔ A = B) ∧
        ((∀ x, Intset.mem x (Intset.diff sh s t) = true ↔ x ∈ A ∧ x ∉ B) ↔ Disjoint A B)) ∧
    (Function.Injective id → ∀ (s t : Idxset.T E) (A B : Set E), Idxset.Runs id s A → Idxset.Runs id t B →
      (∀ x, Idxset.mem id x s = true ↔ x ∈ A) ∧ (∀ x, x ∈ Idxset.elements s ↔ x ∈ A) ∧
      ((Idxset.elements s).Pairwise fun x y => (id x).toInt < (id y).toInt) ∧ (Idxset.subset s t = true ↔ A ⊆ B) ∧
      (Idxset.intersect s t = true ↔ (A ∩ B).Nonempty) ∧
      ∀ sh, (Idxset.equal sh s t = true ↔ A = B) ∧
        ((∀ x, Idxset.mem id x (Idxset.diff sh s t) = true ↔ x ∈ A ∧ x ∉ B) ↔ Disjoint A B) ∧
        ∀ f : E → E, (∀ x, Idxset.mem id x (Idxset.map sh f s) = true ↔ ∃ y ∈ A, x = f y) ↔ f '' A = A) := by
  have hdisjoint : ∀ {ε : Type} {A B : Set ε}, (∀ x, x ∈ A ↔ x ∈ A ∧ x ∉ B) ↔ Disjoint A B := by
    intro ε A B
    rw [Set.disjoint_left]
    constructor
    · intro h x hx
      exact ((h x).1 hx).2
    · intro h x
      exact ⟨fun hx => ⟨hx,h hx⟩,And.left⟩
  constructor
  · intro s t A B hs ht
    have hA := hs.isSet
    have hB := ht.isSet
    obtain ⟨helements,hsorted⟩ := hA.mapl_spec (f := fun i _ => i) fun _ => rfl
    refine ⟨hA.mem_iff,helements,hsorted,hA.subset_iff hB,hA.intersectf_iff hB,?_⟩
    intro sh
    refine ⟨hA.equal_iff hB sh,?_⟩
    rw [Intset.diff,hA.diffq_keep hB sh Intset.keepq_self,← hdisjoint]
    exact forall_congr' fun x => iff_congr (hA.mem_iff x) Iff.rfl
  · intro hid s t A B hs ht
    have hA := hs.isSet hid
    have hB := ht.isSet hid
    obtain ⟨helements,hsorted⟩ := hA.mapl_spec (f := fun _ x => x) fun _ => rfl
    refine ⟨hA.mem_iff,helements,hsorted,hA.subset_iff hB,hA.intersectf_iff hB,?_⟩
    intro sh
    refine ⟨hA.equal_iff hB sh,?_,?_⟩
    · rw [Idxset.diff,hA.diffq_keep hB sh Idxset.keepq_self,← hdisjoint]
      exact forall_congr' fun x => iff_congr (hA.mem_iff x) Iff.rfl
    · intro f
      constructor
      · intro h
        ext x
        rw [← Idxset.mem_map hA sh f x,h x]
        exact exists_congr fun y => and_congr_right fun _ => eq_comm
      · intro h x
        rw [Idxset.mem_map hA sh f x]
        conv_lhs => rw [← h]
        exact exists_congr fun y => and_congr_right fun _ => eq_comm

theorem sets_correct_add :
    Intset.mem 5 (Intset.diff Intmap.Tree.unshared (Intset.add Intmap.Tree.unshared 5 Intset.empty) (Intset.singleton 7)) = true ∧
      ¬ Intset.mem 7 (Intset.diff Intmap.Tree.unshared (Intset.add Intmap.Tree.unshared 5 Intset.empty) (Intset.singleton 7)) =
        true := by
  obtain ⟨_,_,_,_,_,hsh⟩ := (sets_correct Key fun x => x).1 _ _ _ _ (Intset.Runs.add Intmap.Tree.unshared 5 Intset.Runs.empty)
    (Intset.Runs.singleton 7)
  have hdiff := (hsh Intmap.Tree.unshared).2.2 (by simp)
  rw [hdiff,hdiff]
  simp

/-- The difference of a set with itself keeps its element, and the image of an element is not found. -/
theorem diff_keeps_map_misses :
    (Intset.mem 5 (Intset.diff Intmap.Tree.unshared (Intset.singleton 5) (Intset.singleton 5)) = true ∧
      Intset.mem 5 (Intset.singleton 5) = true) ∧
    Idxset.mem (fun x : Key => x) 6 (Idxset.map Intmap.Tree.unshared (· + 1) (Idxset.singleton (fun x => x) 5)) = false := by
  refine ⟨⟨?_,by decide⟩,by decide⟩
  rw [Intset.diff,Intset.singleton,Intmap.Tree.singleton,Intmap.Tree.diffq]
  rfl

end FramaC.Qed
