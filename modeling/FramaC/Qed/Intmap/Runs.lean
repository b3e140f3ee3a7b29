import FramaC.Qed.Intmap.Queries

/-! # Runs of operations

Every tree built by a sequence of operations represents the map that the same operations build on maps.
-/
namespace FramaC.Qed.Intmap

open Tree

/-- Trees built from the empty one, with the maps they stand for. -/
inductive Runs : {α : Type} → Tree α → (Key → Option α) → Prop
  | empty {α : Type} : Runs (Tree.empty : Tree α) fun _ => none
  | add {α : Type} {t : Tree α} {m : Key → Option α} (sh : Sharing α) (k : Key) (x : α) : Runs t m →
      Runs (t.add sh k x) (Function.update m k (some x))
  | insert {α : Type} {t : Tree α} {m : Key → Option α} (sh : Sharing α) (f : Key → α → α → α) (k : Key) (x : α) :
      Runs t m → Runs (t.insert sh f k x) (Function.update m k (some ((m k).elim x (f k x))))
  | change {α β : Type} {t : Tree α} {m : Key → Option α} (sh : Sharing α) (phi : Key → β → Option α → Option α)
      (k : Key) (x : β) : Runs t m → Runs (t.change sh phi k x) (Function.update m k (phi k x (m k)))
  | remove {α : Type} {t : Tree α} {m : Key → Option α} (sh : Sharing α) (k : Key) : Runs t m →
      Runs (t.remove sh k) (Function.update m k none)
  | mapf {α β : Type} {t : Tree α} {m : Key → Option α} (phi : Key → α → Option β) : Runs t m →
      Runs (t.mapf phi) fun k => (m k).bind (phi k)
  | mapq {α : Type} {t : Tree α} {m : Key → Option α} (sh : Sharing α) (phi : Key → α → Option α) : Runs t m →
      Runs (t.mapq sh phi) fun k => (m k).bind (phi k)
  | filter {α : Type} {t : Tree α} {m : Key → Option α} (sh : Sharing α) (f : Key → α → Bool) : Runs t m →
      Runs (t.filter sh f) fun k => (m k).filter (f k)
  | partitionYes {α : Type} {t : Tree α} {m : Key → Option α} (sh : Sharing α) (f : Key → α → Bool) : Runs t m →
      Runs (t.partition sh f).1 fun k => (m k).filter (f k)
  | partitionNo {α : Type} {t : Tree α} {m : Key → Option α} (sh : Sharing α) (f : Key → α → Bool) : Runs t m →
      Runs (t.partition sh f).2 fun k => (m k).filter fun x => !f k x
  | inter {α β γ : Type} {s : Tree α} {t : Tree β} {m : Key → Option α} {n : Key → Option β} (phi : Key → α → β → γ) :
      Runs s m → Runs t n → Runs (s.inter phi t) fun k => interMap (fun x y => some (phi k x y)) (m k) (n k)
  | interf {α β γ : Type} {s : Tree α} {t : Tree β} {m : Key → Option α} {n : Key → Option β}
      (phi : Key → α → β → Option γ) : Runs s m → Runs t n → Runs (s.interf phi t) fun k => interMap (phi k) (m k) (n k)
  | interq {α : Type} {s t : Tree α} {m n : Key → Option α} (sh : Sharing α) (phi : Key → α → α → Option α) :
      Runs s m → Runs t n → Runs (s.interq sh phi t) fun k => interMap (phi k) (m k) (n k)
  | union {α : Type} {s t : Tree α} {m n : Key → Option α} (sh : Sharing α) (phi : Key → α → α → α) :
      Runs s m → Runs t n → Runs (s.union sh phi t) fun k => Option.merge (phi k) (m k) (n k)
  | merge {α β γ : Type} {s : Tree α} {t : Tree β} {m : Key → Option α} {n : Key → Option β}
      (phi : Key → Option α → Option β → Option γ) : Runs s m → Runs t n →
      Runs (s.merge phi t) fun k => mergeMap (phi k) (m k) (n k)

theorem update_of_find {α : Type} {t t' : Tree α} {m : Key → Option α} {k : Key} {o : Option α}
    (hm : ∀ k, find k t = m k) (hf : ∀ k', find k' t' = if k' = k then o else find k' t) (k' : Key) :
    find k' t' = Function.update m k o k' := by
  rw [hf,Function.update_apply,hm]

theorem Runs.represents {α : Type} {t : Tree α} {m : Key → Option α} (h : Runs t m) :
    t.Canonical ∧ ∀ k, find k t = m k := by
  induction h with
  | empty => exact ⟨trivial,fun k => rfl⟩
  | add sh k x _ ih =>
    obtain ⟨hc,hf⟩ := change_represents sh (fun _ x _ => some x) k x ih.1
    exact ⟨hc,update_of_find ih.2 hf⟩
  | @insert α t m sh f k x _ ih =>
    obtain ⟨hc,hf⟩ := insert_spec sh f k x ih.1
    refine ⟨hc,?_⟩
    have hval : insertPhi f k x (find k t) = some ((m k).elim x (f k x)) := by
      rw [ih.2]
      cases m k with
      | none => rfl
      | some y => rfl
    rw [hval] at hf
    exact update_of_find ih.2 hf
  | change sh phi k x _ ih =>
    obtain ⟨hc,hf⟩ := change_represents sh phi k x ih.1
    rw [ih.2 k] at hf
    exact ⟨hc,update_of_find ih.2 hf⟩
  | remove sh k _ ih =>
    obtain ⟨hc,hf⟩ := change_represents sh (fun _ (_ : Unit) _ => none) k () ih.1
    exact ⟨hc,update_of_find ih.2 hf⟩
  | mapf phi _ ih =>
    obtain ⟨hc,hf⟩ := mapf_represents phi ih.1
    exact ⟨hc,fun k => by rw [hf,ih.2]⟩
  | mapq sh phi _ ih =>
    obtain ⟨hc,hf⟩ := mapq_represents sh phi ih.1
    exact ⟨hc,fun k => by rw [hf,ih.2]⟩
  | filter sh f _ ih =>
    obtain ⟨hc,hf⟩ := filter_represents sh f ih.1
    exact ⟨hc,fun k => by rw [hf,ih.2]⟩
  | partitionYes sh f _ ih =>
    obtain ⟨⟨hc,hf⟩,_⟩ := partition_represents sh f ih.1
    exact ⟨hc,fun k => by rw [hf,ih.2]⟩
  | partitionNo sh f _ ih =>
    obtain ⟨_,hc,hf⟩ := partition_represents sh f ih.1
    exact ⟨hc,fun k => by rw [hf,ih.2]⟩
  | inter phi _ _ ihs iht =>
    obtain ⟨hc,hf⟩ := interi_spec (fun i x y => some (phi i x y)) ihs.1 iht.1
    exact ⟨hc,fun k => (hf k).trans (by rw [ihs.2,iht.2])⟩
  | interf phi _ _ ihs iht =>
    obtain ⟨hc,hf⟩ := interi_spec phi ihs.1 iht.1
    exact ⟨hc,fun k => (hf k).trans (by rw [ihs.2,iht.2])⟩
  | interq sh phi _ _ ihs iht =>
    obtain ⟨hc,hf⟩ := interq_spec sh phi ihs.1 iht.1
    exact ⟨hc,fun k => by rw [hf,ihs.2,iht.2]⟩
  | union sh phi _ _ ihs iht =>
    obtain ⟨hc,hf⟩ := union_spec sh phi ihs.1 iht.1
    exact ⟨hc,fun k => by rw [hf,ihs.2,iht.2]⟩
  | merge phi _ _ ihs iht =>
    obtain ⟨hc,hf⟩ := merge_spec phi ihs.1 iht.1
    exact ⟨hc,fun k => by rw [hf,ihs.2,iht.2]⟩

/-- Over every run of operations: the tree is canonical, the lookups are those of the map, the enumerations are in
increasing order, inclusion and overlap are decided; and canonical trees with the same bindings are equal. -/
theorem intmap_correct :
    (∀ {α : Type} {t : Tree α} {m : Key → Option α}, Runs t m →
      t.Canonical ∧ (∀ k, find k t = m k) ∧ (∀ k, mem k t = (m k).isSome) ∧
      (∃ l : List (Key × α), (l.Pairwise fun a b => a.1.toInt < b.1.toInt) ∧ (∀ k x, (k,x) ∈ l ↔ m k = some x) ∧
        ∀ (σ : Type) (phi : Key → α → σ → σ) (e : σ), foldi phi t e = l.foldl (fun e b => phi b.1 b.2 e) e ∧
          iteri phi t e = l.foldl (fun e b => phi b.1 b.2 e) e) ∧
      ∀ {β : Type} {u : Tree β} {n : Key → Option β}, Runs u n → ∀ phi : Key → α → β → Bool,
        (subsetf phi t u = true ↔ Included phi m n) ∧ (intersectf phi t u = true ↔ Overlap phi m n)) ∧
    ∀ {α : Type} (sh : Sharing α) (eq : α → α → Bool) (s t : Tree α), s.Canonical → t.Canonical →
      SameBindings eq (find · s) (find · t) → equal sh eq s t = true := by
  refine ⟨?_,fun sh eq s t hs ht h => equal_of_sameBindings sh eq hs ht h⟩
  intro α t m hrun
  obtain ⟨hc,hf⟩ := hrun.represents
  refine ⟨hc,hf,?_,⟨t.increasing,increasing_pairwise hc,?_,?_⟩,?_⟩
  · intro k
    rw [mem_eq,hf]
  · intro k x
    rw [mem_increasing,← find_iff_mem_bindings hc,hf]
  · intro σ phi e
    rw [iteri_eq]
    exact ⟨foldi_eq phi t e,foldi_eq phi t e⟩
  · intro β u n hrun' phi
    obtain ⟨hc',hf'⟩ := hrun'.represents
    have hm : (find · t) = m := funext hf
    have hn : (find · u) = n := funext hf'
    rw [subsetf_iff phi hc hc',intersectf_iff phi hc hc',hm,hn]
    exact ⟨Iff.rfl,Iff.rfl⟩

def immediate : Sharing ℕ where
  value x y := x == y
  tree _ _ := false
  value_eq h := beq_iff_eq.1 h
  tree_eq h := by cases h

theorem intmap_correct_add : find (-1) ((Tree.empty.add immediate 5 7).add immediate (-1) 8) = some 8 ∧
    intersectf (fun _ x y => x == y) ((Tree.empty.add immediate 5 7).add immediate (-1) 8)
      (Tree.empty.add immediate (-1) 8) = true := by
  have hone := Runs.add immediate (-1) 8 (@Runs.empty ℕ)
  have hrun := Runs.add immediate (-1) 8 (Runs.add immediate 5 7 (@Runs.empty ℕ))
  obtain ⟨_,hfind,_,_,htests⟩ := (intmap_correct).1 hrun
  refine ⟨?_,(htests hone _).2.2 ⟨-1,8,8,?_,?_,rfl⟩⟩
  · rw [hfind,Function.update_self]
  · rw [Function.update_self]
  · rw [Function.update_self]

end FramaC.Qed.Intmap
