import FramaC.Lib.Outcome

/-! # Merging finite maps

The merge of two maps applies a function to the two optional values of every key that is bound on one side. The function
may raise, and then so does the merge.
-/
namespace FramaC.MapMerge
open Outcome

section Merge
variable {κ ν ε : Type} [DecidableEq κ]

def mergeStep (f : κ → Except ε (Option ν)) (acc : AList fun _ : κ => ν) (k : κ) : Except ε (AList fun _ : κ => ν) :=
  f k >>= fun
    | none => .ok acc
    | some v => .ok (acc.insert k v)

def merge (f : κ → Option ν → Option ν → Except ε (Option ν)) (m1 m2 : AList fun _ : κ => ν) :
    Except ε (AList fun _ : κ => ν) :=
  (m1 ∪ m2).keys.foldlM (mergeStep fun k => f k (m1.lookup k) (m2.lookup k)) ∅

theorem lookup_insert_eq {m : AList fun _ : κ => ν} {k k' : κ} {v : ν} :
    (m.insert k v).lookup k' = if k' = k then some v else m.lookup k' := by
  split
  · rename_i h
    subst h
    exact AList.lookup_insert m
  · rename_i h
    exact AList.lookup_insert_ne h

theorem mergeStep_sat (f : κ → Except ε (Option ν)) (acc : AList fun _ : κ => ν) (k : κ)
    (hacc : acc.lookup k = none ∨ f k = .ok (acc.lookup k)) :
    Sat (fun m => f k = .ok (m.lookup k) ∧ ∀ k', k' ≠ k → m.lookup k' = acc.lookup k') (fun e => f k = .error e)
      (mergeStep f acc k) := by
  unfold mergeStep
  cases hf : f k with
  | error e => rfl
  | ok r =>
    cases r with
    | none =>
      refine ⟨?_,fun _ _ => rfl⟩
      rcases hacc with h | h
      · rw [h]
      · exact hf.symm.trans h
    | some v =>
      refine ⟨by rw [AList.lookup_insert],?_⟩
      intro k' hk'
      exact AList.lookup_insert_ne hk'

theorem foldlM_mergeStep_sat (f : κ → Except ε (Option ν)) (keys : List κ) :
    Sat (fun m : AList fun _ : κ => ν => ∀ k, (k ∈ keys → f k = .ok (m.lookup k)) ∧ (k ∉ keys → m.lookup k = none))
      (fun e => ∃ k ∈ keys, f k = .error e) (keys.foldlM (mergeStep f) ∅) := by
  refine (Sat.foldlM_covers
    (P := fun acc : AList fun _ : κ => ν => ∀ k, acc.lookup k = none ∨ (k ∈ keys ∧ f k = .ok (acc.lookup k)))
    (G := fun k acc => f k = .ok (AList.lookup k acc)) (E := fun e => ∃ k ∈ keys, f k = .error e)
    (fun k => Or.inl (AList.lookup_empty k)) fun acc k hk hacc => ?_).mono ?_ fun _ h => h
  · have hstep := mergeStep_sat f acc k ((hacc k).imp id fun h => h.2)
    refine hstep.mono ?_ fun e he => ⟨k,hk,he⟩
    rintro m ⟨hm,hkeep⟩
    refine ⟨?_,hm,?_⟩
    · intro k'
      by_cases hk' : k' = k
      · subst hk'
        exact Or.inr ⟨hk,hm⟩
      · rw [hkeep k' hk']
        exact hacc k'
    · intro k' hG
      by_cases hk' : k' = k
      · subst hk'
        exact hm
      · rw [hkeep k' hk']
        exact hG
  · rintro m ⟨hP,hG,_⟩ k
    exact ⟨hG k,fun hk => (hP k).resolve_right fun h => hk h.1⟩

theorem merge_sat (f : κ → Option ν → Option ν → Except ε (Option ν)) (m1 m2 : AList fun _ : κ => ν) :
    Sat (fun m => ∀ k, (k ∈ m1 ∨ k ∈ m2 → f k (m1.lookup k) (m2.lookup k) = .ok (m.lookup k)) ∧
        (¬ (k ∈ m1 ∨ k ∈ m2) → m.lookup k = none))
      (fun e => ∃ k, (k ∈ m1 ∨ k ∈ m2) ∧ f k (m1.lookup k) (m2.lookup k) = .error e) (merge f m1 m2) := by
  have hkeys : ∀ k, k ∈ (m1 ∪ m2).keys ↔ k ∈ m1 ∨ k ∈ m2 := by
    intro k
    rw [← AList.mem_keys,AList.mem_union]
  refine (foldlM_mergeStep_sat _ _).mono ?_ ?_
  · intro m hm k
    rw [← hkeys]
    exact hm k
  · rintro e ⟨k,hk,he⟩
    exact ⟨k,(hkeys k).1 hk,he⟩

end Merge

section Combine
variable {κ α β ν ε : Type} [DecidableEq κ]

/-- The bindings of a map, changed or dropped with the help of another. -/
def combine (f : κ → α → Option β → Except ε (Option ν)) (m1 : AList fun _ : κ => α) (m2 : AList fun _ : κ => β) :
    Except ε (AList fun _ : κ => ν) :=
  m1.keys.foldlM (mergeStep fun k => match m1.lookup k with
    | none => .ok none
    | some v => f k v (m2.lookup k)) ∅

theorem combine_sat (f : κ → α → Option β → Except ε (Option ν)) (m1 : AList fun _ : κ => α) (m2 : AList fun _ : κ => β) :
    Sat (fun m => ∀ k, (m1.lookup k = none → m.lookup k = none) ∧
        ∀ v, m1.lookup k = some v → f k v (m2.lookup k) = .ok (m.lookup k))
      (fun e => ∃ k v, m1.lookup k = some v ∧ f k v (m2.lookup k) = .error e) (combine f m1 m2) := by
  refine (foldlM_mergeStep_sat _ _).mono ?_ ?_
  · intro m hm k
    refine ⟨?_,?_⟩
    · intro hnone
      exact (hm k).2 (by rwa [← AList.mem_keys,← AList.lookup_eq_none])
    · intro v hv
      have hk : k ∈ m1.keys := by
        rw [← AList.mem_keys,← AList.lookup_isSome,hv]
        rfl
      have h := (hm k).1 hk
      rwa [hv] at h
  · rintro e ⟨k,_,he⟩
    cases hv : m1.lookup k with
    | none =>
      rw [hv] at he
      cases he
    | some v =>
      rw [hv] at he
      exact ⟨k,v,hv,he⟩

theorem combine_ok {f : κ → α → Option β → Except ε (Option ν)} (m1 : AList fun _ : κ => α) (m2 : AList fun _ : κ => β)
    (h : ∀ k v, m1.lookup k = some v → ∃ r, f k v (m2.lookup k) = .ok r) :
    ∃ m, combine f m1 m2 = .ok m ∧ ∀ k, (m1.lookup k = none → m.lookup k = none) ∧
      ∀ v, m1.lookup k = some v → f k v (m2.lookup k) = .ok (m.lookup k) := by
  have hsat := combine_sat f m1 m2
  cases hc : combine f m1 m2 with
  | ok m =>
    rw [hc] at hsat
    exact ⟨m,rfl,hsat⟩
  | error e =>
    rw [hc] at hsat
    obtain ⟨k,v,hv,he⟩ := hsat
    obtain ⟨r,hr⟩ := h k v hv
    rw [hr] at he
    cases he

theorem merge_pure (f : κ → Option ν → Option ν → ν) (m1 m2 : AList fun _ : κ => ν) :
    ∃ m, merge (fun k v1 v2 => (.ok (some (f k v1 v2)) : Except ε (Option ν))) m1 m2 = .ok m ∧
      ∀ k, m.lookup k = if k ∈ m1 ∨ k ∈ m2 then some (f k (m1.lookup k) (m2.lookup k)) else none := by
  have hsat := merge_sat (fun k v1 v2 => (.ok (some (f k v1 v2)) : Except ε (Option ν))) m1 m2
  cases hc : merge (fun k v1 v2 => (.ok (some (f k v1 v2)) : Except ε (Option ν))) m1 m2 with
  | ok m =>
    rw [hc] at hsat
    refine ⟨m,rfl,?_⟩
    intro k
    obtain ⟨hin,hout⟩ := hsat k
    split
    · rename_i hk
      exact (Except.ok.inj (hin hk)).symm
    · rename_i hk
      exact hout hk
  | error e =>
    rw [hc] at hsat
    obtain ⟨k,_,he⟩ := hsat
    cases he

end Combine

theorem perm_entries_iff {κ ν : Type} [DecidableEq κ] {m n : AList fun _ : κ => ν} :
    m.entries.Perm n.entries ↔ ∀ k, m.lookup k = n.lookup k := by
  constructor
  · intro h k
    exact AList.perm_lookup h
  · intro h
    rw [← AList.toFinmap_eq]
    apply Finmap.ext_lookup
    intro k
    rw [Finmap.lookup_toFinmap,Finmap.lookup_toFinmap]
    exact h k

end FramaC.MapMerge
