import FramaC.Hptmap.Maps

/-! # Sequences of operations

Every sequence of operations returns the canonical tree of the finite map that it denotes.
-/
set_option linter.unusedSectionVars false
namespace FramaC.Hptmap
open Tree
variable {K V : Type} [DecidableEq K] [DecidableEq V] [Key K]

def combine (both : K → V → V → Option V) (left right : K → V → Option V) (k : K) :
    Option V → Option V → Option V
  | none, none => none
  | some v, none => left k v
  | none, some w => right k w
  | some v, some w => both k v w

/-- A merge declared symmetric does not depend on the order of the maps, and one declared idempotent
keeps a map merged with itself. -/
def Documented (symmetric idempotent : Bool) (both : K → V → V → Option V) (left right : K → V → Option V) : Prop :=
  (symmetric = true → (∀ k v w, both k v w = both k w v) ∧ ∀ k v, left k v = right k v) ∧
    (idempotent = true → ∀ k v, both k v v = some v)

theorem Documented.merged_eq {sy id : Bool} {both : K → V → V → Option V} {left right : K → V → Option V}
    (h : Documented sy id both left right) {k : K} {x y z : Option V}
    (hm : Merger.Merged sy id both left right k x y z) : z = combine both left right k x y := by
  cases x with
  | none =>
    cases y with
    | none => exact hm
    | some w => exact hm
  | some v =>
    cases y with
    | none => exact hm
    | some w =>
      rcases hm with hz | ⟨hs,hz⟩ | ⟨hi,rfl,hz⟩
      · exact hz
      · rw [hz]
        exact (h.1 hs).1 k w v
      · rw [hz]
        exact (h.2 hi k v).symm

theorem plain_pointwise {g : Merger Id K V} {both : K → V → V → Option V} {left right : K → V → Option V}
    (hd : g.Decides both left right) (h : Documented g.symmetric g.idempotent both left right) {s t : Tree K V}
    (hs : s.Canonical) (ht : t.Canonical) : (g.plain s t).Canonical ∧
      ∀ k, (g.plain s t).find k = combine both left right k (s.find k) (t.find k) := by
  obtain ⟨hc,hm⟩ := Merger.plain_spec hd hs ht
  exact ⟨hc,fun k => h.merged_eq (hm k)⟩

/-- The conditions of `generic_join`. -/
def DocumentedJoin (symmetric idempotent : Bool) (decide : K → Option V → Option V → V) : Prop :=
  (symmetric = true → ∀ k x y, decide k x y = decide k y x) ∧
    (idempotent = true → ∀ k x, decide k (some x) (some x) = x)

theorem DocumentedJoin.documented {sy id : Bool} {decide : K → Option V → Option V → V}
    (h : DocumentedJoin sy id decide) : Documented sy id (fun k v w => some (decide k (some v) (some w)))
      (fun k v => some (decide k (some v) none)) (fun k v => some (decide k none (some v))) := by
  refine ⟨fun hs => ⟨fun k v w => ?_,fun k v => ?_⟩,fun hi k v => ?_⟩
  · exact congrArg some (h.1 hs k (some v) (some w))
  · exact congrArg some (h.1 hs k (some v) none)
  · exact congrArg some (h.2 hi k v)

/-- The values of a map, with their equality. -/
structure Value where
  carrier : Type
  [eq : DecidableEq carrier]

instance (T : Value) : DecidableEq T.carrier := T.eq

/-- A sequence of operations that builds a map; its shapes are built by sequences of their own. -/
inductive Sequence (K : Type) : Value → Type 1
  | empty {T : Value} : Sequence K T
  | singleton {T : Value} (k : K) (d : T.carrier) : Sequence K T
  | add {T : Value} (k : K) (d : T.carrier) (m : Sequence K T) : Sequence K T
  | remove {T : Value} (k : K) (m : Sequence K T) : Sequence K T
  | map {T : Value} (f : T.carrier → T.carrier) (m : Sequence K T) : Sequence K T
  | mapOpt {T : Value} (f : K → T.carrier → Option T.carrier) (m : Sequence K T) : Sequence K T
  | filter {T : Value} (f : K → Bool) (m : Sequence K T) : Sequence K T
  | endoMap {T : Value} (f : K → T.carrier → T.carrier) (m : Sequence K T) : Sequence K T
  | fromShape {S T : Value} (f : K → S.carrier → T.carrier) (shape : Sequence K S) : Sequence K T
  | merge {T : Value} (symmetric idempotent : Bool) (decideBoth : K → T.carrier → T.carrier → Option T.carrier)
      (decideLeft decideRight : EmptyAction K T.carrier) (s t : Sequence K T) : Sequence K T
  | genericJoin {T : Value} (symmetric idempotent : Bool)
      (decide : K → Option T.carrier → Option T.carrier → T.carrier) (s t : Sequence K T) : Sequence K T
  | join {T : Value} (symmetric idempotent : Bool) (decide : K → T.carrier → T.carrier → T.carrier)
      (s t : Sequence K T) : Sequence K T
  | inter {T : Value} (symmetric idempotent : Bool) (decide : K → T.carrier → T.carrier → Option T.carrier)
      (s t : Sequence K T) : Sequence K T
  | interWithShape {S T : Value} (shape : Sequence K S) (m : Sequence K T) : Sequence K T
  | diffWithShape {S T : Value} (shape : Sequence K S) (m : Sequence K T) : Sequence K T

namespace Sequence

def run {T : Value} : Sequence K T → Tree K T.carrier
  | empty => .empty
  | singleton k d => Tree.singleton k d
  | add k d m => Tree.add k d m.run
  | remove k m => Tree.remove k m.run
  | map f m => Tree.map f m.run
  | mapOpt f m => Tree.mapOpt f m.run
  | filter f m => Tree.filter f m.run
  | endoMap f m => Tree.endoMap f m.run
  | fromShape f shape => Tree.fromShape f shape.run
  | merge sy id both left right s t => (Merger.ofMerge (M := Id) sy id both left right).plain s.run t.run
  | genericJoin sy id decide s t => (Merger.ofGenericJoin (M := Id) sy id decide).plain s.run t.run
  | join sy id decide s t => (Merger.ofJoin (M := Id) sy id decide).plain s.run t.run
  | inter sy id decide s t => (Merger.ofInter (M := Id) sy id decide).plain s.run t.run
  | interWithShape shape m => Tree.interWithShape shape.run m.run
  | diffWithShape shape m => Tree.diffWithShape shape.run m.run

def model {T : Value} : Sequence K T → K → Option T.carrier
  | empty => fun _ => none
  | singleton k d => Function.update (fun _ => none) k (some d)
  | add k d m => Function.update m.model k (some d)
  | remove k m => Function.update m.model k none
  | map f m => fun k => (m.model k).map f
  | mapOpt f m => fun k => (m.model k).bind (f k)
  | filter f m => fun k => if f k then m.model k else none
  | endoMap f m => fun k => (m.model k).map (f k)
  | fromShape f shape => fun k => (shape.model k).map (f k)
  | merge _ _ both left right s t => fun k => combine both left.act right.act k (s.model k) (t.model k)
  | genericJoin _ _ decide s t => fun k =>
    if (s.model k).isNone ∧ (t.model k).isNone then none else some (decide k (s.model k) (t.model k))
  | join _ _ decide s t => fun k =>
    combine (fun k v w => some (decide k v w)) (fun _ v => some v) (fun _ v => some v) k (s.model k) (t.model k)
  | inter _ _ decide s t => fun k =>
    combine decide (fun _ _ => none) (fun _ _ => none) k (s.model k) (t.model k)
  | interWithShape shape m => fun k => if (shape.model k).isSome then m.model k else none
  | diffWithShape shape m => fun k => if (shape.model k).isSome then none else m.model k

def Meets {T : Value} : Sequence K T → Prop
  | empty | singleton _ _ => True
  | add _ _ m | remove _ m | map _ m | mapOpt _ m | filter _ m | endoMap _ m => m.Meets
  | fromShape _ shape => shape.Meets
  | merge sy id both left right s t => Documented sy id both left.act right.act ∧ s.Meets ∧ t.Meets
  | genericJoin sy id decide s t => DocumentedJoin sy id decide ∧ s.Meets ∧ t.Meets
  | join sy id decide s t =>
    Documented sy id (fun k v w => some (decide k v w)) (fun _ v => some v) (fun _ v => some v) ∧ s.Meets ∧ t.Meets
  | inter sy id decide s t => Documented sy id decide (fun _ _ => none) (fun _ _ => none) ∧ s.Meets ∧ t.Meets
  | interWithShape shape m => shape.Meets ∧ m.Meets
  | diffWithShape shape m => shape.Meets ∧ m.Meets

theorem run_spec {T : Value} (q : Sequence K T) (h : q.Meets) : q.run.Canonical ∧ ∀ k, q.run.find k = q.model k := by
  induction q with
  | empty => exact ⟨trivial,fun _ => rfl⟩
  | singleton k d =>
    refine ⟨trivial,fun k' => ?_⟩
    simp [run,Tree.singleton,model,find,Function.update_apply]
  | add k d m ih =>
    obtain ⟨hc,hf⟩ := ih h
    obtain ⟨hr,hrf⟩ := add_spec k d hc
    exact ⟨hr,fun k' => by rw [run,hrf,hf,model,Function.update_apply]⟩
  | remove k m ih =>
    obtain ⟨hc,hf⟩ := ih h
    obtain ⟨hr,hrf⟩ := remove_spec k hc
    exact ⟨hr,fun k' => by rw [run,hrf,hf,model,Function.update_apply]⟩
  | map f m ih =>
    obtain ⟨hc,hf⟩ := ih h
    rw [run,map_eq_fromShape]
    obtain ⟨hr,hrf⟩ := fromShape_spec (fun _ => f) hc
    exact ⟨hr,fun k => by rw [hrf,hf,model]⟩
  | mapOpt f m ih =>
    obtain ⟨hc,hf⟩ := ih h
    obtain ⟨hr,hrf⟩ := mapOpt_spec f hc
    exact ⟨hr,fun k => by rw [run,hrf,hf,model]⟩
  | filter f m ih =>
    obtain ⟨hc,hf⟩ := ih h
    rw [run,filter_eq_mapOpt]
    obtain ⟨hr,hrf⟩ := mapOpt_spec (fun k v => if f k then some v else none) hc
    refine ⟨hr,fun k => ?_⟩
    simp only [hrf,hf,model]
    cases m.model k with
    | none => exact (ite_self _).symm
    | some v => rfl
  | endoMap f m ih =>
    obtain ⟨hc,hf⟩ := ih h
    rw [run,endoMap_eq_fromShape]
    obtain ⟨hr,hrf⟩ := fromShape_spec f hc
    exact ⟨hr,fun k => by rw [hrf,hf,model]⟩
  | fromShape f shape ih =>
    obtain ⟨hc,hf⟩ := ih h
    obtain ⟨hr,hrf⟩ := fromShape_spec f hc
    exact ⟨hr,fun k => by rw [run,hrf,hf,model]⟩
  | merge sy id both left right s t ihs iht =>
    obtain ⟨hdoc,hs,ht⟩ := h
    obtain ⟨hcs,hfs⟩ := ihs hs
    obtain ⟨hct,hft⟩ := iht ht
    obtain ⟨hr,hrf⟩ := plain_pointwise (Merger.ofMerge_decides sy id both left right) hdoc hcs hct
    exact ⟨hr,fun k => by rw [run,hrf,hfs,hft,model]⟩
  | genericJoin sy id decide s t ihs iht =>
    obtain ⟨hdoc,hs,ht⟩ := h
    obtain ⟨hcs,hfs⟩ := ihs hs
    obtain ⟨hct,hft⟩ := iht ht
    obtain ⟨hr,hrf⟩ := plain_pointwise (Merger.ofGenericJoin_decides sy id decide) hdoc.documented hcs hct
    refine ⟨hr,fun k => ?_⟩
    simp only [run,hrf,hfs,hft,model]
    cases s.model k <;> cases t.model k <;> rfl
  | join sy id decide s t ihs iht =>
    obtain ⟨hdoc,hs,ht⟩ := h
    obtain ⟨hcs,hfs⟩ := ihs hs
    obtain ⟨hct,hft⟩ := iht ht
    obtain ⟨hr,hrf⟩ := plain_pointwise (Merger.ofJoin_decides sy id decide) hdoc hcs hct
    exact ⟨hr,fun k => by rw [run,hrf,hfs,hft,model]⟩
  | inter sy id decide s t ihs iht =>
    obtain ⟨hdoc,hs,ht⟩ := h
    obtain ⟨hcs,hfs⟩ := ihs hs
    obtain ⟨hct,hft⟩ := iht ht
    obtain ⟨hr,hrf⟩ := plain_pointwise (Merger.ofInter_decides sy id decide) hdoc hcs hct
    exact ⟨hr,fun k => by rw [run,hrf,hfs,hft,model]⟩
  | interWithShape shape m ihs ihm =>
    obtain ⟨hcs,hfs⟩ := ihs h.1
    obtain ⟨hcm,hfm⟩ := ihm h.2
    have hshaped : Shaped true (shape.run) (m.run) _ := mergeWithShape_shaped hcs hcm
    obtain ⟨hr,hrf⟩ := hshaped
    refine ⟨hr,fun k => ?_⟩
    simp only [run,Tree.interWithShape,hrf,hfs,hfm,model]
    cases (shape.model k).isSome <;> rfl
  | diffWithShape shape m ihs ihm =>
    obtain ⟨hcs,hfs⟩ := ihs h.1
    obtain ⟨hcm,hfm⟩ := ihm h.2
    have hshaped : Shaped false (shape.run) (m.run) _ := mergeWithShape_shaped hcs hcm
    obtain ⟨hr,hrf⟩ := hshaped
    refine ⟨hr,fun k => ?_⟩
    simp only [run,Tree.diffWithShape,hrf,hfs,hfm,model]
    cases (shape.model k).isSome <;> rfl

/-- The result of a sequence is canonical and its lookups are those of the finite map; canonical
trees with the same bindings are the same. -/
theorem run_canonical {K : Type} [DecidableEq K] [Key K] : (∀ (T : Value) (q : Sequence K T), q.Meets →
      q.run.Canonical ∧ ∀ k, q.run.find k = q.model k ∧ q.run.findCheckMissing k = q.model k ∧
        q.run.mem k = (q.model k).isSome) ∧
    ∀ (T : Value) (s t : Tree K T.carrier), s.Canonical → t.Canonical → (∀ k, s.find k = t.find k) → s = t := by
  refine ⟨fun T q hq => ?_,fun T s t hs ht h => eq_of_find_eq hs ht h⟩
  obtain ⟨hc,hf⟩ := run_spec q hq
  refine ⟨hc,fun k => ⟨hf k,?_,?_⟩⟩
  · rw [findCheckMissing_eq hc,hf]
  · rw [mem_eq hc,hf]

/-- Natural numbers of one bit less are keys. -/
instance natKey : Key (BitVec 62) where
  id k := k.setWidth 63
  id_injective k k' h := by
    have h' := congrArg (BitVec.setWidth 62) h
    simpa using h'
  id_nonneg k := by simp [BitVec.getLsbD_of_ge]

/-- The join of `{3 ↦ 1, 5 ↦ 7}` and `{5 ↦ 9}` without the key `3`. -/
def joinThreeFive : Sequence (BitVec 62) ⟨ℕ⟩ :=
  .remove 3 (.join true true (fun _ v w => max v w) (.add 5 7 (.singleton 3 1)) (.singleton 5 9))

theorem run_canonical_five : joinThreeFive.Meets ∧ joinThreeFive.run.Canonical ∧
    joinThreeFive.run.find 5 = some 9 := by
  have hmeets : joinThreeFive.Meets :=
    ⟨⟨fun _ => ⟨fun _ v w => congrArg some (max_comm v w),fun _ _ => rfl⟩,fun _ _ v => congrArg some (max_self v)⟩,
      trivial,trivial⟩
  obtain ⟨hc,hf⟩ := (run_canonical).1 _ joinThreeFive hmeets
  exact ⟨hmeets,hc,(hf 5).1⟩

end Sequence
end FramaC.Hptmap

/-! ## Replacement

`replace` inserts, updates or deletes a binding in one recursion. Unlike `remove` it rebuilds the
branches above a leaf that it deletes, so that an empty child remains.
-/
set_option linter.unusedSectionVars false
namespace FramaC.Hptmap.Tree
open BigEndian
variable {K V : Type} [DecidableEq K] [DecidableEq V] [Key K]

/-- A leaf in place of a missing binding; `none` is `Unchanged`. -/
def replaceEmpty (f : Option V → Option V) (k : K) : Option (Tree K V) := (f none).map (leaf k)

/-- The recursive part of `replace`; `none` is `Unchanged`. -/
@[grind =] def replaceFrom (f : Option V → Option V) (k : K) : Tree K V → Option (Tree K V)
  | empty => replaceEmpty f k
  | leaf k0 d0 =>
    if k = k0 then
      match f (some d0) with
      | none => some empty
      | some d => if d = d0 then none else some (leaf k d)
    else (replaceEmpty f k).map fun newLeaf => join (Key.id k) newLeaf (Key.id k0) (leaf k0 d0)
  | branch p m t0 t1 =>
    if matchPrefix (Key.id k) p m then
      if Key.id k &&& m = 0 then (replaceFrom f k t0).map fun t0' => branch p m t0' t1
      else (replaceFrom f k t1).map fun t1' => branch p m t0 t1'
    else (replaceEmpty f k).map fun newLeaf => join (Key.id k) newLeaf p (branch p m t0 t1)

def replace (f : Option V → Option V) (k : K) (m : Tree K V) : Tree K V := (replaceFrom f k m).getD m

/-- `none` is `Not_found`. -/
def minBinding : Tree K V → Option (K × V)
  | empty => none
  | branch _ _ left _ => minBinding left
  | leaf key data => some (key,data)

def maxBinding : Tree K V → Option (K × V)
  | empty => none
  | branch _ _ _ right => maxBinding right
  | leaf key data => some (key,data)

variable {f : Option V → Option V} {k : K} {t : Tree K V}

theorem minBinding_isSome (hc : t.Canonical) (hne : t ≠ empty) : t.minBinding.isSome = true := by
  induction t with
  | empty => exact absurd rfl hne
  | leaf key data => rfl
  | branch p m t0 t1 ih0 _ =>
    obtain ⟨h0,_,_,_,_,_,hc0,_⟩ := hc
    exact ih0 hc0 h0

theorem maxBinding_isSome (hc : t.Canonical) (hne : t ≠ empty) : t.maxBinding.isSome = true := by
  induction t with
  | empty => exact absurd rfl hne
  | leaf key data => rfl
  | branch p m t0 t1 _ ih1 =>
    obtain ⟨_,h1,_,_,_,_,_,hc1⟩ := hc
    exact ih1 hc1 h1

theorem find_of_not_matchPrefix {p m : NativeInt} {t0 t1 : Tree K V} (hc : (branch p m t0 t1).Canonical)
    (h : ¬ matchPrefix (Key.id k) p m = true) : (branch p m t0 t1).find k = none := by
  rw [← findCheckMissing_eq hc,findCheckMissing,if_neg h]

theorem find_branch_of_and {p m : NativeInt} {t0 t1 : Tree K V} :
    (branch p m t0 t1).find k = if Key.id k &&& m = 0 then t0.find k else t1.find k := rfl

theorem replaceFrom_eq_addFrom (hc : t.Canonical) {d : V} (h : f (t.find k) = some d) :
    replaceFrom f k t = addFrom k d t := by
  induction t with
  | empty =>
    simp only [find] at h
    simp [replaceFrom,replaceEmpty,addFrom,h]
  | leaf k0 d0 =>
    simp only [find] at h
    simp only [replaceFrom,replaceEmpty,addFrom]
    by_cases hk : k = k0
    · rw [if_pos hk] at h
      simp only [if_pos hk,h]
    · rw [if_neg hk] at h
      simp only [if_neg hk,h,Option.map_some]
  | branch p m t0 t1 ih0 ih1 =>
    have hc' := hc
    obtain ⟨_,_,_,_,_,_,hc0,hc1⟩ := hc
    simp only [replaceFrom,addFrom]
    by_cases hm : matchPrefix (Key.id k) p m = true
    · rw [find_branch_of_and] at h
      rw [if_pos hm,if_pos hm]
      split_ifs at h ⊢ with hz
      · rw [ih0 hc0 h]
      · rw [ih1 hc1 h]
    · rw [find_of_not_matchPrefix hc' hm] at h
      simp only [if_neg hm,replaceEmpty,h,Option.map_some]

theorem replaceFrom_unbound (hc : t.Canonical) (hk : t.find k = none) (h : f none = none) :
    replaceFrom f k t = none := by
  induction t with
  | empty => simp [replaceFrom,replaceEmpty,h]
  | leaf k0 d0 =>
    simp only [find] at hk
    have hne : k ≠ k0 := by
      rintro rfl
      simp at hk
    simp [replaceFrom,replaceEmpty,h,hne]
  | branch p m t0 t1 ih0 ih1 =>
    obtain ⟨_,_,_,_,_,_,hc0,hc1⟩ := hc
    rw [find_branch_of_and] at hk
    simp only [replaceFrom,replaceEmpty,h,Option.map_none]
    by_cases hz : Key.id k &&& m = 0
    · rw [if_pos hz] at hk
      rw [if_pos hz,ih0 hc0 hk,Option.map_none,ite_self]
    · rw [if_neg hz] at hk
      rw [if_neg hz,ih1 hc1 hk,Option.map_none,ite_self]

theorem replaceFrom_delete (hc : t.Canonical) {v : V} (hk : t.find k = some v) (h : f (some v) = none) :
    ∃ t', replaceFrom f k t = some t' ∧ (t = leaf k v ∧ t' = empty ∨ t ≠ leaf k v ∧ ¬ t'.Canonical) := by
  induction t with
  | empty => simp [find] at hk
  | leaf k0 d0 =>
    simp only [find] at hk
    split_ifs at hk with hk0
    cases hk
    subst hk0
    exact ⟨empty,by simp [replaceFrom,h],.inl ⟨rfl,rfl⟩⟩
  | branch p m t0 t1 ih0 ih1 =>
    have hm : matchPrefix (Key.id k) p m = true := by
      by_contra hm
      rw [find_of_not_matchPrefix hc hm] at hk
      exact absurd hk (by simp)
    obtain ⟨_,_,_,_,_,_,hc0,hc1⟩ := hc
    rw [find_branch_of_and] at hk
    simp only [replaceFrom,if_pos hm]
    split_ifs at hk ⊢ with hz
    · obtain ⟨t',hr,hcase⟩ := ih0 hc0 hk
      refine ⟨branch p m t' t1,by rw [hr,Option.map_some],.inr ⟨by simp,fun hcan => ?_⟩⟩
      obtain ⟨h0,_,_,_,_,_,hcan0,_⟩ := hcan
      rcases hcase with ⟨-,he⟩ | ⟨-,hno⟩
      · exact h0 he
      · exact hno hcan0
    · obtain ⟨t',hr,hcase⟩ := ih1 hc1 hk
      refine ⟨branch p m t0 t',by rw [hr,Option.map_some],.inr ⟨by simp,fun hcan => ?_⟩⟩
      obtain ⟨_,h1,_,_,_,_,_,hcan1⟩ := hcan
      rcases hcase with ⟨-,he⟩ | ⟨-,hno⟩
      · exact h1 he
      · exact hno hcan1

theorem eq_leaf_iff (hc : t.Canonical) {v : V} (hk : t.find k = some v) :
    t = leaf k v ↔ ∀ k', k' ≠ k → t.find k' = none := by
  constructor
  · rintro rfl k' hne
    simp [find,hne]
  · intro h
    refine eq_of_find_eq hc trivial fun k' => ?_
    by_cases hk' : k' = k
    · rw [hk',hk]
      simp [find]
    · rw [h k' hk']
      simp [find,hk']

def ReplacesAs (f : Option V → Option V) (k : K) (m : Tree K V) : Prop :=
  (replace f k m).Canonical ∧
    (replace f k m = match f (m.find k) with
      | some d => add k d m
      | none => remove k m) ∧
    ((∃ k', ((replace f k m).find k').isSome = true) →
      (replace f k m).minBinding.isSome = true ∧ (replace f k m).maxBinding.isSome = true)

def DeletesBelowBranch (f : Option V → Option V) (k : K) (m : Tree K V) : Prop :=
  f (m.find k) = none ∧ (m.find k).isSome = true ∧ ∃ k', k' ≠ k ∧ (m.find k').isSome = true

theorem extremal_of_canonical (hc : t.Canonical) :
    (∃ k', (t.find k').isSome = true) → t.minBinding.isSome = true ∧ t.maxBinding.isSome = true := by
  rintro ⟨k',hk'⟩
  have hne : t ≠ empty := by
    rintro rfl
    simp [find] at hk'
  exact ⟨minBinding_isSome hc hne,maxBinding_isSome hc hne⟩

theorem replacesAs_bind (hc : t.Canonical) {d : V} (h : f (t.find k) = some d) : ReplacesAs f k t := by
  have heq : replace f k t = add k d t := by rw [replace,replaceFrom_eq_addFrom hc h,add]
  have hcan : (replace f k t).Canonical := by
    rw [heq]
    exact (add_spec k d hc).1
  exact ⟨hcan,by rw [h]; exact heq,extremal_of_canonical hcan⟩

theorem remove_unbound (hc : t.Canonical) (hk : t.find k = none) : remove k t = t := by
  obtain ⟨hcan,hf⟩ := remove_spec k hc
  refine eq_of_find_eq hcan hc fun k' => ?_
  rw [hf]
  split
  · next h => rw [h,hk]
  · rfl

/-- A replacement is an insertion or a deletion exactly when it does not delete a binding of several. -/
theorem replace_correct_iff (f : Option V → Option V) (k : K) (m : Tree K V) (hc : m.Canonical) :
    ReplacesAs f k m ↔ ¬ DeletesBelowBranch f k m := by
  cases hf : f (m.find k) with
  | some d => exact iff_of_true (replacesAs_bind hc hf) fun h => absurd h.1 (by simp [hf])
  | none =>
    cases hk : m.find k with
    | none =>
      rw [hk] at hf
      have heq : replace f k m = m := by rw [replace,replaceFrom_unbound hc hk hf,Option.getD_none]
      refine iff_of_true ⟨by rw [heq]; exact hc,?_,?_⟩ fun h => absurd h.2.1 (by simp [hk])
      · rw [hk,hf,heq]
        exact (remove_unbound hc hk).symm
      · rw [heq]
        exact extremal_of_canonical hc
    | some v =>
      obtain ⟨t',hr,hcase⟩ := replaceFrom_delete hc hk (by rw [← hk]; exact hf)
      have heq : replace f k m = t' := by rw [replace,hr,Option.getD_some]
      have hleaf := eq_leaf_iff hc hk
      rcases hcase with ⟨hm,rfl⟩ | ⟨hm,hno⟩
      · refine iff_of_true ⟨heq ▸ trivial,?_,?_⟩ ?_
        · rw [hf,heq,hm]
          simp [remove,removeFrom]
        · rw [heq]
          exact extremal_of_canonical trivial
        · rintro ⟨-,-,k',hne,hk'⟩
          rw [hleaf.mp hm k' hne] at hk'
          exact absurd hk' (by simp)
      · refine iff_of_false (fun h => hno (heq ▸ h.1)) ?_
        rw [not_not]
        have hother : ∃ k', k' ≠ k ∧ ¬ m.find k' = none := by
          by_contra hall
          push Not at hall
          exact hm (hleaf.mpr hall)
        obtain ⟨k',hne,hk'⟩ := hother
        exact ⟨hf,by rw [hk]; rfl,k',hne,Option.isSome_iff_ne_none.mpr hk'⟩

def twoLeaves : Tree (BitVec 62) ℕ := branch 0 1 (leaf 0 5) (leaf 1 7)

theorem twoLeaves_canonical : twoLeaves.Canonical := by
  refine ⟨by simp,by simp,⟨0,by decide,by decide⟩,by decide,?_,?_,trivial,trivial⟩
  · intro k hk
    obtain rfl : k = 0 := by simpa [keys] using hk
    decide
  · intro k hk
    obtain rfl : k = 1 := by simpa [keys] using hk
    decide

theorem replace_correct_two : ReplacesAs (fun _ => some 9) 0 twoLeaves :=
  (replace_correct_iff _ _ _ twoLeaves_canonical).mpr fun h => absurd h.1 (by simp)

/-- After the deletion of the smallest of two bindings, the map has no least binding. -/
theorem replace_leaves_empty_child :
    ¬ ∀ (f : Option ℕ → Option ℕ) (k : BitVec 62) (m : Tree (BitVec 62) ℕ), m.Canonical → ReplacesAs f k m := by
  intro h
  obtain ⟨-,-,hmin⟩ := h (fun _ => none) 0 twoLeaves twoLeaves_canonical
  have hmin := (hmin ⟨1,by decide⟩).1
  exact absurd hmin (by decide)

end FramaC.Hptmap.Tree
