import FramaC.Octagons.Reachable

/-! # Equality and hash of octagon states

`equal` compares the octagons, the intervals and the modified zones, `hash` reads the octagons, the relations and the
modified zones. Related variables without an octagon tell apart the hashes of equal states. Only a join or a widening
that drops an octagon leaves such variables behind.
-/
set_option linter.unusedSectionVars false
namespace FramaC.Octagons
open Hptmap Outcome
variable {X I Z : Type} [DecidableEq X] [Variable X] [Key (Pair X)] [DecidableEq I] [IvalOps I] [ZoneOps Z]

/-- `infer_intervals` and `saturate_octagons`. -/
def sourceSettings : Settings := ⟨true,true⟩

namespace State

/-- `State.equal`, which holds when `State.compare` is zero. -/
def Equal (s1 s2 : State X I Z) : Prop :=
  s1.octagons = s2.octagons ∧ s1.intervals = s2.intervals ∧ s1.modified = s2.modified

/-- What `State.hash` reads. -/
def hashed (s : State X I Z) : Tree (Pair X) (Diamond I) × Tree X (VariableSet X) × Z :=
  (s.octagons,s.relations,s.modified)

/-- Merging two states with `op`, or with `opRight` where the second state only has an octagon, drops no octagon. -/
structure KeepsOctagons (op opRight : Diamond I → Diamond I → Diamond I) (t1 t2 : State X I Z) : Prop where
  both : ∀ pair d e, t1.octagons.find pair = some d → t2.octagons.find pair = some e →
    ((op d e).trim pair).isSome
  left : ∀ pair d, t1.octagons.find pair = some d → t2.octagons.find pair = none →
    ∃ e, intervalDiamond t2.intervals pair = some e ∧ ((op d e).trim pair).isSome
  right : ∀ pair d, t1.octagons.find pair = none → t2.octagons.find pair = some d →
    ∃ e, intervalDiamond t1.intervals pair = some e ∧ ((opRight d e).trim pair).isSome

/-- Related variables of `A` are in a bound pair, and no variable is bound to the empty set. -/
structure Exact (A : Set X) (s : State X I Z) : Prop where
  bound : ∀ a ∈ A, ∀ b, Related s.relations a b → ∃ pair : Pair X, pair.Joins a b ∧ (s.octagons.find pair).isSome
  filled : ∀ a r, s.relations.find a = some r → r ≠ ∅

theorem empty_exact : (empty : State X I Z).Exact Set.univ where
  bound _ _ _ h := by
    obtain ⟨_,h,_⟩ := h
    cases h
  filled _ _ h := by cases h

theorem Exact.related_of_octagons {s1 s2 : State X I Z} (h1 : s1.Exact Set.univ) (hw : s2.Wf)
    (ho : s1.octagons = s2.octagons) {a b : X} (h : Related s1.relations a b) : Related s2.relations a b := by
  obtain ⟨pair,hj,hb⟩ := h1.bound a trivial b h
  rw [ho] at hb
  obtain ⟨d,hd⟩ := Option.isSome_iff_exists.mp hb
  obtain ⟨hfst,hsnd⟩ := hw.related pair d hd
  rcases hj with ⟨rfl,rfl⟩ | ⟨rfl,rfl⟩
  · exact hfst
  · exact hsnd

theorem Exact.relations_eq {s1 s2 : State X I Z} (h1 : s1.Exact Set.univ) (h2 : s2.Exact Set.univ) (hw1 : s1.Wf)
    (hw2 : s2.Wf) (ho : s1.octagons = s2.octagons) : s1.relations = s2.relations := by
  refine Tree.eq_of_find_eq hw1.relations hw2.relations fun a => ?_
  have hiff : ∀ b, Related s1.relations a b ↔ Related s2.relations a b :=
    fun b => ⟨h1.related_of_octagons hw2 ho,h2.related_of_octagons hw1 ho.symm⟩
  unfold Related at hiff
  cases hf1 : s1.relations.find a with
  | none =>
    cases hf2 : s2.relations.find a with
    | none => rfl
    | some r =>
      obtain ⟨b,hb⟩ := Finset.nonempty_iff_ne_empty.mpr (h2.filled a r hf2)
      obtain ⟨_,h,_⟩ := (hiff b).mpr ⟨r,hf2,hb⟩
      rw [hf1] at h
      cases h
  | some r1 =>
    cases hf2 : s2.relations.find a with
    | none =>
      obtain ⟨b,hb⟩ := Finset.nonempty_iff_ne_empty.mpr (h1.filled a r1 hf1)
      obtain ⟨_,h,_⟩ := (hiff b).mp ⟨r1,hf1,hb⟩
      rw [hf2] at h
      cases h
    | some r2 =>
      congr 1
      ext b
      simpa [hf1,hf2] using hiff b

theorem isSome_of_merged {K V : Type} {both : K → V → V → Option V} {left right : K → V → Option V} {sy id : Bool}
    {k : K} {x y z : Option V} (h : Merger.Merged sy id both left right k x y z)
    (hl : ∀ v, x = some v → y = none → (left k v).isSome) (hr : ∀ w, x = none → y = some w → (right k w).isSome)
    (hb : ∀ v w, x = some v → y = some w → (both k v w).isSome ∧ (sy = true → (both k w v).isSome))
    (hxy : x.isSome ∨ y.isSome) : z.isSome := by
  cases x with
  | none =>
    cases y with
    | none => simp at hxy
    | some w =>
      rw [show z = right k w from h]
      exact hr w rfl rfl
  | some v =>
    cases y with
    | none =>
      rw [show z = left k v from h]
      exact hl v rfl rfl
    | some w =>
      rcases h with h | ⟨hs,h⟩ | ⟨_,_,h⟩
      · rw [h]
        exact (hb v w rfl rfl).1
      · rw [h]
        exact (hb v w rfl rfl).2 hs
      · rw [h]
        rfl

theorem union_filled {t1 t2 : Tree X (VariableSet X)} (h1 : t1.Canonical) (h2 : t2.Canonical)
    (hf1 : ∀ a r, t1.find a = some r → r ≠ ∅) (hf2 : ∀ a r, t2.find a = some r → r ≠ ∅) :
    ∀ a r, (Relations.union t1 t2).find a = some r → r ≠ ∅ := by
  intro a r h
  have hm := (Merger.plain_spec
    (Merger.ofJoin_decides true true fun (_ : X) (x y : VariableSet X) => (x ∪ y : VariableSet X)) h1 h2).2 a
  unfold Relations.union at h
  rw [h] at hm
  rcases Merger.Merged.inv hm with ⟨v,hv,_,he⟩ | ⟨w,_,hw,he⟩ | ⟨v,w,hv,hw,he | ⟨_,he⟩ | ⟨_,_,rfl⟩⟩
  · exact Option.some.inj he ▸ hf1 a v hv
  · exact Option.some.inj he ▸ hf2 a w hw
  · rw [← Option.some.inj he]
    exact fun hu => hf1 a v hv (Finset.union_eq_empty.mp hu).1
  · rw [← Option.some.inj he]
    exact fun hu => hf2 a w hw (Finset.union_eq_empty.mp hu).1
  · exact hf1 a _ hv

theorem exact_of_union {t1 t2 s : State X I Z} (hw1 : t1.Wf) (hw2 : t2.Wf) (h1 : t1.Exact Set.univ)
    (h2 : t2.Exact Set.univ) (hr : s.relations = Relations.union t1.relations t2.relations)
    (hk : ∀ pair, (t1.octagons.find pair).isSome ∨ (t2.octagons.find pair).isSome → (s.octagons.find pair).isSome) :
    s.Exact Set.univ where
  bound a _ b h := by
    rw [hr,(Relations.union_spec hw1.relations hw2.relations).2] at h
    rcases h with h | h
    · obtain ⟨pair,hj,hb⟩ := h1.bound a trivial b h
      exact ⟨pair,hj,hk pair (.inl hb)⟩
    · obtain ⟨pair,hj,hb⟩ := h2.bound a trivial b h
      exact ⟨pair,hj,hk pair (.inr hb)⟩
  filled := by
    rw [hr]
    exact union_filled hw1.relations hw2.relations h1.filled h2.filled

section Merge
variable {t1 t2 : State X I Z} (hw1 : t1.Wf) (hw2 : t2.Wf) (h1 : t1.Exact Set.univ) (h2 : t2.Exact Set.univ)
include hw1 hw2 h1 h2

theorem join_exact (hk : KeepsOctagons Diamond.join Diamond.join t1 t2) :
    (join sourceSettings t1 t2).Exact Set.univ := by
  refine exact_of_union hw1 hw2 h1 h2 rfl fun pair hb => ?_
  refine isSome_of_merged ((Merger.plain_spec (Merger.ofMerge_decides false true _ (.traversing _) (.traversing _))
    hw1.octagons hw2.octagons).2 pair) (fun d hd hn => ?_) (fun d hn hd => ?_) (fun d e hd he => ⟨?_,nofun⟩) hb
  · obtain ⟨e,he,ht⟩ := hk.left pair d hd hn
    simpa [EmptyAction.act,he] using ht
  · obtain ⟨e,he,ht⟩ := hk.right pair d hn hd
    simpa [EmptyAction.act,he] using ht
  · exact hk.both pair d e hd he

theorem widen_exact (hk : KeepsOctagons Diamond.widen (fun d e => Diamond.widen e d) t1 t2) :
    (widen sourceSettings t1 t2).Exact Set.univ := by
  refine exact_of_union hw1 hw2 h1 h2 rfl fun pair hb => ?_
  refine isSome_of_merged ((Merger.plain_spec (Merger.ofMerge_decides false true _ (.traversing _) (.traversing _))
    hw1.octagons hw2.octagons).2 pair) (fun d hd hn => ?_) (fun d hn hd => ?_) (fun d e hd he => ⟨?_,nofun⟩) hb
  · obtain ⟨e,he,ht⟩ := hk.left pair d hd hn
    simpa [EmptyAction.act,he] using ht
  · obtain ⟨e,he,ht⟩ := hk.right pair d hn hd
    simpa [EmptyAction.act,he] using ht
  · exact hk.both pair d e hd he

theorem narrow_exact {r : State X I Z} (hr : narrow t1 t2 = some r) : r.Exact Set.univ := by
  obtain ⟨octagons,ho,hr⟩ := Option.bind_eq_some_iff.mp hr
  obtain ⟨intervals,_,hr⟩ := Option.bind_eq_some_iff.mp hr
  obtain rfl := Option.some.inj hr
  refine exact_of_union hw1 hw2 h1 h2 rfl fun pair hb => ?_
  have hplain := Merger.ofJoin_only (fun _ x y => Diamond.narrow x y) true true t1.octagons t2.octagons octagons ho
  have hm := (Merger.plain_spec (Merger.ofJoin_decides true true (Merger.value fun (_ : Pair X) x y =>
    Diamond.narrow x y)) hw1.octagons hw2.octagons).2 pair
  simp only
  rw [hplain]
  exact isSome_of_merged hm (fun _ _ _ => rfl) (fun _ _ _ => rfl) (fun _ _ _ _ => ⟨rfl,fun _ => rfl⟩) hb

end Merge

theorem relateAux_filled {t : Tree X (VariableSet X)} (hc : t.Canonical) (hf : ∀ a r, t.find a = some r → r ≠ ∅)
    (x y : X) : ∀ a r, (Relations.relateAux x y t).find a = some r → r ≠ ∅ := by
  intro a r h
  rw [Relations.relateAux,(Tree.add_spec x _ hc).2] at h
  split at h
  · cases h
    exact Finset.insert_ne_empty _ _
  · exact hf a r h

theorem Exact.add {s : State X I Z} (hs : s.Exact Set.univ) (hw : s.Wf) (pair : Pair X) (d : Diamond I) :
    ({ s with octagons := s.octagons.add pair d, relations := Relations.relate pair s.relations } :
      State X I Z).Exact Set.univ where
  bound a _ b h := by
    have hfind := (Tree.add_spec pair d hw.octagons).2
    rw [(Relations.relate_spec hw.relations pair).2] at h
    rcases h with h | h | h
    · obtain ⟨p,hj,hb⟩ := hs.bound a trivial b h
      refine ⟨p,hj,?_⟩
      simp only [hfind]
      split
      · rfl
      · exact hb
    · exact ⟨pair,.inl ⟨h.1.symm,h.2.symm⟩,by simp [hfind]⟩
    · exact ⟨pair,.inr ⟨h.2.symm,h.1.symm⟩,by simp [hfind]⟩
  filled :=
    relateAux_filled (Relations.relateAux_spec hw.relations _ _).1 (relateAux_filled hw.relations hs.filled _ _) _ _

def Keeps (o : Option (State X I Z)) : Prop := ∀ s, o = some s → s.Wf ∧ s.Exact Set.univ

theorem keeps_some {s : State X I Z} (hw : s.Wf) (hs : s.Exact Set.univ) : Keeps (some s) := by
  intro s' h
  cases h
  exact ⟨hw,hs⟩

theorem keeps_none : Keeps (none : Option (State X I Z)) := nofun

theorem addDiamond_keeps {s : State X I Z} (hw : s.Wf) (hs : s.Exact Set.univ) (pair : Pair X) (d : Diamond I) :
    Keeps (addDiamond s pair d) := by
  intro s' h
  refine ⟨(addDiamond_spec hw pair d).1 s' h,?_⟩
  unfold addDiamond at h
  split at h
  · cases h
    exact hs
  · obtain ⟨octagons,ho,rfl⟩ := Option.map_eq_some_iff.mp h
    unfold OctagonMap.add at ho
    split at ho
    · obtain ⟨r,_,rfl⟩ := Option.map_eq_some_iff.mp ho
      exact hs.add hw pair r
    · cases ho
      exact hs.add hw pair _

theorem saturateStep_keeps {o : Option (State X I Z)} (ho : Keeps o) (y : X) (rel : Relation X I) (z : X) :
    Sat Keeps (fun _ => True) (saturateStep y rel o z) := by
  cases o with
  | none => exact ho
  | some s =>
    obtain ⟨hw,hs⟩ := ho s rfl
    unfold saturateStep
    refine Sat.bind (P := fun _ => True) (by cases Pair.make y z <;> trivial) fun p _ => ?_
    dsimp only
    cases s.octagons.find p.1 with
    | none => exact ho
    | some d =>
      refine Sat.bind (P := fun _ => True) ?_ fun q _ => addDiamond_keeps hw hs q.1 q.2
      cases transitiveRelation y rel ⟨(p.1.fst,p.1.snd),d⟩ <;> trivial

theorem saturate_keeps {s : State X I Z} (hw : s.Wf) (hs : s.Exact Set.univ) (x y : X) (rel : Relation X I) :
    Sat Keeps (fun _ => True) (saturate s x y rel) := by
  unfold saturate
  cases s.relations.find y with
  | none => exact keeps_some hw hs
  | some related => exact Sat.foldlM (keeps_some hw hs) fun o z _ ho => saturateStep_keeps ho y rel z

theorem addOctagon_keeps {s : State X I Z} (hw : s.Wf) (hs : s.Exact Set.univ) (o : Octagon X I) :
    Sat Keeps (fun _ => True) (addOctagon sourceSettings s o) := by
  unfold addOctagon
  split
  · exact keeps_some hw hs
  · refine Sat.bind (P := Keeps) ?_ fun r hr => ?_
    · unfold saturateOctagon
      rw [sourceSettings,if_pos rfl]
      refine Sat.bind (saturate_keeps hw hs _ _ _) fun r hr => ?_
      cases r with
      | none => exact keeps_none
      | some s1 => exact saturate_keeps (hr s1 rfl).1 (hr s1 rfl).2 _ _ _
    · cases r with
      | none => exact keeps_none
      | some s1 =>
        obtain ⟨hw1,hs1⟩ := hr s1 rfl
        intro s' h
        obtain ⟨octagons,ho,rfl⟩ := Option.map_eq_some_iff.mp h
        obtain ⟨d,rfl⟩ := (octagonMap_addOctagon_spec o).1 octagons ho
        exact ⟨wf_add hw1 o.vars d,hs1.add hw1 o.vars d⟩

theorem removeOne_exact {s : State X I Z} (hw : s.Wf) {x : X} (hs : s.Exact {a | a ≠ x}) (y : X) (hxy : x ≠ y) :
    Sat (fun s' => s'.Wf ∧ s'.Exact {a | a ≠ x}) (fun _ => True) (removeOne x s y) := by
  obtain ⟨s1,h1,hw1,_⟩ := removeOne_spec hw hxy
  rw [h1]
  refine ⟨hw1,?_⟩
  unfold removeOne at h1
  cases hf : s.relations.find y with
  | none =>
    rw [hf] at h1
    cases h1
    exact hs
  | some r =>
    obtain ⟨pair0,swap,hmake,hswap⟩ := Pair.make_ok hxy
    have hj0 : pair0.Joins x y := hswap.imp And.right And.right
    simp only [hf,hmake,Res.ok_bind] at h1
    cases h1
    refine ⟨fun a ha b h => ?_,fun a q hq => ?_⟩
    · rw [(Relations.add_spec hw.relations y (r.erase x)).2] at h
      -- the pair of `a` and `b` is not the one that is removed
      have hkeep : Related s.relations a b → ¬ (a = y ∧ b = x) → ∃ pair : Pair X, pair.Joins a b ∧
          ((s.octagons.remove pair0).find pair).isSome := by
        intro h hne
        obtain ⟨pair,hj,hb⟩ := hs.bound a ha b h
        refine ⟨pair,hj,?_⟩
        rw [(Tree.remove_spec pair0 hw.octagons).2,if_neg]
        · exact hb
        · rintro rfl
          rcases hj with ⟨h3,h4⟩ | ⟨h3,h4⟩ <;> rcases hj0 with ⟨h5,h6⟩ | ⟨h5,h6⟩
          · exact ha (h3.symm.trans h5)
          · exact hne ⟨h3.symm.trans h5,h4.symm.trans h6⟩
          · exact hne ⟨h4.symm.trans h6,h3.symm.trans h5⟩
          · exact ha (h4.symm.trans h6)
      split at h
      · next hay =>
        subst hay
        exact hkeep ⟨r,hf,(Finset.mem_erase.mp h).2⟩ fun hne => (Finset.mem_erase.mp h).1 hne.2
      · next hay => exact hkeep h fun hne => hay hne.1
    · simp only [Relations.add] at hq
      split at hq
      · rw [(Tree.remove_spec y hw.relations).2] at hq
        split at hq
        · cases hq
        · exact hs.filled a q hq
      · next hne =>
        rw [(Tree.add_spec y _ hw.relations).2] at hq
        split at hq
        · cases hq
          exact hne
        · exact hs.filled a q hq

theorem remove_exact {s s' : State X I Z} (hw : s.Wf) (hs : s.Exact Set.univ) {x : X} (h : remove s x = .ok s') :
    s'.Exact Set.univ := by
  have hw0 := wf_intervals hw (Tree.remove_spec x hw.intervals).1
  unfold remove at h
  cases hf : s.relations.find x with
  | none =>
    simp only [hf] at h
    cases h
    exact ⟨hs.bound,hs.filled⟩
  | some related =>
    simp only [hf] at h
    have hloop : Sat (fun s' => s'.Wf ∧ s'.Exact {a | a ≠ x}) (fun _ => True)
        ((VariableSet.elements related).foldlM (removeOne x) { s with intervals := s.intervals.remove x }) := by
      refine Sat.foldlM ⟨hw0,fun a _ => hs.bound a trivial,hs.filled⟩ fun s1 y hy hs1 => ?_
      refine removeOne_exact hs1.1 hs1.2 y ?_
      rintro rfl
      exact hw.irrefl x ⟨related,hf,(Finset.mem_sort _).mp hy⟩
    cases hrun : (VariableSet.elements related).foldlM (removeOne x) { s with intervals := s.intervals.remove x } with
    | error e =>
      rw [hrun] at h
      cases h
    | ok s1 =>
      rw [hrun] at h hloop
      cases h
      obtain ⟨hw1,hs1⟩ := hloop
      have hfind := (Tree.remove_spec x hw1.relations).2
      refine ⟨fun a _ b hab => ?_,fun a r hr => ?_⟩
      · obtain ⟨r,hr,hb⟩ := hab
        simp only [hfind] at hr
        split at hr
        · cases hr
        · next hne => exact hs1.bound a hne b ⟨r,hr,hb⟩
      · simp only [hfind] at hr
        split at hr
        · cases hr
        · exact hs1.filled a r hr

theorem shiftOne_exact {s : State X I Z} (hw : s.Wf) (hs : s.Exact Set.univ) (inverse : Bool) (x : X) (delta : I)
    {y : X} (hxy : x ≠ y) :
    Sat (fun s' => s'.Wf ∧ s'.Exact Set.univ) (fun _ => True) (shiftOne inverse x delta s y) := by
  obtain ⟨s1,h1,hw1,_,hr1,hout,hin⟩ := shiftOne_spec inverse delta hw hxy
  rw [h1]
  refine ⟨hw1,fun a _ b h => ?_,hr1 ▸ hs.filled⟩
  rw [hr1] at h
  obtain ⟨pair,hj,hb⟩ := hs.bound a trivial b h
  refine ⟨pair,hj,?_⟩
  by_cases hp : pair.Joins x y
  · rw [hin pair hp,Option.isSome_map]
    exact hb
  · rw [hout pair hp]
    exact hb

theorem subDelta_exact {s s' : State X I Z} (hw : s.Wf) (hs : s.Exact Set.univ) {inverse : Bool} {x : X} {delta : I}
    (h : subDelta inverse s x delta = .ok s') : s'.Exact Set.univ := by
  have hw0 := wf_intervals hw (Tree.remove_spec x hw.intervals).1
  unfold subDelta at h
  cases hf : s.relations.find x with
  | none =>
    simp only [hf] at h
    cases h
  | some related =>
    simp only [hf] at h
    have hloop : Sat (fun s' => s'.Wf ∧ s'.Exact Set.univ) (fun _ => True) ((VariableSet.elements related).foldlM
        (shiftOne inverse x delta) { s with intervals := s.intervals.remove x }) := by
      refine Sat.foldlM ⟨hw0,hs.bound,hs.filled⟩ fun s1 y hy hs1 => ?_
      refine shiftOne_exact hs1.1 hs1.2 inverse x delta ?_
      rintro rfl
      exact hw.irrefl x ⟨related,hf,(Finset.mem_sort _).mp hy⟩
    rw [h] at hloop
    exact hloop.2

end State

/-- The states reached by runs whose joins and widenings drop no octagon. -/
inductive Precise : State X I Z → Prop
  | empty : Precise State.empty
  | join {s1 s2 : State X I Z} (h1 : Precise s1) (h2 : Precise s2)
      (hk : State.KeepsOctagons Diamond.join Diamond.join s1 s2) : Precise (State.join sourceSettings s1 s2)
  | widen {s1 s2 : State X I Z} (h1 : Precise s1) (h2 : Precise s2)
      (hk : State.KeepsOctagons Diamond.widen (fun d e => Diamond.widen e d) s1 s2) :
      Precise (State.widen sourceSettings s1 s2)
  | narrow {s1 s2 s : State X I Z} (h1 : Precise s1) (h2 : Precise s2) (h : State.narrow s1 s2 = some s) : Precise s
  | addOctagon {s s' : State X I Z} (o : Octagon X I) (hs : Precise s)
      (h : State.addOctagon sourceSettings s o = .ok (some s')) : Precise s'
  | remove {s s' : State X I Z} (x : X) (hs : Precise s) (h : State.remove s x = .ok s') : Precise s'
  | subDelta {s s' : State X I Z} (inverse : Bool) (x : X) (delta : I) (hs : Precise s)
      (h : State.subDelta inverse s x delta = .ok s') : Precise s'

theorem Precise.reachable {s : State X I Z} (h : Precise s) : Reachable sourceSettings s := by
  induction h with
  | empty => exact .empty
  | join _ _ _ ih1 ih2 => exact .join ih1 ih2
  | widen _ _ _ ih1 ih2 => exact .widen ih1 ih2
  | narrow _ _ h ih1 ih2 => exact .narrow ih1 ih2 h
  | addOctagon o _ h ih => exact .addOctagon o ih h
  | remove x _ h ih => exact .remove x ih h
  | subDelta inverse x delta _ h ih => exact .subDelta inverse x delta ih h

theorem Precise.exact {s : State X I Z} (h : Precise s) : s.Exact Set.univ := by
  induction h with
  | empty => exact State.empty_exact
  | join h1 h2 hk ih1 ih2 => exact State.join_exact h1.reachable.wf h2.reachable.wf ih1 ih2 hk
  | widen h1 h2 hk ih1 ih2 => exact State.widen_exact h1.reachable.wf h2.reachable.wf ih1 ih2 hk
  | narrow h1 h2 h ih1 ih2 => exact State.narrow_exact h1.reachable.wf h2.reachable.wf ih1 ih2 h
  | addOctagon o hs h ih =>
    have hkeep := State.addOctagon_keeps hs.reachable.wf ih o
    rw [h] at hkeep
    exact (hkeep _ rfl).2
  | remove x hs h ih => exact State.remove_exact hs.reachable.wf ih h
  | subDelta inverse x delta hs h ih => exact State.subDelta_exact hs.reachable.wf ih h

/-- Equal states of runs that drop no octagon have the same hash. -/
theorem hashed_eq_of_equal {X I Z : Type} [DecidableEq X] [Variable X] [Key (Pair X)] [DecidableEq I] [IvalOps I]
    [ZoneOps Z] {s1 s2 : State X I Z} (h1 : Precise s1) (h2 : Precise s2) (h : s1.Equal s2) :
    s1.hashed = s2.hashed := by
  have hrel := h1.exact.relations_eq h2.exact h1.reachable.wf h2.reachable.wf h.1
  simp only [State.hashed,Prod.mk.injEq]
  exact ⟨h.1,hrel,h.2.2⟩

def sumState : State (Fin 3) Bounds Unit :=
  ⟨.leaf sumOctagon.vars ⟨⟨some 3,some 5⟩,⟨none,none⟩⟩,.empty,Relations.relate sumOctagon.vars .empty,()⟩

theorem addOctagon_sumState : State.addOctagon sourceSettings State.empty sumOctagon = .ok (some sumState) := rfl

theorem hashed_eq_of_equal_narrowed : ∃ s : State (Fin 3) Bounds Unit, State.narrow sumState State.empty = some s ∧
    s.Equal sumState ∧ s.hashed = sumState.hashed := by
  have hadd : Precise sumState := .addOctagon sumOctagon .empty addOctagon_sumState
  have hnarrow : State.narrow sumState State.empty = some sumState := rfl
  exact ⟨sumState,hnarrow,⟨rfl,rfl,rfl⟩,hashed_eq_of_equal (.narrow hadd .empty hnarrow) hadd ⟨rfl,rfl,rfl⟩⟩

theorem hashed_ne_of_equal : ∃ s1 s2 : State (Fin 3) Bounds Unit, Reachable sourceSettings s1 ∧
    Reachable sourceSettings s2 ∧ s1.Equal s2 ∧ s1.hashed ≠ s2.hashed := by
  refine ⟨State.join sourceSettings sumState State.empty,State.empty,
    .join (.addOctagon sumOctagon .empty addOctagon_sumState) .empty,.empty,⟨rfl,rfl,rfl⟩,fun h => ?_⟩
  have hrel : (State.join sourceSettings sumState State.empty).relations = .empty := congrArg (fun p => p.2.1) h
  cases hrel

end FramaC.Octagons
