import FramaC.Octagons.Soundness

/-! # The operations on octagon states

What each operation does to the satisfying environments, and the states that the operations
reach.
-/
set_option linter.unusedSectionVars false
namespace FramaC.Octagons
open Hptmap Outcome
variable {X I Z : Type} [DecidableEq X] [Variable X] [Key (Pair X)] [DecidableEq I] [IvalOps I] [ZoneOps Z]

namespace State

section Lattice
variable {t1 t2 : State X I Z} (h1 : t1.Wf) (h2 : t2.Wf) (c : Settings)
include h1 h2

theorem join_spec : (join c t1 t2).Wf ∧ ∀ γ : I → Set ℤ, IvalOps.Sound γ → ∀ env,
    t1.Satisfies γ env ∨ t2.Satisfies γ env → (join c t1 t2).Satisfies γ env := by
  obtain ⟨hic,hi⟩ := intervals_upper h1 h2 true (IvalOps.join (I := I))
  have hdecide : ∀ (t : State X I Z) (pair : Pair X) (d r : Diamond I), ((do
        let e ← intervalDiamond t.intervals pair
        Diamond.trim pair (Diamond.join d e)) : Option (Diamond I)) = some r →
      ∃ e, intervalDiamond t.intervals pair = some e ∧
        (Diamond.trim pair (Diamond.join d e) = some r ∨ Diamond.trim pair (Diamond.join e d) = some r) := by
    intro t pair d r h
    obtain ⟨e,he,hr⟩ := Option.bind_eq_some_iff.mp h
    exact ⟨e,he,Or.inl hr⟩
  cases hc : c.inferIntervals with
  | false =>
    obtain ⟨hoc,hk,ho⟩ := simple_upper h1 h2 Diamond.join true
    have heq : join c t1 t2 = ⟨OctagonMap.simpleJoin t1.octagons t2.octagons,
        Intervals.join t1.intervals t2.intervals,joinRelations c t1 t2,ZoneOps.join t1.modified t2.modified⟩ := by
      simp [join,hc]
    rw [heq]
    refine ⟨wf_of_joinRelations c h1 h2 hoc hic fun pair d hd => ?_,fun γ hγ env henv => ⟨?_,?_⟩⟩
    · rw [hc]
      exact hk pair d hd
    · exact ho γ hγ (fun d e u v h => Diamond.holds_join hγ h) env henv
    · exact hi γ hγ.join env henv
  | true =>
    obtain ⟨hoc,hk,ho⟩ := upper h1 h2 Diamond.join (hdecide t2) (hdecide t1)
    have heq : join c t1 t2 = ⟨OctagonMap.join (fun pair d => (do
          let e ← intervalDiamond t2.intervals pair
          Diamond.trim pair (Diamond.join d e))) (fun pair d => (do
          let e ← intervalDiamond t1.intervals pair
          Diamond.trim pair (Diamond.join d e))) t1.octagons t2.octagons,
        Intervals.join t1.intervals t2.intervals,joinRelations c t1 t2,ZoneOps.join t1.modified t2.modified⟩ := by
      simp [join,hc]
    rw [heq]
    refine ⟨wf_of_joinRelations c h1 h2 hoc hic fun pair d hd => ?_,fun γ hγ env henv => ⟨?_,?_⟩⟩
    · rw [hc]
      exact hk pair d hd
    · exact ho γ hγ (fun d e u v h => Diamond.holds_join hγ h) env henv
    · exact hi γ hγ.join env henv

theorem widen_spec : (widen c t1 t2).Wf ∧ ∀ γ : I → Set ℤ, IvalOps.Sound γ → ∀ env,
    t1.Satisfies γ env ∨ t2.Satisfies γ env → (widen c t1 t2).Satisfies γ env := by
  obtain ⟨hic,hi⟩ := intervals_upper h1 h2 false (IvalOps.widen (I := I))
  have hdecide : ∀ (b : Bool) (t : State X I Z) (pair : Pair X) (d r : Diamond I), ((do
        let e ← intervalDiamond t.intervals pair
        Diamond.trim pair (if b then Diamond.widen e d else Diamond.widen d e)) : Option (Diamond I)) = some r →
      ∃ e, intervalDiamond t.intervals pair = some e ∧
        (Diamond.trim pair (Diamond.widen d e) = some r ∨ Diamond.trim pair (Diamond.widen e d) = some r) := by
    intro b t pair d r h
    obtain ⟨e,he,hr⟩ := Option.bind_eq_some_iff.mp h
    cases b with
    | false => exact ⟨e,he,Or.inl hr⟩
    | true => exact ⟨e,he,Or.inr hr⟩
  cases hc : c.inferIntervals with
  | false =>
    obtain ⟨hoc,hk,ho⟩ := simple_upper h1 h2 Diamond.widen false
    have heq : widen c t1 t2 = ⟨OctagonMap.simpleWiden t1.octagons t2.octagons,
        Intervals.widen t1.intervals t2.intervals,joinRelations c t1 t2,ZoneOps.join t1.modified t2.modified⟩ := by
      simp [widen,hc]
    rw [heq]
    refine ⟨wf_of_joinRelations c h1 h2 hoc hic fun pair d hd => ?_,fun γ hγ env henv => ⟨?_,?_⟩⟩
    · rw [hc]
      exact hk pair d hd
    · exact ho γ hγ (fun d e u v h => Diamond.holds_widen hγ h) env henv
    · exact hi γ hγ.widen env henv
  | true =>
    obtain ⟨hoc,hk,ho⟩ := upper h1 h2 Diamond.widen (hdecide false t2) (hdecide true t1)
    have heq : widen c t1 t2 = ⟨OctagonMap.widen (fun pair d => (do
          let e ← intervalDiamond t2.intervals pair
          Diamond.trim pair (if false then Diamond.widen e d else Diamond.widen d e))) (fun pair d => (do
          let e ← intervalDiamond t1.intervals pair
          Diamond.trim pair (if true then Diamond.widen e d else Diamond.widen d e))) t1.octagons t2.octagons,
        Intervals.widen t1.intervals t2.intervals,joinRelations c t1 t2,ZoneOps.join t1.modified t2.modified⟩ := by
      simp [widen,hc]
    rw [heq]
    refine ⟨wf_of_joinRelations c h1 h2 hoc hic fun pair d hd => ?_,fun γ hγ env henv => ⟨?_,?_⟩⟩
    · rw [hc]
      exact hk pair d hd
    · exact ho γ hγ (fun d e u v h => Diamond.holds_widen hγ h) env henv
    · exact hi γ hγ.widen env henv

end Lattice

theorem narrowMap_spec {K V : Type} [DecidableEq K] [DecidableEq V] [Key K] (decide : V → V → Option V)
    {s t : Tree K V} (hs : s.Canonical) (ht : t.Canonical) :
    (∀ r, (Merger.ofJoin (M := Option) true true fun _ x y => decide x y).merge noCache s t = some r →
      r.Canonical ∧ ∀ k, (r.find k).isSome → (s.find k).isSome ∨ (t.find k).isSome) ∧
    ∀ P : K → V → Prop, (∀ k v w, P k v → P k w → ∃ r, decide v w = some r ∧ P k r) →
      (∀ k v, s.find k = some v → P k v) → (∀ k v, t.find k = some v → P k v) →
      ∃ r, (Merger.ofJoin (M := Option) true true fun _ x y => decide x y).merge noCache s t = some r ∧
        ∀ k v, r.find k = some v → P k v := by
  obtain ⟨hc,hm⟩ := Merger.plain_spec
    (Merger.ofJoin_decides true true (Merger.value fun (_ : K) x y => decide x y)) hs ht
  constructor
  · intro r hr
    rw [Merger.ofJoin_only (fun _ x y => decide x y) true true s t r hr]
    refine ⟨hc,fun k hk => ?_⟩
    obtain ⟨d,hd⟩ := Option.isSome_iff_exists.mp hk
    have h := hm k
    rw [hd] at h
    rcases Merger.Merged.inv h with ⟨v,hv,_,_⟩ | ⟨w,_,hw,_⟩ | ⟨v,w,hv,_,_⟩
    · exact Or.inl (by rw [hv]; rfl)
    · exact Or.inr (by rw [hw]; rfl)
    · exact Or.inl (by rw [hv]; rfl)
  · intro P hP hPs hPt
    have hdec : ∀ k v w, s.find k = some v → t.find k = some w →
        Decided (fun _ x y => decide x y) (Merger.value fun (_ : K) x y => decide x y) k v w := by
      intro k v w hv hw
      obtain ⟨r1,h1,_⟩ := hP k v w (hPs k v hv) (hPt k w hw)
      obtain ⟨r2,h2,_⟩ := hP k w v (hPt k w hw) (hPs k v hv)
      exact ⟨by simp [Merger.value,h1],by simp [Merger.value,h2]⟩
    refine ⟨_,Merger.ofJoin_some hs ht hdec,fun k d hd => ?_⟩
    have hval : ∀ v w, P k v → P k w → P k (Merger.value (fun (_ : K) x y => decide x y) k v w) := by
      intro v w hv hw
      obtain ⟨r,hr,hp⟩ := hP k v w hv hw
      simpa [Merger.value,hr] using hp
    have h := hm k
    rw [hd] at h
    rcases Merger.Merged.inv h with ⟨v,hv,_,hl⟩ | ⟨w,_,hw,hr⟩ | ⟨v,w,hv,hw,hb⟩
    · rw [← Option.some.inj hl]
      exact hPs k v hv
    · rw [← Option.some.inj hr]
      exact hPt k w hw
    · rcases hb with hb | ⟨_,hb⟩ | ⟨_,rfl,rfl⟩
      · rw [← Option.some.inj hb]
        exact hval v w (hPs k v hv) (hPt k w hw)
      · rw [← Option.some.inj hb]
        exact hval w v (hPt k w hw) (hPs k v hv)
      · exact hPs k _ hv

theorem narrow_spec {t1 t2 : State X I Z} (h1 : t1.Wf) (h2 : t2.Wf) :
    (∀ r, narrow t1 t2 = some r → r.Wf) ∧ ∀ γ : I → Set ℤ, IvalOps.Sound γ → ∀ env, t1.Satisfies γ env →
      t2.Satisfies γ env → ∃ r, narrow t1 t2 = some r ∧ r.Satisfies γ env := by
  obtain ⟨ho,hos⟩ := narrowMap_spec Diamond.narrow h1.octagons h2.octagons
  obtain ⟨hi,his⟩ := narrowMap_spec Arith.narrow h1.intervals h2.intervals
  constructor
  · intro r hr
    obtain ⟨octagons,heo,hr⟩ := Option.bind_eq_some_iff.mp hr
    obtain ⟨intervals,hei,hr⟩ := Option.bind_eq_some_iff.mp hr
    obtain rfl := Option.some.inj hr
    refine wf_of_joinRelations ⟨true,true⟩ h1 h2 (ho octagons heo).1 (hi intervals hei).1 fun pair d hd => ?_
    exact (ho octagons heo).2 pair (by rw [hd]; rfl)
  · intro γ hγ env he1 he2
    obtain ⟨octagons,heo,hso⟩ := hos (fun pair d => d.Holds γ (env pair.fst) (env pair.snd))
      (fun _ _ _ hv hw => Diamond.narrow_some hγ hv hw) he1.1 he2.1
    obtain ⟨intervals,hei,hsi⟩ := his (fun x i => env x ∈ γ i) (fun _ _ _ hv hw => arithNarrow_some hγ hv hw) he1.2 he2.2
    refine ⟨⟨octagons,intervals,Relations.union t1.relations t2.relations,ZoneOps.narrow t1.modified t2.modified⟩,?_,
      hso,hsi⟩
    unfold narrow
    rw [show OctagonMap.narrow t1.octagons t2.octagons = some octagons from heo,
      show Intervals.narrow t1.intervals t2.intervals = some intervals from hei]
    rfl

def Relation.Holds (γ : I → Set ℤ) (env : X → ℤ) (r : Relation X I) : Prop :=
  r.diamond.Holds γ (env r.vars.1) (env r.vars.2)

theorem inverse_holds {γ : I → Set ℤ} (hγ : IvalOps.Sound γ) {env : X → ℤ} {r : Relation X I} (h : r.Holds γ env) :
    (inverse r).Holds γ env :=
  Diamond.holds_reverse hγ h

theorem wf_add {s : State X I Z} (hs : s.Wf) (pair : Pair X) (d : Diamond I) :
    ({ s with octagons := s.octagons.add pair d, relations := Relations.relate pair s.relations } : State X I Z).Wf := by
  obtain ⟨hoc,hof⟩ := Tree.add_spec pair d hs.octagons
  obtain ⟨hrc,hrr⟩ := Relations.relate_spec hs.relations pair
  refine ⟨hoc,hs.intervals,hrc,fun p e he => ?_,fun x hx => ?_⟩
  · simp only at he
    rw [hof] at he
    simp only [hrr]
    split at he
    · next hp =>
      subst hp
      exact ⟨Or.inr (Or.inl ⟨rfl,rfl⟩),Or.inr (Or.inr ⟨rfl,rfl⟩)⟩
    · obtain ⟨ha,hb⟩ := hs.related p e he
      exact ⟨Or.inl ha,Or.inl hb⟩
  · rw [hrr] at hx
    rcases hx with hx | ⟨hf,hs'⟩ | ⟨hf,hs'⟩
    · exact hs.irrefl x hx
    · exact pair.fst_ne_snd (hf.symm.trans hs')
    · exact pair.fst_ne_snd (hs'.symm.trans hf)

theorem satisfies_add {γ : I → Set ℤ} {env : X → ℤ} {s : State X I Z} (hs : s.Wf) (henv : s.Satisfies γ env)
    {pair : Pair X} {d : Diamond I} (hd : d.Holds γ (env pair.fst) (env pair.snd)) (r : Tree X (VariableSet X)) :
    ({ s with octagons := s.octagons.add pair d, relations := r } : State X I Z).Satisfies γ env := by
  obtain ⟨_,hof⟩ := Tree.add_spec pair d hs.octagons
  refine ⟨fun p e he => ?_,henv.2⟩
  simp only at he
  rw [hof] at he
  split at he
  · next hp =>
    subst hp
    cases he
    exact hd
  · exact henv.1 p e he

theorem addDiamond_spec {s : State X I Z} (hs : s.Wf) (pair : Pair X) (d : Diamond I) :
    (∀ s', addDiamond s pair d = some s' → s'.Wf) ∧ ∀ γ : I → Set ℤ, IvalOps.Sound γ → ∀ env, s.Satisfies γ env →
      d.Holds γ (env pair.fst) (env pair.snd) → ∃ s', addDiamond s pair d = some s' ∧ s'.Satisfies γ env := by
  unfold addDiamond
  cases ht : d.trim pair with
  | none =>
    refine ⟨fun s' h => ?_,fun γ _ env henv _ => ⟨s,rfl,henv⟩⟩
    cases h
    exact hs
  | some e =>
    unfold OctagonMap.add
    cases hf : s.octagons.find pair with
    | none =>
      refine ⟨fun s' h => ?_,fun γ hγ env henv hd => ?_⟩
      · cases h
        exact wf_add hs pair e
      · exact ⟨_,rfl,satisfies_add hs henv (Diamond.holds_trim hγ ht hd) _⟩
    | some d0 =>
      refine ⟨fun s' h => ?_,fun γ hγ env henv hd => ?_⟩
      · obtain ⟨octagons,ho,h⟩ := Option.map_eq_some_iff.mp h
        obtain ⟨r,_,ho⟩ := Option.map_eq_some_iff.mp ho
        subst h ho
        exact wf_add hs pair r
      · obtain ⟨r,hr,hrh⟩ := Diamond.narrow_some hγ (Diamond.holds_trim hγ ht hd) (henv.1 pair d0 hf)
        refine ⟨_,?_,satisfies_add hs henv hrh (Relations.relate pair s.relations)⟩
        simp only [hr,Option.map_some]

theorem transitiveRelation_spec {x y z : X} (hxy : x ≠ y) (hyz : y ≠ z) (hxz : x ≠ z) {rel1 rel2 : Relation X I}
    (h1 : rel1.vars = (x,y) ∨ rel1.vars = (y,x)) (h2 : rel2.vars = (y,z) ∨ rel2.vars = (z,y)) :
    ∃ pair d, transitiveRelation y rel1 rel2 = .ok (pair,d) ∧ ∀ γ : I → Set ℤ, IvalOps.Sound γ → ∀ env : X → ℤ,
      rel1.Holds γ env → rel2.Holds γ env → d.Holds γ (env pair.fst) (env pair.snd) := by
  have hn1 : (if y = rel1.vars.2 then rel1 else inverse rel1).vars = (x,y) := by
    rcases h1 with h | h
    · rw [h,if_pos rfl,h]
    · rw [h,if_neg (Ne.symm hxy),inverse,h]
  have hn2 : (if y = rel2.vars.1 then rel2 else inverse rel2).vars = (y,z) := by
    rcases h2 with h | h
    · rw [h,if_pos rfl,h]
    · rw [h,if_neg hyz,inverse,h]
  have hh1 : ∀ γ : I → Set ℤ, IvalOps.Sound γ → ∀ env : X → ℤ, rel1.Holds γ env →
      (if y = rel1.vars.2 then rel1 else inverse rel1).Holds γ env := by
    intro γ hγ env h
    split
    · exact h
    · exact inverse_holds hγ h
  have hh2 : ∀ γ : I → Set ℤ, IvalOps.Sound γ → ∀ env : X → ℤ, rel2.Holds γ env →
      (if y = rel2.vars.1 then rel2 else inverse rel2).Holds γ env := by
    intro γ hγ env h
    split
    · exact h
    · exact inverse_holds hγ h
  obtain ⟨pair,swap,hmake,hswap⟩ := Pair.make_ok hxz
  unfold transitiveRelation
  generalize (if y = rel1.vars.2 then rel1 else inverse rel1) = r1 at hn1 hh1 ⊢
  generalize (if y = rel2.vars.1 then rel2 else inverse rel2) = r2 at hn2 hh2 ⊢
  simp only [hn1,hn2,hmake,Res.ok_bind]
  refine ⟨pair,_,rfl,fun γ hγ env hr1 hr2 => ?_⟩
  have hr1 := hh1 γ hγ env hr1
  have hr2 := hh2 γ hγ env hr2
  unfold Relation.Holds at hr1 hr2
  rw [hn1] at hr1
  rw [hn2] at hr2
  obtain ⟨ha1,hs1⟩ := hr1
  obtain ⟨ha2,hs2⟩ := hr2
  simp only at ha1 hs1 ha2 hs2
  -- each interval is reached in two ways
  have hadd : env x + env z ∈ γ (IvalOps.narrow (IvalOps.subInt r1.diamond.add r2.diamond.sub)
      (IvalOps.addInt r1.diamond.sub r2.diamond.add)) := by
    apply hγ.narrow
    · have h := hγ.subInt _ _ _ _ ha1 hs2
      rwa [show env x + env y - (env y - env z) = env x + env z by ring] at h
    · have h := hγ.addInt _ _ _ _ hs1 ha2
      rwa [show env x - env y + (env y + env z) = env x + env z by ring] at h
  have hsub : env x - env z ∈ γ (IvalOps.narrow (IvalOps.subInt r1.diamond.add r2.diamond.add)
      (IvalOps.addInt r1.diamond.sub r2.diamond.sub)) := by
    apply hγ.narrow
    · have h := hγ.subInt _ _ _ _ ha1 ha2
      rwa [show env x + env y - (env y + env z) = env x - env z by ring] at h
    · have h := hγ.addInt _ _ _ _ hs1 hs2
      rwa [show env x - env y + (env y - env z) = env x - env z by ring] at h
  rcases hswap with ⟨rfl,hf,hs⟩ | ⟨rfl,hf,hs⟩
  · rw [hf,hs]
    exact ⟨hadd,hsub⟩
  · rw [hf,hs]
    exact Diamond.holds_reverse hγ ⟨hadd,hsub⟩

/-- What a saturation from `s` by a relation may return. -/
def Saturated (s : State X I Z) (rel : Relation X I) (o : Option (State X I Z)) : Prop :=
  (∀ s', o = some s' → s'.Wf) ∧ ∀ γ : I → Set ℤ, IvalOps.Sound γ → ∀ env, s.Satisfies γ env → rel.Holds γ env →
    ∃ s', o = some s' ∧ s'.Satisfies γ env

theorem saturateStep_sat {s : State X I Z} {x y z : X} (hxy : x ≠ y) (hyz : y ≠ z) (hxz : x ≠ z) {rel : Relation X I}
    (hrel : rel.vars = (x,y) ∨ rel.vars = (y,x)) {o : Option (State X I Z)} (ho : Saturated s rel o) :
    Sat (Saturated s rel) (fun _ => False) (saturateStep y rel o z) := by
  cases o with
  | none => exact ho
  | some s1 =>
    have hs1 := ho.1 s1 rfl
    obtain ⟨pair,swap,hmake,hswap⟩ := Pair.make_ok hyz
    simp only [saturateStep,hmake,Res.ok_bind]
    cases hf : s1.octagons.find pair with
    | none => exact ho
    | some d =>
      have hvars : (⟨(pair.fst,pair.snd),d⟩ : Relation X I).vars = (y,z) ∨
          (⟨(pair.fst,pair.snd),d⟩ : Relation X I).vars = (z,y) := by
        rcases hswap with ⟨_,h1,h2⟩ | ⟨_,h1,h2⟩
        · exact Or.inl (by rw [h1,h2])
        · exact Or.inr (by rw [h1,h2])
      obtain ⟨pair',d',htr,hholds⟩ :=
        transitiveRelation_spec hxy hyz hxz hrel hvars
      simp only [htr,Res.ok_bind]
      obtain ⟨hwf,hsat⟩ := addDiamond_spec hs1 pair' d'
      refine ⟨hwf,fun γ hγ env henv hr => ?_⟩
      obtain ⟨s2,hs2,henv'⟩ := ho.2 γ hγ env henv hr
      cases hs2
      exact hsat γ hγ env henv' (hholds γ hγ env hr (henv'.1 pair d hf))

theorem saturate_sat {s : State X I Z} (hs : s.Wf) {x y : X} (hxy : x ≠ y) {rel : Relation X I}
    (hrel : rel.vars = (x,y) ∨ rel.vars = (y,x)) : Sat (Saturated s rel) (fun _ => False) (saturate s x y rel) := by
  have hstart : Saturated s rel (some s) := by
    refine ⟨fun s' h => ?_,fun γ _ env henv _ => ⟨s,rfl,henv⟩⟩
    cases h
    exact hs
  unfold saturate
  cases hf : s.relations.find y with
  | none => exact hstart
  | some yRelated =>
    refine Sat.foldlM hstart fun o z hz ho => ?_
    have hmem : z ∈ yRelated.erase x := (Finset.mem_sort _).mp hz
    obtain ⟨hzx,hzy⟩ := Finset.mem_erase.mp hmem
    have hyz : y ≠ z := by
      rintro rfl
      exact hs.irrefl y ⟨yRelated,hf,hzy⟩
    exact saturateStep_sat hxy hyz (Ne.symm hzx) hrel ho

end State

def Octagon.Holds (γ : I → Set ℤ) (env : X → ℤ) (o : Octagon X I) : Prop :=
  match o.operation with
  | .add => env o.vars.fst + env o.vars.snd ∈ γ o.value
  | .sub => env o.vars.fst - env o.vars.snd ∈ γ o.value

namespace State

theorem octagonRelation_holds {γ : I → Set ℤ} (hγ : IvalOps.Sound γ) {env : X → ℤ} {o : Octagon X I}
    (h : o.Holds γ env) : (octagonRelation o).Holds γ env := by
  unfold Octagon.Holds at h
  unfold octagonRelation Relation.Holds
  cases ho : o.operation with
  | add =>
    rw [ho] at h
    exact ⟨h,hγ.top _⟩
  | sub =>
    rw [ho] at h
    exact ⟨hγ.top _,h⟩

theorem saturateOctagon_sat (c : Settings) {s : State X I Z} (hs : s.Wf) (o : Octagon X I) :
    Sat (Saturated s (octagonRelation o)) (fun _ => False) (saturateOctagon c s o) := by
  unfold saturateOctagon
  split
  · refine Sat.bind (saturate_sat hs (Ne.symm o.vars.fst_ne_snd) (Or.inr rfl)) fun o1 ho1 => ?_
    cases o1 with
    | none => exact ho1
    | some s1 =>
      refine (saturate_sat (ho1.1 s1 rfl) o.vars.fst_ne_snd (Or.inl rfl)).mono (fun o2 ho2 => ?_) fun _ h => h
      refine ⟨ho2.1,fun γ hγ env henv hr => ?_⟩
      obtain ⟨s2,h2,henv2⟩ := ho1.2 γ hγ env henv hr
      cases h2
      exact ho2.2 γ hγ env henv2 hr
  · refine ⟨fun s' h => ?_,fun γ _ env henv _ => ⟨s,rfl,henv⟩⟩
    cases h
    exact hs

theorem octagonMap_addOctagon_spec {s : State X I Z} (o : Octagon X I) :
    (∀ r, OctagonMap.addOctagon o s.octagons = some r → ∃ d, r = s.octagons.add o.vars d) ∧
      ∀ γ : I → Set ℤ, IvalOps.Sound γ → ∀ env, s.Satisfies γ env → o.Holds γ env →
        ∃ d, OctagonMap.addOctagon o s.octagons = some (s.octagons.add o.vars d) ∧
          d.Holds γ (env o.vars.fst) (env o.vars.snd) := by
  have hold : ∀ γ : I → Set ℤ, IvalOps.Sound γ → ∀ env, s.Satisfies γ env →
      ((s.octagons.find o.vars).getD Diamond.top).Holds γ (env o.vars.fst) (env o.vars.snd) := by
    intro γ hγ env henv
    cases hf : s.octagons.find o.vars with
    | none => exact Diamond.holds_top hγ
    | some d => exact henv.1 _ _ hf
  unfold OctagonMap.addOctagon
  cases ho : o.operation with
  | add =>
    refine ⟨fun r hr => ?_,fun γ hγ env henv h => ?_⟩
    · obtain ⟨d,_,rfl⟩ := Option.map_eq_some_iff.mp hr
      exact ⟨d,rfl⟩
    · unfold Octagon.Holds at h
      rw [ho] at h
      obtain ⟨a,ha,hua⟩ := arithNarrow_some hγ (hold γ hγ env henv).1 h
      exact ⟨⟨a,((s.octagons.find o.vars).getD Diamond.top).sub⟩,by simp only [ha,Option.map_some],hua,
        (hold γ hγ env henv).2⟩
  | sub =>
    refine ⟨fun r hr => ?_,fun γ hγ env henv h => ?_⟩
    · obtain ⟨d,_,rfl⟩ := Option.map_eq_some_iff.mp hr
      exact ⟨d,rfl⟩
    · unfold Octagon.Holds at h
      rw [ho] at h
      obtain ⟨a,ha,hua⟩ := arithNarrow_some hγ (hold γ hγ env henv).2 h
      exact ⟨⟨((s.octagons.find o.vars).getD Diamond.top).add,a⟩,by simp only [ha,Option.map_some],
        (hold γ hγ env henv).1,hua⟩

theorem addOctagon_spec (c : Settings) {s : State X I Z} (hs : s.Wf) (o : Octagon X I) :
    Sat (fun r => (∀ s', r = some s' → s'.Wf) ∧ ∀ γ : I → Set ℤ, IvalOps.Sound γ → ∀ env, s.Satisfies γ env →
      o.Holds γ env → ∃ s', r = some s' ∧ s'.Satisfies γ env) (fun _ => False) (addOctagon c s o) := by
  unfold addOctagon
  split
  · refine ⟨fun s' h => ?_,fun γ _ env henv _ => ⟨s,rfl,henv⟩⟩
    cases h
    exact hs
  · refine Sat.bind (saturateOctagon_sat c hs o) fun r hr => ?_
    cases r with
    | none =>
      refine ⟨hr.1,fun γ hγ env henv ho => ?_⟩
      obtain ⟨s',h,_⟩ := hr.2 γ hγ env henv (octagonRelation_holds hγ ho)
      cases h
    | some s1 =>
      have hs1 := hr.1 s1 rfl
      obtain ⟨hshape,hsat⟩ := octagonMap_addOctagon_spec (s := s1) o
      refine ⟨fun s' h => ?_,fun γ hγ env henv ho => ?_⟩
      · obtain ⟨octagons,hoc,rfl⟩ := Option.map_eq_some_iff.mp h
        obtain ⟨d,rfl⟩ := hshape octagons hoc
        exact wf_add hs1 o.vars d
      · obtain ⟨s2,h2,henv2⟩ := hr.2 γ hγ env henv (octagonRelation_holds hγ ho)
        cases h2
        obtain ⟨d,hd,hdh⟩ := hsat γ hγ env henv2 ho
        refine ⟨_,?_,satisfies_add hs1 henv2 hdh (Relations.relate o.vars s1.relations)⟩
        rw [hd]
        rfl

theorem wf_intervals {s : State X I Z} (hs : s.Wf) {i : Tree X I} (hi : i.Canonical) :
    ({ s with intervals := i } : State X I Z).Wf :=
  ⟨hs.octagons,hi,hs.relations,hs.related,hs.irrefl⟩

theorem removeOne_spec {s : State X I Z} (hs : s.Wf) {x y : X} (hxy : x ≠ y) :
    ∃ s', removeOne x s y = .ok s' ∧ s'.Wf ∧ s'.intervals = s.intervals ∧
      ∀ pair d, s'.octagons.find pair = some d → s.octagons.find pair = some d ∧ ¬ pair.Joins x y := by
  unfold removeOne
  cases hf : s.relations.find y with
  | none =>
    refine ⟨s,rfl,hs,rfl,fun pair d hd => ⟨hd,?_⟩⟩
    -- a bound pair would be recorded
    have hno : ¬ Related s.relations y x := by
      rintro ⟨r,hr,_⟩
      rw [hf] at hr
      cases hr
    rintro (⟨rfl,rfl⟩ | ⟨rfl,rfl⟩)
    · exact hno (hs.related pair d hd).2
    · exact hno (hs.related pair d hd).1
  | some yRelations =>
    obtain ⟨pair0,swap,hmake,hswap⟩ := Pair.make_ok hxy
    have hj0 : pair0.Joins x y := hswap.imp And.right And.right
    obtain ⟨hoc,hof⟩ := Tree.remove_spec pair0 hs.octagons
    obtain ⟨hrc,hrr⟩ := Relations.add_spec hs.relations y (yRelations.erase x)
    have hrel : ∀ a b, Related (Relations.add y (yRelations.erase x) s.relations) a b ↔
        Related s.relations a b ∧ ¬ (a = y ∧ b = x) := by
      intro a b
      rw [hrr]
      by_cases ha : a = y
      · subst ha
        rw [if_pos rfl,Finset.mem_erase]
        unfold Related
        rw [hf]
        simp [and_comm]
      · simp [ha]
    have hfind : ∀ pair d, (s.octagons.remove pair0).find pair = some d →
        s.octagons.find pair = some d ∧ ¬ pair.Joins x y := by
      intro pair d hd
      rw [hof] at hd
      split at hd
      · cases hd
      · next hne => exact ⟨hd,fun hj => hne (hj.unique hj0)⟩
    simp only [hmake,Res.ok_bind]
    refine ⟨_,rfl,⟨hoc,hs.intervals,hrc,fun pair d hd => ?_,fun a ha => ?_⟩,rfl,hfind⟩
    · obtain ⟨hd,hj⟩ := hfind pair d hd
      obtain ⟨h1,h2⟩ := hs.related pair d hd
      exact ⟨(hrel _ _).mpr ⟨h1,fun h => hj (Or.inr h)⟩,(hrel _ _).mpr ⟨h2,fun h => hj (Or.inl ⟨h.2,h.1⟩)⟩⟩
    · exact hs.irrefl a ((hrel a a).mp ha).1

theorem removeAll_spec {x : X} (l : List X) (hl : x ∉ l) {s : State X I Z} (hs : s.Wf) :
    ∃ s', l.foldlM (removeOne x) s = .ok s' ∧ s'.Wf ∧ s'.intervals = s.intervals ∧
      ∀ pair d, s'.octagons.find pair = some d → s.octagons.find pair = some d ∧ ∀ y ∈ l, ¬ pair.Joins x y := by
  induction l generalizing s with
  | nil => exact ⟨s,rfl,hs,rfl,fun pair d hd => ⟨hd,by simp⟩⟩
  | cons y l ih =>
    simp only [List.mem_cons,not_or] at hl
    obtain ⟨hxy,hl⟩ := hl
    obtain ⟨s1,h1,hw1,hi1,ho1⟩ := removeOne_spec hs hxy
    obtain ⟨s2,h2,hw2,hi2,ho2⟩ := ih hl hw1
    refine ⟨s2,by rw [List.foldlM_cons,h1,Res.ok_bind,h2],hw2,hi2.trans hi1,fun pair d hd => ?_⟩
    obtain ⟨hd1,hn1⟩ := ho2 pair d hd
    obtain ⟨hd0,hn0⟩ := ho1 pair d hd1
    refine ⟨hd0,fun z hz => ?_⟩
    rcases List.mem_cons.mp hz with rfl | hz
    · exact hn0
    · exact hn1 z hz

theorem remove_spec {s : State X I Z} (hs : s.Wf) (x : X) : ∃ s', remove s x = .ok s' ∧ s'.Wf ∧
    (∀ y i, s'.intervals.find y = some i → y ≠ x ∧ s.intervals.find y = some i) ∧
    ∀ pair d, s'.octagons.find pair = some d → s.octagons.find pair = some d ∧ pair.fst ≠ x ∧ pair.snd ≠ x := by
  obtain ⟨hic,hif⟩ := Tree.remove_spec x hs.intervals
  have hint : ∀ y i, (s.intervals.remove x).find y = some i → y ≠ x ∧ s.intervals.find y = some i := by
    intro y i h
    rw [hif] at h
    split at h
    · cases h
    · next hne => exact ⟨hne,h⟩
  have hs' := wf_intervals hs hic
  unfold remove
  cases hf : s.relations.find x with
  | none =>
    have hno : ∀ y, ¬ Related s.relations x y := by
      rintro y ⟨r,hr,_⟩
      rw [hf] at hr
      cases hr
    refine ⟨_,by simp only [hf]; rfl,hs',hint,fun pair d hd => ⟨hd,?_,?_⟩⟩
    · rintro rfl
      exact hno _ (hs.related pair d hd).1
    · rintro rfl
      exact hno _ (hs.related pair d hd).2
  | some related =>
    have hx : x ∉ VariableSet.elements related := by
      intro h
      exact hs.irrefl x ⟨related,hf,(Finset.mem_sort _).mp h⟩
    obtain ⟨s1,h1,hw1,hi1,ho1⟩ := removeAll_spec (VariableSet.elements related) hx hs'
    obtain ⟨hrc,hrf⟩ := Tree.remove_spec x hw1.relations
    have hrel : ∀ a b, Related (s1.relations.remove x) a b ↔ Related s1.relations a b ∧ a ≠ x := by
      intro a b
      unfold Related
      rw [hrf]
      by_cases ha : a = x
      · simp [ha]
      · simp [ha]
    have hout : ∀ pair d, s1.octagons.find pair = some d →
        s.octagons.find pair = some d ∧ pair.fst ≠ x ∧ pair.snd ≠ x := by
      intro pair d hd
      obtain ⟨hd0,hn⟩ := ho1 pair d hd
      obtain ⟨⟨r1,hr1,hm1⟩,⟨r2,hr2,hm2⟩⟩ := hs.related pair d hd0
      refine ⟨hd0,?_,?_⟩
      · rintro rfl
        rw [hf] at hr1
        cases hr1
        exact hn _ ((Finset.mem_sort _).mpr hm1) (Or.inl ⟨rfl,rfl⟩)
      · rintro rfl
        rw [hf] at hr2
        cases hr2
        exact hn _ ((Finset.mem_sort _).mpr hm2) (Or.inr ⟨rfl,rfl⟩)
    refine ⟨{ s1 with relations := s1.relations.remove x },?_,⟨hw1.octagons,hw1.intervals,hrc,?_,?_⟩,?_,hout⟩
    · simp only [hf,h1,Res.ok_bind]
      rfl
    · intro pair d hd
      obtain ⟨_,hf1,hs1⟩ := hout pair d hd
      obtain ⟨ha,hb⟩ := hw1.related pair d hd
      exact ⟨(hrel _ _).mpr ⟨ha,hf1⟩,(hrel _ _).mpr ⟨hb,hs1⟩⟩
    · intro a ha
      exact hw1.irrefl a ((hrel a a).mp ha).1
    · intro y i h
      simp only at h
      rw [hi1] at h
      exact hint y i h

theorem remove_satisfies {s : State X I Z} (hs : s.Wf) (x : X) {γ : I → Set ℤ} {env : X → ℤ}
    (henv : s.Satisfies γ env) (v : ℤ) :
    ∃ s', remove s x = .ok s' ∧ s'.Satisfies γ (Function.update env x v) := by
  obtain ⟨s',h,_,hi,ho⟩ := remove_spec hs x
  refine ⟨s',h,fun pair d hd => ?_,fun y i hy => ?_⟩
  · obtain ⟨hd0,hf,hsnd⟩ := ho pair d hd
    rw [Function.update_of_ne hf,Function.update_of_ne hsnd]
    exact henv.1 pair d hd0
  · obtain ⟨hne,hy0⟩ := hi y i hy
    rw [Function.update_of_ne hne]
    exact henv.2 y i hy0

/-- The new value of `x` in `x' = ±x - d`. -/
def shifted (inverse : Bool) (u d : ℤ) : ℤ := if inverse then -u - d else u - d

theorem shiftDiamond_holds {γ : I → Set ℤ} (hγ : IvalOps.Sound γ) (inverse swap : Bool) {delta : I} {d : Diamond I}
    {u v e : ℤ} (he : e ∈ γ delta) (h : if swap then d.Holds γ v u else d.Holds γ u v) :
    if swap then (shiftDiamond inverse swap delta d).Holds γ v (shifted inverse u e)
      else (shiftDiamond inverse swap delta d).Holds γ (shifted inverse u e) v := by
  have hadd : ∀ (f : I → I → I) (a : I) (w w' : ℤ), (∀ b, w ∈ γ b → w' ∈ γ (f b delta)) → w ∈ γ a →
      w' ∈ γ (if a = IvalOps.top then a else f a delta) := by
    intro f a w w' hf ha
    split
    · next ht =>
      rw [ht]
      exact hγ.top w'
    · exact hf a ha
  have hminus : ∀ w b, w ∈ γ b → w - e ∈ γ (IvalOps.subInt b delta) := fun w b hb => hγ.subInt _ _ _ _ hb he
  have hplus : ∀ w b, w ∈ γ b → w + e ∈ γ (IvalOps.addInt b delta) := fun w b hb => hγ.addInt _ _ _ _ hb he
  cases inverse with
  | false =>
    cases swap with
    | false =>
      obtain ⟨ha,hs⟩ := h
      refine ⟨?_,?_⟩
      · rw [show shifted false u e + v = u + v - e by simp only [shifted]; norm_num; ring]
        exact hadd _ _ _ _ (hminus _) ha
      · rw [show shifted false u e - v = u - v - e by simp only [shifted]; norm_num; ring]
        exact hadd _ _ _ _ (hminus _) hs
    | true =>
      obtain ⟨ha,hs⟩ := h
      refine ⟨?_,?_⟩
      · rw [show v + shifted false u e = v + u - e by simp only [shifted]; norm_num; ring]
        exact hadd _ _ _ _ (hminus _) ha
      · rw [show v - shifted false u e = v - u + e by simp only [shifted]; norm_num; ring]
        exact hadd _ _ _ _ (hplus _) hs
  | true =>
    cases swap with
    | false =>
      obtain ⟨ha,hs⟩ := h
      refine ⟨?_,?_⟩
      · rw [show shifted true u e + v = -(u - v) - e by simp only [shifted]; norm_num; ring]
        exact hadd _ _ _ _ (hminus _) (hγ.negInt _ _ hs)
      · rw [show shifted true u e - v = -(u + v) - e by simp only [shifted]; norm_num; ring]
        exact hadd _ _ _ _ (hminus _) (hγ.negInt _ _ ha)
    | true =>
      obtain ⟨ha,hs⟩ := h
      refine ⟨?_,?_⟩
      · rw [show v + shifted true u e = v - u - e by simp only [shifted]; norm_num; ring]
        exact hadd _ _ _ _ (hminus _) hs
      · rw [show v - shifted true u e = v + u + e by simp only [shifted]; norm_num; ring]
        exact hadd _ _ _ _ (hplus _) ha

theorem shiftOne_spec (inverse : Bool) (delta : I) {s : State X I Z} (hs : s.Wf) {x y : X} (hxy : x ≠ y) :
    ∃ s', shiftOne inverse x delta s y = .ok s' ∧ s'.Wf ∧ s'.intervals = s.intervals ∧ s'.relations = s.relations ∧
      (∀ pair, ¬ pair.Joins x y → s'.octagons.find pair = s.octagons.find pair) ∧
      ∀ pair, pair.Joins x y → s'.octagons.find pair =
        (s.octagons.find pair).map (shiftDiamond inverse (decide (pair.snd = x)) delta) := by
  obtain ⟨pair0,swap,hmake,hswap⟩ := Pair.make_ok hxy
  have hj0 : pair0.Joins x y := hswap.imp And.right And.right
  have hsw : swap = decide (pair0.snd = x) := by
    rcases hswap with ⟨rfl,_,h⟩ | ⟨rfl,_,h⟩
    · simp [h,Ne.symm hxy]
    · simp [h]
  simp only [shiftOne,hmake,Res.ok_bind]
  cases hf : s.octagons.find pair0 with
  | none =>
    refine ⟨s,rfl,hs,rfl,rfl,fun _ _ => rfl,fun pair hj => ?_⟩
    rw [hj.unique hj0,hf]
    rfl
  | some d =>
    obtain ⟨hoc,hof⟩ := Tree.add_spec pair0 (shiftDiamond inverse swap delta d) hs.octagons
    refine ⟨_,rfl,⟨hoc,hs.intervals,hs.relations,fun pair e he => ?_,hs.irrefl⟩,rfl,rfl,fun pair hj => ?_,
      fun pair hj => ?_⟩
    · simp only at he
      rw [hof] at he
      split at he
      · next hp =>
        rw [hp]
        exact hs.related pair0 d hf
      · exact hs.related pair e he
    · simp only
      rw [hof,if_neg]
      rintro rfl
      exact hj hj0
    · obtain rfl := hj.unique hj0
      simp only
      rw [hof,if_pos rfl,hf,hsw]
      rfl

theorem shiftAll_spec (inverse : Bool) (delta : I) {x : X} (l : List X) (hl : x ∉ l) (hnd : l.Nodup)
    {s : State X I Z} (hs : s.Wf) :
    ∃ s', l.foldlM (shiftOne inverse x delta) s = .ok s' ∧ s'.Wf ∧ s'.intervals = s.intervals ∧
      (∀ pair, (∀ y ∈ l, ¬ pair.Joins x y) → s'.octagons.find pair = s.octagons.find pair) ∧
      ∀ pair, ∀ y ∈ l, pair.Joins x y → s'.octagons.find pair =
        (s.octagons.find pair).map (shiftDiamond inverse (decide (pair.snd = x)) delta) := by
  induction l generalizing s with
  | nil => exact ⟨s,rfl,hs,rfl,fun _ _ => rfl,by simp⟩
  | cons z l ih =>
    simp only [List.mem_cons,not_or] at hl
    obtain ⟨hxz,hl⟩ := hl
    obtain ⟨hz,hnd⟩ := List.nodup_cons.mp hnd
    obtain ⟨s1,h1,hw1,hi1,_,ho1,hj1⟩ := shiftOne_spec inverse delta hs hxz
    obtain ⟨s2,h2,hw2,hi2,ho2,hj2⟩ := ih hl hnd hw1
    refine ⟨s2,by rw [List.foldlM_cons,h1,Res.ok_bind,h2],hw2,hi2.trans hi1,fun pair h => ?_,fun pair y hy hj => ?_⟩
    · rw [ho2 pair fun y hy => h y (List.mem_cons_of_mem _ hy),ho1 pair (h z List.mem_cons_self)]
    · -- a pair is shifted for one variable only
      have hother : ∀ y', pair.Joins x y' → y' = y := by
        intro y' hj'
        have hne := pair.fst_ne_snd
        rcases hj with ⟨ha,hb⟩ | ⟨ha,hb⟩ <;> rcases hj' with ⟨ha',hb'⟩ | ⟨ha',hb'⟩
        · exact hb'.symm.trans hb
        · exact absurd (ha.trans hb'.symm) hne
        · exact absurd (ha'.trans hb.symm) hne
        · exact ha'.symm.trans ha
      by_cases hyz : y = z
      · subst hyz
        rw [ho2 pair fun y' hy' hj' => hz (hother y' hj' ▸ hy'),hj1 pair hj]
      · have hyl : y ∈ l := (List.mem_cons.mp hy).resolve_left hyz
        rw [hj2 pair y hyl hj,ho1 pair fun hj' => hyz (hother z hj').symm]

theorem subDelta_spec (inverse : Bool) (delta : I) {s : State X I Z} (hs : s.Wf) {x : X}
    (hx : (s.relations.find x).isSome) : ∃ s', subDelta inverse s x delta = .ok s' ∧ s'.Wf ∧
      ∀ γ : I → Set ℤ, IvalOps.Sound γ → ∀ env, s.Satisfies γ env → ∀ e ∈ γ delta,
        s'.Satisfies γ (Function.update env x (shifted inverse (env x) e)) := by
  obtain ⟨related,hf⟩ := Option.isSome_iff_exists.mp hx
  obtain ⟨hic,hif⟩ := Tree.remove_spec x hs.intervals
  have hnot : x ∉ VariableSet.elements related := by
    intro h
    exact hs.irrefl x ⟨related,hf,(Finset.mem_sort _).mp h⟩
  obtain ⟨s',h,hw,hi,ho,hj⟩ := shiftAll_spec inverse delta (VariableSet.elements related) hnot
    (Finset.sort_nodup _ _) (wf_intervals hs hic)
  refine ⟨s',by simp only [subDelta,hf,h],hw,fun γ hγ env henv e he => ⟨fun pair d hd => ?_,fun y i hy => ?_⟩⟩
  · by_cases hfst : pair.fst = x
    · have hne : pair.snd ≠ x := fun h => pair.fst_ne_snd (hfst.trans h.symm)
      have hjoin : pair.Joins x pair.snd := Or.inl ⟨hfst,rfl⟩
      -- the pair was bound before, so its variables are recorded as related
      have hbound : ∃ d0, s.octagons.find pair = some d0 := by
        by_contra hno
        push Not at hno
        have hnone : s.octagons.find pair = none := Option.eq_none_iff_forall_ne_some.mpr hno
        by_cases hm : pair.snd ∈ VariableSet.elements related
        · rw [hj pair _ hm hjoin,hnone] at hd
          cases hd
        · rw [ho pair] at hd
          · exact hno d hd
          · intro y hy hjy
            rcases hjy with ⟨_,h2⟩ | ⟨_,h2⟩
            · exact hm (h2 ▸ hy)
            · exact hne h2
      obtain ⟨d0,hd0⟩ := hbound
      obtain ⟨⟨r,hr,hm⟩,_⟩ := hs.related pair d0 hd0
      rw [hfst,hf] at hr
      cases hr
      rw [hj pair pair.snd ((Finset.mem_sort _).mpr hm) hjoin,hd0] at hd
      obtain rfl := Option.some.inj hd
      have hold := henv.1 pair d0 hd0
      rw [hfst] at hold ⊢
      rw [Function.update_self,Function.update_of_ne hne,decide_eq_false hne]
      exact shiftDiamond_holds hγ inverse false he hold
    · by_cases hsnd : pair.snd = x
      · have hjoin : pair.Joins x pair.fst := Or.inr ⟨rfl,hsnd⟩
        have hbound : ∃ d0, s.octagons.find pair = some d0 := by
          by_contra hno
          push Not at hno
          have hnone : s.octagons.find pair = none := Option.eq_none_iff_forall_ne_some.mpr hno
          by_cases hm : pair.fst ∈ VariableSet.elements related
          · rw [hj pair _ hm hjoin,hnone] at hd
            cases hd
          · rw [ho pair] at hd
            · exact hno d hd
            · intro y hy hjy
              rcases hjy with ⟨h1,_⟩ | ⟨h1,_⟩
              · exact hfst h1
              · exact hm (h1 ▸ hy)
        obtain ⟨d0,hd0⟩ := hbound
        obtain ⟨_,⟨r,hr,hm⟩⟩ := hs.related pair d0 hd0
        rw [hsnd,hf] at hr
        cases hr
        rw [hj pair pair.fst ((Finset.mem_sort _).mpr hm) hjoin,hd0] at hd
        obtain rfl := Option.some.inj hd
        have hold := henv.1 pair d0 hd0
        rw [hsnd] at hold
        rw [hsnd,Function.update_self,Function.update_of_ne hfst,decide_eq_true rfl]
        exact shiftDiamond_holds hγ inverse true he hold
      · rw [ho pair] at hd
        · rw [Function.update_of_ne hfst,Function.update_of_ne hsnd]
          exact henv.1 pair d hd
        · intro y _ hjy
          rcases hjy with ⟨h1,_⟩ | ⟨_,h2⟩
          · exact hfst h1
          · exact hsnd h2
  · rw [hi] at hy
    simp only at hy
    rw [hif] at hy
    split at hy
    · cases hy
    · next hne =>
      rw [Function.update_of_ne hne]
      exact henv.2 y i hy

end State
end FramaC.Octagons
