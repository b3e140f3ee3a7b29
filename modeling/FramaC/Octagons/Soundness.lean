import FramaC.Octagons.Basic
import FramaC.Lib.Outcome

/-! # Soundness of octagon states

An environment satisfies a state when it satisfies each of its intervals. The operations keep the
environments they should, in every state where the related variables are recorded.
-/
set_option linter.unusedSectionVars false
namespace FramaC.Octagons
open Hptmap Outcome
variable {X I Z : Type} [DecidableEq X] [Variable X] [Key (Pair X)] [DecidableEq I] [IvalOps I] [ZoneOps Z]

/-- The operations on ivals over-approximate those on integers. -/
structure IvalOps.Sound (γ : I → Set ℤ) : Prop where
  top : ∀ u, u ∈ γ IvalOps.top
  isBottom : ∀ a, IvalOps.isBottom a = true → ∀ u, u ∉ γ a
  join : ∀ a b u, u ∈ γ a ∨ u ∈ γ b → u ∈ γ (IvalOps.join a b)
  widen : ∀ a b u, u ∈ γ a ∨ u ∈ γ b → u ∈ γ (IvalOps.widen a b)
  narrow : ∀ a b u, u ∈ γ a → u ∈ γ b → u ∈ γ (IvalOps.narrow a b)
  addInt : ∀ a b u v, u ∈ γ a → v ∈ γ b → u + v ∈ γ (IvalOps.addInt a b)
  subInt : ∀ a b u v, u ∈ γ a → v ∈ γ b → u - v ∈ γ (IvalOps.subInt a b)
  negInt : ∀ a u, u ∈ γ a → -u ∈ γ (IvalOps.negInt a)

def Diamond.Holds (γ : I → Set ℤ) (d : Diamond I) (u v : ℤ) : Prop := u + v ∈ γ d.add ∧ u - v ∈ γ d.sub

section Diamonds
variable {γ : I → Set ℤ} (hγ : IvalOps.Sound γ)
include hγ

theorem arithNarrow_some {a b : I} {u : ℤ} (ha : u ∈ γ a) (hb : u ∈ γ b) :
    ∃ r, Arith.narrow a b = some r ∧ u ∈ γ r := by
  have hr := hγ.narrow a b u ha hb
  refine ⟨_,if_neg fun hbot => hγ.isBottom _ hbot u hr,hr⟩

namespace Diamond
variable {d e : Diamond I} {u v : ℤ}

theorem holds_top : (Diamond.top : Diamond I).Holds γ u v := ⟨hγ.top _,hγ.top _⟩

theorem holds_join (h : d.Holds γ u v ∨ e.Holds γ u v) : (d.join e).Holds γ u v :=
  ⟨hγ.join _ _ _ (h.imp And.left And.left),hγ.join _ _ _ (h.imp And.right And.right)⟩

theorem holds_widen (h : d.Holds γ u v ∨ e.Holds γ u v) : (d.widen e).Holds γ u v :=
  ⟨hγ.widen _ _ _ (h.imp And.left And.left),hγ.widen _ _ _ (h.imp And.right And.right)⟩

theorem narrow_some (hd : d.Holds γ u v) (he : e.Holds γ u v) : ∃ r, d.narrow e = some r ∧ r.Holds γ u v := by
  obtain ⟨a,ha,hua⟩ := arithNarrow_some hγ hd.1 he.1
  obtain ⟨s,hs,hus⟩ := arithNarrow_some hγ hd.2 he.2
  exact ⟨⟨a,s⟩,by simp [Diamond.narrow,ha,hs],hua,hus⟩

theorem holds_reverse (h : d.Holds γ u v) : (d.reverseVariables true).Holds γ v u := by
  obtain ⟨hadd,hsub⟩ := h
  refine ⟨?_,?_⟩
  · rw [add_comm]
    exact hadd
  · have hneg := hγ.negInt _ _ hsub
    rwa [neg_sub] at hneg

theorem holds_trim {pair : Pair X} {r : Diamond I} (ht : d.trim pair = some r) (h : d.Holds γ u v) :
    r.Holds γ u v := by
  unfold trim at ht
  split at ht
  · cases ht
  · cases ht
    exact ⟨hγ.top _,h.2⟩
  · cases ht
    exact ⟨h.1,hγ.top _⟩
  · cases ht
    exact h

end Diamond
end Diamonds

/-- The variable `y` is recorded as related to `x`. -/
def Related (t : Tree X (VariableSet X)) (x y : X) : Prop := ∃ s, t.find x = some s ∧ y ∈ s

namespace Relations
variable {t t1 t2 : Tree X (VariableSet X)}

theorem relateAux_spec (hc : t.Canonical) (x y : X) : (relateAux x y t).Canonical ∧
    ∀ a b, Related (relateAux x y t) a b ↔ Related t a b ∨ (a = x ∧ b = y) := by
  obtain ⟨h,hf⟩ := Tree.add_spec x (insert y ((t.find x).getD ∅)) hc
  refine ⟨h,fun a b => ?_⟩
  unfold Related relateAux
  rw [hf]
  by_cases ha : a = x
  · subst ha
    cases hx : t.find a with
    | none => simp
    | some s => simp [or_comm]
  · simp [ha]

theorem relate_spec (hc : t.Canonical) (pair : Pair X) : (relate pair t).Canonical ∧
    ∀ a b, Related (relate pair t) a b ↔
      Related t a b ∨ (a = pair.fst ∧ b = pair.snd) ∨ (a = pair.snd ∧ b = pair.fst) := by
  obtain ⟨h1,hr1⟩ := relateAux_spec hc pair.fst pair.snd
  obtain ⟨h2,hr2⟩ := relateAux_spec h1 pair.snd pair.fst
  refine ⟨h2,fun a b => ?_⟩
  rw [relate,hr2,hr1,or_assoc]

theorem union_spec (h1 : t1.Canonical) (h2 : t2.Canonical) : (union t1 t2).Canonical ∧
    ∀ a b, Related (union t1 t2) a b ↔ Related t1 a b ∨ Related t2 a b := by
  obtain ⟨hc,hm⟩ := Merger.plain_spec
    (Merger.ofJoin_decides true true fun (_ : X) (x y : VariableSet X) => (x ∪ y : VariableSet X)) h1 h2
  refine ⟨hc,fun a b => ?_⟩
  have h := hm a
  unfold Related
  change (∃ s, Tree.find a ((Merger.ofJoin (M := Id) true true
    fun (_ : X) (x y : VariableSet X) => (x ∪ y : VariableSet X)).plain t1 t2) = some s ∧ b ∈ s) ↔ _
  cases hx : t1.find a with
  | none =>
    cases hy : t2.find a with
    | none =>
      rw [hx,hy] at h
      rw [show Tree.find a _ = none from h]
      simp
    | some w =>
      rw [hx,hy] at h
      rw [show Tree.find a _ = some w from h]
      simp
  | some v =>
    cases hy : t2.find a with
    | none =>
      rw [hx,hy] at h
      rw [show Tree.find a _ = some v from h]
      simp
    | some w =>
      rw [hx,hy] at h
      rcases h with h | ⟨_,h⟩ | ⟨_,rfl,h⟩
      · rw [h]
        simp
      · rw [h]
        simp [or_comm]
      · rw [h]
        simp

theorem inter_spec (h1 : t1.Canonical) (h2 : t2.Canonical) : (inter t1 t2).Canonical ∧
    ∀ a b, Related (inter t1 t2) a b ↔ Related t1 a b ∧ Related t2 a b := by
  obtain ⟨hc,hm⟩ := Merger.plain_spec (Merger.ofInter_decides true true
    fun (_ : X) (x y : VariableSet X) => if x ∩ y = ∅ then none else some (x ∩ y)) h1 h2
  have hmem : ∀ {v w : VariableSet X} {b : X}, (∃ s, (if v ∩ w = ∅ then none else some (v ∩ w)) = some s ∧ b ∈ s) ↔
      b ∈ v ∧ b ∈ w := by
    intro v w b
    rw [← Finset.mem_inter]
    split
    · next he => simp [he]
    · simp
  refine ⟨hc,fun a b => ?_⟩
  have h := hm a
  unfold Related
  change (∃ s, Tree.find a ((Merger.ofInter (M := Id) true true
    fun (_ : X) (x y : VariableSet X) => if x ∩ y = ∅ then none else some (x ∩ y)).plain t1 t2) = some s ∧ b ∈ s) ↔ _
  cases hx : t1.find a with
  | none =>
    cases hy : t2.find a with
    | none =>
      rw [hx,hy] at h
      rw [show Tree.find a _ = none from h]
      simp
    | some w =>
      rw [hx,hy] at h
      rw [show Tree.find a _ = none from h]
      simp
  | some v =>
    cases hy : t2.find a with
    | none =>
      rw [hx,hy] at h
      rw [show Tree.find a _ = none from h]
      simp
    | some w =>
      rw [hx,hy] at h
      rcases h with h | ⟨_,h⟩ | ⟨_,rfl,h⟩
      · rw [h,hmem]
        simp
      · rw [h,hmem]
        simp [and_comm]
      · rw [h]
        simp

theorem add_spec (hc : t.Canonical) (x : X) (s : VariableSet X) : (add x s t).Canonical ∧
    ∀ a b, Related (add x s t) a b ↔ if a = x then b ∈ s else Related t a b := by
  unfold add
  split
  · next he =>
    obtain ⟨h,hf⟩ := Tree.remove_spec x hc
    refine ⟨h,fun a b => ?_⟩
    unfold Related
    rw [hf]
    by_cases ha : a = x
    · simp [ha,he]
    · simp [ha]
  · obtain ⟨h,hf⟩ := Tree.add_spec x s hc
    refine ⟨h,fun a b => ?_⟩
    unfold Related
    rw [hf]
    by_cases ha : a = x
    · simp [ha]
    · simp [ha]

end Relations

def Pair.Joins (pair : Pair X) (x y : X) : Prop := (pair.fst = x ∧ pair.snd = y) ∨ (pair.fst = y ∧ pair.snd = x)

theorem Pair.fst_ne_snd (pair : Pair X) : pair.fst ≠ pair.snd := by
  intro h
  have hlt := pair.ordered
  rw [h] at hlt
  exact lt_irrefl _ hlt

omit [Key (Pair X)] in
theorem Pair.make_ok {x y : X} (h : x ≠ y) : ∃ pair swap, Pair.make x y = .ok (pair,swap) ∧
    ((swap = false ∧ pair.fst = x ∧ pair.snd = y) ∨ (swap = true ∧ pair.fst = y ∧ pair.snd = x)) := by
  unfold Pair.make
  rw [dif_neg fun hv => h (vid_injective hv)]
  split
  · exact ⟨_,_,rfl,Or.inl ⟨rfl,rfl,rfl⟩⟩
  · exact ⟨_,_,rfl,Or.inr ⟨rfl,rfl,rfl⟩⟩

theorem Pair.Joins.unique {p q : Pair X} {x y : X} (hp : p.Joins x y) (hq : q.Joins x y) : p = q := by
  obtain ⟨a,b,hab⟩ := p
  obtain ⟨c,d,hcd⟩ := q
  rcases hp with ⟨rfl,rfl⟩ | ⟨rfl,rfl⟩ <;> rcases hq with ⟨h1,h2⟩ | ⟨h1,h2⟩ <;> simp only at h1 h2 <;> subst h1 h2
  · rfl
  · exact absurd hab (lt_asymm hcd)
  · exact absurd hab (lt_asymm hcd)
  · rfl

namespace State

/-- The variables of each bound pair are mutually related, and none is related to itself. -/
structure Wf (s : State X I Z) : Prop where
  octagons : s.octagons.Canonical
  intervals : s.intervals.Canonical
  relations : s.relations.Canonical
  related : ∀ pair d, s.octagons.find pair = some d →
    Related s.relations pair.fst pair.snd ∧ Related s.relations pair.snd pair.fst
  irrefl : ∀ x, ¬ Related s.relations x x

/-- The environment satisfies each octagon and each interval of the state. -/
def Satisfies (γ : I → Set ℤ) (env : X → ℤ) (s : State X I Z) : Prop :=
  (∀ pair d, s.octagons.find pair = some d → d.Holds γ (env pair.fst) (env pair.snd)) ∧
    ∀ x i, s.intervals.find x = some i → env x ∈ γ i

theorem empty_wf : (empty : State X I Z).Wf where
  octagons := trivial
  intervals := trivial
  relations := trivial
  related _ _ h := by cases h
  irrefl _ h := by
    obtain ⟨_,h,_⟩ := h
    cases h

theorem joinRelations_spec (c : Settings) {t1 t2 : State X I Z} (h1 : t1.Wf) (h2 : t2.Wf) :
    (joinRelations c t1 t2).Canonical ∧ ∀ a b, Related (joinRelations c t1 t2) a b ↔
      if c.inferIntervals then Related t1.relations a b ∨ Related t2.relations a b
      else Related t1.relations a b ∧ Related t2.relations a b := by
  unfold joinRelations
  split
  · exact Relations.union_spec h1.relations h2.relations
  · exact Relations.inter_spec h1.relations h2.relations

theorem wf_of_joinRelations (c : Settings) {t1 t2 : State X I Z} (h1 : t1.Wf) (h2 : t2.Wf)
    {octagons : Tree (Pair X) (Diamond I)} {intervals : Tree X I} {modified : Z} (ho : octagons.Canonical)
    (hi : intervals.Canonical)
    (hk : ∀ pair d, octagons.find pair = some d → if c.inferIntervals then
      (t1.octagons.find pair).isSome ∨ (t2.octagons.find pair).isSome
      else (t1.octagons.find pair).isSome ∧ (t2.octagons.find pair).isSome) :
    (State.mk octagons intervals (joinRelations c t1 t2) modified).Wf := by
  obtain ⟨hc,hr⟩ := joinRelations_spec c h1 h2
  have hrel : ∀ {t : State X I Z}, t.Wf → ∀ {pair : Pair X}, (t.octagons.find pair).isSome →
      Related t.relations pair.fst pair.snd ∧ Related t.relations pair.snd pair.fst := by
    intro t ht pair h
    obtain ⟨d,hd⟩ := Option.isSome_iff_exists.mp h
    exact ht.related pair d hd
  refine ⟨ho,hi,hc,fun pair d hd => ?_,fun x hx => ?_⟩
  · have hkey := hk pair d hd
    rw [hr,hr]
    split_ifs at hkey ⊢
    · rcases hkey with h | h
      · exact ⟨Or.inl (hrel h1 h).1,Or.inl (hrel h1 h).2⟩
      · exact ⟨Or.inr (hrel h2 h).1,Or.inr (hrel h2 h).2⟩
    · exact ⟨⟨(hrel h1 hkey.1).1,(hrel h2 hkey.2).1⟩,(hrel h1 hkey.1).2,(hrel h2 hkey.2).2⟩
  · rw [hr] at hx
    split_ifs at hx
    · exact hx.elim (h1.irrefl x) (h2.irrefl x)
    · exact h1.irrefl x hx.1

theorem intervalDiamond_some {intervals : Tree X I} {pair : Pair X} {d : Diamond I}
    (h : intervalDiamond intervals pair = some d) : ∃ i1 i2, intervals.find pair.fst = some i1 ∧
      intervals.find pair.snd = some i2 ∧ d = ⟨IvalOps.addInt i1 i2,IvalOps.subInt i1 i2⟩ := by
  unfold intervalDiamond at h
  cases h1 : intervals.find pair.fst with
  | none => simp [h1] at h
  | some i1 =>
    cases h2 : intervals.find pair.snd with
    | none => simp [h1,h2] at h
    | some i2 => exact ⟨i1,i2,rfl,rfl,by simpa [h1,h2] using h.symm⟩

theorem intervalDiamond_holds {γ : I → Set ℤ} (hγ : IvalOps.Sound γ) {env : X → ℤ} {t : State X I Z}
    (ht : t.Satisfies γ env) {pair : Pair X} {d : Diamond I} (h : intervalDiamond t.intervals pair = some d) :
    d.Holds γ (env pair.fst) (env pair.snd) := by
  obtain ⟨i1,i2,h1,h2,rfl⟩ := intervalDiamond_some h
  exact ⟨hγ.addInt _ _ _ _ (ht.2 _ _ h1) (ht.2 _ _ h2),hγ.subInt _ _ _ _ (ht.2 _ _ h1) (ht.2 _ _ h2)⟩

/-! ### Join and widening

Both merge the diamonds of two states with an operation that covers its arguments. -/

section Upper
variable {t1 t2 : State X I Z} (h1 : t1.Wf) (h2 : t2.Wf)
  (op : Diamond I → Diamond I → Diamond I)
include h1 h2

theorem simple_upper (sy : Bool) :
    let r := (Merger.ofInter (M := Id) sy true fun pair x y => Diamond.trim pair (op x y)).plain t1.octagons t2.octagons
    r.Canonical ∧ (∀ pair d, r.find pair = some d → (t1.octagons.find pair).isSome ∧ (t2.octagons.find pair).isSome) ∧
      ∀ γ : I → Set ℤ, IvalOps.Sound γ →
        (∀ d e : Diamond I, ∀ u v, d.Holds γ u v ∨ e.Holds γ u v → (op d e).Holds γ u v) →
        ∀ env, t1.Satisfies γ env ∨ t2.Satisfies γ env →
          ∀ pair d, r.find pair = some d → d.Holds γ (env pair.fst) (env pair.snd) := by
  obtain ⟨hc,hm⟩ := Merger.plain_spec
    (Merger.ofInter_decides sy true fun (pair : Pair X) x y => Diamond.trim pair (op x y)) h1.octagons h2.octagons
  have hinv : ∀ pair d, Tree.find pair ((Merger.ofInter (M := Id) sy true fun (pair : Pair X) x y =>
      Diamond.trim pair (op x y)).plain t1.octagons t2.octagons) = some d →
      ∃ v w, t1.octagons.find pair = some v ∧ t2.octagons.find pair = some w ∧
        (Diamond.trim pair (op v w) = some d ∨ Diamond.trim pair (op w v) = some d ∨ (v = w ∧ d = v)) := by
    intro pair d hd
    have h := hm pair
    rw [hd] at h
    rcases Merger.Merged.inv h with ⟨_,_,_,hn⟩ | ⟨_,_,_,hn⟩ | ⟨v,w,hv,hw,hb⟩
    · cases hn
    · cases hn
    · exact ⟨v,w,hv,hw,hb.imp id (Or.imp And.right And.right)⟩
  refine ⟨hc,fun pair d hd => ?_,fun γ hγ hop env henv pair d hd => ?_⟩
  · obtain ⟨v,w,hv,hw,_⟩ := hinv pair d hd
    exact ⟨by rw [hv]; rfl,by rw [hw]; rfl⟩
  · obtain ⟨v,w,hv,hw,hb⟩ := hinv pair d hd
    have hvw : v.Holds γ (env pair.fst) (env pair.snd) ∨ w.Holds γ (env pair.fst) (env pair.snd) :=
      henv.imp (fun h => h.1 pair v hv) (fun h => h.1 pair w hw)
    rcases hb with hb | hb | ⟨rfl,rfl⟩
    · exact Diamond.holds_trim hγ hb (hop v w _ _ hvw)
    · exact Diamond.holds_trim hγ hb (hop w v _ _ hvw.symm)
    · exact hvw.elim id id

theorem upper {left right : Pair X → Diamond I → Option (Diamond I)}
    (hleft : ∀ pair d r, left pair d = some r → ∃ e, intervalDiamond t2.intervals pair = some e ∧
      (Diamond.trim pair (op d e) = some r ∨ Diamond.trim pair (op e d) = some r))
    (hright : ∀ pair d r, right pair d = some r → ∃ e, intervalDiamond t1.intervals pair = some e ∧
      (Diamond.trim pair (op d e) = some r ∨ Diamond.trim pair (op e d) = some r)) :
    let r := (Merger.ofMerge (M := Id) false true (fun pair x y => Diamond.trim pair (op x y)) (.traversing left)
      (.traversing right)).plain t1.octagons t2.octagons
    r.Canonical ∧ (∀ pair d, r.find pair = some d → (t1.octagons.find pair).isSome ∨ (t2.octagons.find pair).isSome) ∧
      ∀ γ : I → Set ℤ, IvalOps.Sound γ →
        (∀ d e : Diamond I, ∀ u v, d.Holds γ u v ∨ e.Holds γ u v → (op d e).Holds γ u v) →
        ∀ env, t1.Satisfies γ env ∨ t2.Satisfies γ env →
          ∀ pair d, r.find pair = some d → d.Holds γ (env pair.fst) (env pair.snd) := by
  obtain ⟨hc,hm⟩ := Merger.plain_spec (Merger.ofMerge_decides false true
    (fun (pair : Pair X) x y => Diamond.trim pair (op x y)) (.traversing left) (.traversing right))
    h1.octagons h2.octagons
  -- each diamond of the result covers a diamond of each state
  have hcover : ∀ γ : I → Set ℤ, IvalOps.Sound γ →
      (∀ d e : Diamond I, ∀ u v, d.Holds γ u v ∨ e.Holds γ u v → (op d e).Holds γ u v) → ∀ {pair : Pair X}
        {v w d : Diamond I} {a b : ℤ}, (Diamond.trim pair (op v w) = some d ∨ Diamond.trim pair (op w v) = some d) →
        (v.Holds γ a b ∨ w.Holds γ a b) → d.Holds γ a b := by
    intro γ hγ hop pair v w d a b ht hvw
    rcases ht with ht | ht
    · exact Diamond.holds_trim hγ ht (hop v w _ _ hvw)
    · exact Diamond.holds_trim hγ ht (hop w v _ _ hvw.symm)
  refine ⟨hc,fun pair d hd => ?_,fun γ hγ hop env henv pair d hd => ?_⟩
  · have h := hm pair
    rw [hd] at h
    rcases Merger.Merged.inv h with ⟨v,hv,_,_⟩ | ⟨w,_,hw,_⟩ | ⟨v,w,hv,_,_⟩
    · exact Or.inl (by rw [hv]; rfl)
    · exact Or.inr (by rw [hw]; rfl)
    · exact Or.inl (by rw [hv]; rfl)
  · have h := hm pair
    rw [hd] at h
    rcases Merger.Merged.inv h with ⟨v,hv,_,hl⟩ | ⟨w,_,hw,hr⟩ | ⟨v,w,hv,hw,hb⟩
    · obtain ⟨e,he,ht⟩ := hleft pair v d hl
      exact hcover γ hγ hop ht (henv.imp (fun h => h.1 pair v hv) fun h => intervalDiamond_holds hγ h he)
    · obtain ⟨e,he,ht⟩ := hright pair w d hr
      exact hcover γ hγ hop ht (henv.symm.imp (fun h => h.1 pair w hw) fun h => intervalDiamond_holds hγ h he)
    · have hvw : v.Holds γ (env pair.fst) (env pair.snd) ∨ w.Holds γ (env pair.fst) (env pair.snd) :=
        henv.imp (fun h => h.1 pair v hv) (fun h => h.1 pair w hw)
      rcases hb with hb | ⟨hs,_⟩ | ⟨_,rfl,rfl⟩
      · exact hcover γ hγ hop (Or.inl hb) hvw
      · cases hs
      · exact hvw.elim id id

theorem intervals_upper (sy : Bool) (f : I → I → I) :
    let r := (Merger.ofInter (M := Id) sy true fun (_ : X) x y => if f x y = IvalOps.top then none else some (f x y)).plain
      t1.intervals t2.intervals
    r.Canonical ∧ ∀ γ : I → Set ℤ, (∀ a b u, u ∈ γ a ∨ u ∈ γ b → u ∈ γ (f a b)) →
      ∀ env, t1.Satisfies γ env ∨ t2.Satisfies γ env → ∀ x i, r.find x = some i → env x ∈ γ i := by
  obtain ⟨hc,hm⟩ := Merger.plain_spec (Merger.ofInter_decides sy true
    fun (_ : X) x y => if f x y = IvalOps.top then none else some (f x y)) h1.intervals h2.intervals
  refine ⟨hc,fun γ hf env henv x i hi => ?_⟩
  have h := hm x
  rw [hi] at h
  have hval : ∀ {v w : I}, (if f v w = IvalOps.top then none else some (f v w)) = some i → i = f v w := by
    intro v w h
    split at h
    · cases h
    · exact (Option.some.inj h).symm
  rcases Merger.Merged.inv h with ⟨_,_,_,hn⟩ | ⟨_,_,_,hn⟩ | ⟨v,w,hv,hw,hb⟩
  · cases hn
  · cases hn
  · have hvw : env x ∈ γ v ∨ env x ∈ γ w := henv.imp (fun h => h.2 x v hv) (fun h => h.2 x w hw)
    rcases hb with hb | ⟨_,hb⟩ | ⟨_,rfl,rfl⟩
    · rw [hval hb]
      exact hf _ _ _ hvw
    · rw [hval hb]
      exact hf _ _ _ hvw.symm
    · exact hvw.elim id id

end Upper
end State
end FramaC.Octagons
