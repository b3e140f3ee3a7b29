import FramaC.PropertyStatus.Tables
import Mathlib.Data.List.FinRange

/-! # Hypotheses against Status

The table `Hypotheses` is kept by hand as the inverse of `Status`. Emitting again forgets every
entry of the property under the old hypotheses, and removing a property leaves its own entry:
the two tables agree along the runs that do neither to another emitter.
-/
set_option linter.unusedSectionVars false

namespace FramaC.PropertyStatus
open Properties Emitters
variable {P E : Type} [DecidableEq P] [Properties P] [DecidableEq E] [Emitters E]

inductive Op (P E : Type)
  | register (ppt : P)
  | emit (e : E) (hyps : List (P × ℕ)) (ppt : P) (distinct : Bool) (s : Emitted)
  | logicalConsequence (e : E) (ppt : P) (hyps : List (P × ℕ))
  | remove (ppt : P × ℕ)

def Op.exec (t : Tables P E) : Op P E → Option (Tables P E)
  | .register ppt => t.register ppt
  | .emit e hyps ppt distinct s => t.emit e hyps ppt distinct s
  | .logicalConsequence e ppt hyps => t.unsafeEmitAndGet e hyps true ppt false .dontKnow
  | .remove ppt => t.remove ppt

def run (ops : List (Op P E)) : Option (Tables P E) := ops.foldlM Op.exec Tables.init

namespace Tables
variable (t : Tables P E)

/-- A property and an emitter are listed under a hypothesis exactly when the property has a status
of the emitter that uses it. -/
def Inverse : Prop :=
  ∀ (h p : P) (e : E), isOther h = false →
    ((∃ a, (p,a) ∈ t.hypotheses h ∧ (t.record a).emitter = e) ↔
      ∃ x ∈ t.entries p, (t.record x.1).emitter = e ∧ h ∈ (t.record x.1).properties)

/-- The statuses of the emitter for the property share no hypothesis with those of another emitter. -/
def NoSharing (ppt : P) (e : E) : Prop :=
  ∀ x ∈ t.entries ppt, (t.record x.1).emitter = e → ∀ y ∈ t.entries ppt, (t.record y.1).emitter ≠ e →
    ∀ h, isOther h = false → h ∈ (t.record x.1).properties → h ∉ (t.record y.1).properties

/-- What an emission writes, `none` when the old status is kept. -/
def written (e : E) (ppt : P) (distinct : Bool) (s : Emitted) : Option Emitted :=
  match t.findEmitter ppt e with
  | none => some s
  | some (_,oldS) =>
    if distinct then
      match mergeDistinctEmitted s oldS with
      | some first => if first then some s else none
      | none => some .dontKnow
    else if checkStrongestEmitted s oldS = some true then some s else none

def KeepsOthers (e : E) (ppt : P) (s : Emitted) : Prop :=
  t.NoSharing ppt e ∧
    (s = .falseIfReachable → isAlwaysReachable (ipReachablePpt ppt) = true →
      t.NoSharing (ipReachablePpt ppt) kernel)

def Unused (h : P) : Prop := ∀ p, ∀ x ∈ t.entries p, h ∉ (t.record x.1).properties

end Tables

def Op.Safe (t : Tables P E) : Op P E → Prop
  | .register _ => True
  | .emit e _ ppt distinct s => ∀ s', t.written e ppt distinct s = some s' → t.KeepsOthers e ppt s'
  | .logicalConsequence e ppt _ => t.KeepsOthers e ppt .dontKnow
  | .remove ppt => isOther ppt.1 = false → t.Unused ppt.1

/-- The states of the runs whose operations are all safe. -/
inductive SafeRun : Tables P E → Prop
  | init : SafeRun Tables.init
  | step {t t' : Tables P E} (op : Op P E) : SafeRun t → op.Safe t → op.exec t = some t' → SafeRun t'

/-- The inverse relation, but for some hidden statuses that are about to be replaced. -/
structure InverseBut (hidden : P → E → Prop) (t : Tables P E) : Prop where
  fresh : ∀ p, ∀ x ∈ t.entries p, x.1 < t.next
  distinct : ∀ p, ∀ x ∈ t.entries p, ∀ y ∈ t.entries p, (t.record x.1).emitter = (t.record y.1).emitter → x = y
  listed : ∀ h p a, (p,a) ∈ t.hypotheses h ↔ isOther h = false ∧ ¬hidden p (t.record a).emitter ∧
    ∃ s, (a,s) ∈ t.entries p ∧ h ∈ (t.record a).properties

namespace Tables

@[simp] theorem mem_add_entries {t : Tables P E} {ppt q : P} {r : Record P E} {s : Emitted} {x : ℕ × Emitted} :
    x ∈ (t.add ppt r s).entries q ↔
      if q = ppt then x = (t.next,s) ∨ x ∈ t.entries q ∧ (t.record x.1).emitter ≠ r.emitter else x ∈ t.entries q := by
  by_cases h : q = ppt
  · subst h
    simp [add,entries]
  · simp [add,entries,h]

theorem mem_add_hypotheses {t : Tables P E} {ppt h : P} {r : Record P E} {s : Emitted} {q : P × ℕ} :
    q ∈ (t.add ppt r s).hypotheses h ↔
      (isOther h = false ∧ h ∈ r.properties ∧ q = (ppt,t.next)) ∨ q ∈ t.hypotheses h := by
  simp only [add,List.mem_append,List.mem_replicate]
  by_cases ho : isOther h = true
  · simp [ho]
  · simp [ho,List.count_eq_zero]

theorem record_add_next {t : Tables P E} {ppt : P} {r : Record P E} {s : Emitted} :
    (t.add ppt r s).record t.next = r := by simp [add]

theorem record_add {t : Tables P E} {ppt : P} {r : Record P E} {s : Emitted} {a : ℕ} (ha : a < t.next) :
    (t.add ppt r s).record a = t.record a := by
  simp [add,Function.update_of_ne (Nat.ne_of_lt ha)]

theorem mem_applyHooksOnRemove {t : Tables P E} {a : ℕ} {ppt h : P} {q : P × ℕ} :
    q ∈ (t.applyHooksOnRemove a ppt).hypotheses h ↔
      q ∈ t.hypotheses h ∧ ¬(q.1 = ppt ∧ h ∈ (t.record a).properties) := by
  by_cases hh : h ∈ (t.record a).properties
  · simp [applyHooksOnRemove,hh]
  · simp [applyHooksOnRemove,hh]

theorem findEmitter_some {t : Tables P E} {ppt : P} {e : E} {x : ℕ × Emitted}
    (h : t.findEmitter ppt e = some x) : x ∈ t.entries ppt ∧ (t.record x.1).emitter = e :=
  ⟨List.mem_of_find?_eq_some h,by simpa using List.find?_some h⟩

theorem findEmitter_none {t : Tables P E} {ppt : P} {e : E} (h : t.findEmitter ppt e = none) :
    ∀ x ∈ t.entries ppt, (t.record x.1).emitter ≠ e := by
  simpa [findEmitter] using h

@[simp] theorem forgetPrevious_entries (t : Tables P E) (ppt q : P) (e : E) :
    (t.forgetPrevious ppt e).entries q = t.entries q := by
  unfold forgetPrevious
  cases t.findEmitter ppt e <;> rfl

@[simp] theorem forgetPrevious_record (t : Tables P E) (ppt : P) (e : E) :
    (t.forgetPrevious ppt e).record = t.record := by
  unfold forgetPrevious
  cases t.findEmitter ppt e <;> rfl

@[simp] theorem forgetPrevious_next (t : Tables P E) (ppt : P) (e : E) :
    (t.forgetPrevious ppt e).next = t.next := by
  unfold forgetPrevious
  cases t.findEmitter ppt e <;> rfl

theorem NoSharing.of_eq {t t' : Tables P E} {ppt : P} {e : E} (h : t.NoSharing ppt e)
    (he : t'.entries ppt = t.entries ppt) (hr : t'.record = t.record) : t'.NoSharing ppt e := by
  unfold NoSharing
  rw [he,hr]
  exact h

theorem noSharing_of_subsingleton {t : Tables P E} {ppt : P} {e : E}
    (h : ∀ x ∈ t.entries ppt, ∀ y ∈ t.entries ppt, x = y) : t.NoSharing ppt e := by
  intro x hx hxe y hy hye
  exact absurd (h x hx y hy ▸ hxe) hye

end Tables

namespace InverseBut
variable {t : Tables P E} {hidden : P → E → Prop}

theorem init : InverseBut (fun _ _ => False) (Tables.init : Tables P E) := by
  constructor <;> simp [Tables.init,Tables.entries]

theorem forgetPrevious (hi : InverseBut hidden t) {ppt : P} {e : E} (hs : t.NoSharing ppt e) :
    InverseBut (fun q f => hidden q f ∨ q = ppt ∧ f = e) (t.forgetPrevious ppt e) := by
  constructor
  · simpa using hi.fresh
  · simpa using hi.distinct
  · intro h q a
    simp only [Tables.forgetPrevious_entries,Tables.forgetPrevious_record]
    unfold Tables.forgetPrevious
    cases hf : t.findEmitter ppt e with
    | none =>
      have hn := Tables.findEmitter_none hf
      rw [hi.listed]
      constructor
      · rintro ⟨ho,hh,s,hm,hp⟩
        refine ⟨ho,?_,s,hm,hp⟩
        intro hc
        obtain hc | ⟨rfl,hc⟩ := hc
        · exact hh hc
        · exact hn _ hm hc
      · rintro ⟨ho,hh,hm⟩
        exact ⟨ho,fun hc => hh (Or.inl hc),hm⟩
    | some x =>
      obtain ⟨hx,hxe⟩ := Tables.findEmitter_some hf
      simp only [Tables.mem_applyHooksOnRemove]
      rw [hi.listed]
      constructor
      · rintro ⟨⟨ho,hh,s,hm,hp⟩,hk⟩
        refine ⟨ho,?_,s,hm,hp⟩
        intro hc
        obtain hc | ⟨rfl,hc⟩ := hc
        · exact hh hc
        · have hax := hi.distinct q _ hm x hx (hc.trans hxe.symm)
          exact hk ⟨rfl,by rw [← hax]; exact hp⟩
      · rintro ⟨ho,hh,s,hm,hp⟩
        refine ⟨⟨ho,fun hc => hh (Or.inl hc),s,hm,hp⟩,?_⟩
        rintro ⟨rfl,hk⟩
        have hne : (t.record a).emitter ≠ e := fun hc => hh (Or.inr ⟨rfl,hc⟩)
        exact hs x hx hxe _ hm hne h ho hk hp

theorem add {ppt : P} {r : Record P E} {s : Emitted} (hh : ¬hidden ppt r.emitter)
    (hi : InverseBut (fun q f => hidden q f ∨ q = ppt ∧ f = r.emitter) t) :
    InverseBut hidden (t.add ppt r s) := by
  have hrec : ∀ q, ∀ x ∈ t.entries q, (t.add ppt r s).record x.1 = t.record x.1 :=
    fun q x hx => Tables.record_add (hi.fresh q x hx)
  constructor
  · intro q x hx
    rw [Tables.mem_add_entries] at hx
    have hlt : x ∈ t.entries q → x.1 < t.next + 1 := fun h => Nat.lt_succ_of_lt (hi.fresh q x h)
    split at hx
    · obtain rfl | hx := hx
      · exact Nat.lt_succ_self _
      · exact hlt hx.1
    · exact hlt hx
  · intro q x hx y hy hxy
    rw [Tables.mem_add_entries] at hx hy
    split at hx
    · rename_i hq
      rw [if_pos hq] at hy
      obtain rfl | ⟨hx,hxe⟩ := hx
      · obtain rfl | ⟨hy,hye⟩ := hy
        · rfl
        · rw [Tables.record_add_next,hrec q y hy] at hxy
          exact absurd hxy.symm hye
      · obtain rfl | ⟨hy,hye⟩ := hy
        · rw [Tables.record_add_next,hrec q x hx] at hxy
          exact absurd hxy hxe
        · rw [hrec q x hx,hrec q y hy] at hxy
          exact hi.distinct q x hx y hy hxy
    · rename_i hq
      rw [if_neg hq] at hy
      rw [hrec q x hx,hrec q y hy] at hxy
      exact hi.distinct q x hx y hy hxy
  · intro h q a
    rw [Tables.mem_add_hypotheses,hi.listed]
    constructor
    · rintro (⟨ho,hp,hq⟩ | ⟨ho,hn,s',hm,hp⟩)
      · obtain ⟨rfl,rfl⟩ := Prod.mk.inj hq
        refine ⟨ho,by rw [Tables.record_add_next]; exact hh,s,?_,by rw [Tables.record_add_next]; exact hp⟩
        simp
      · rw [hrec q _ hm]
        refine ⟨ho,fun hc => hn (Or.inl hc),s',?_,hp⟩
        rw [Tables.mem_add_entries]
        split
        · rename_i hq
          exact Or.inr ⟨hm,fun hc => hn (Or.inr ⟨hq,hc⟩)⟩
        · exact hm
    · rintro ⟨ho,hn,s',hm,hp⟩
      rw [Tables.mem_add_entries] at hm
      split at hm
      · rename_i hq
        obtain hm | ⟨hm,hne⟩ := hm
        · obtain ⟨rfl,rfl⟩ := Prod.mk.inj hm
          rw [Tables.record_add_next] at hp
          exact Or.inl ⟨ho,hp,by rw [hq]⟩
        · rw [hrec q _ hm] at hn hp
          refine Or.inr ⟨ho,?_,s',hm,hp⟩
          intro hc
          obtain hc | hc := hc
          · exact hn hc
          · exact hne hc.2
      · rename_i hq
        rw [hrec q _ hm] at hn hp
        refine Or.inr ⟨ho,?_,s',hm,hp⟩
        intro hc
        obtain hc | hc := hc
        · exact hn hc
        · exact hq hc.1

theorem emitPlain (hi : InverseBut hidden t) {e : E} {hyps : List (P × ℕ)} {auto : Bool} {ppt : P} {s : Emitted}
    (hs : t.NoSharing ppt e) (hh : ¬hidden ppt e) : InverseBut hidden (t.emitPlain e hyps auto ppt s) :=
  (hi.forgetPrevious hs).add hh

theorem registerAsKernelLogicalConsequence (hi : InverseBut hidden t) {ppt : P} (he : t.entries ppt = [])
    (hh : ¬hidden ppt kernel) : InverseBut hidden (t.registerAsKernelLogicalConsequence ppt) := by
  have hs : t.NoSharing ppt kernel := by simp [Tables.NoSharing,he]
  unfold Tables.registerAsKernelLogicalConsequence
  cases kind ppt with
  | axiomatic props => exact hi.emitPlain hs hh
  | behavior posts => exact hi.emitPlain hs hh
  | alwaysReachable => exact hi.emitPlain hs hh
  | _ => exact hi

theorem bindEmpty (hi : InverseBut hidden t) {ppt : P} (hn : t.status ppt = none) :
    InverseBut hidden { t with status := Function.update t.status ppt (some []) } := by
  have he : ∀ q, ({ t with status := Function.update t.status ppt (some []) } : Tables P E).entries q =
      t.entries q := by
    intro q
    by_cases hq : q = ppt
    · subst hq
      simp [Tables.entries,hn]
    · simp [Tables.entries,hq]
  exact ⟨by simpa only [he] using hi.fresh,by simpa only [he] using hi.distinct,
    by simpa only [he] using hi.listed⟩

theorem register (hi : InverseBut hidden t) {ppt : P} {t' : Tables P E} (hh : ¬hidden ppt kernel)
    (h : t.register ppt = some t') : InverseBut hidden t' := by
  unfold Tables.register at h
  split at h
  · cases h
  · rename_i hn
    obtain rfl := Option.some.inj h
    apply (hi.bindEmpty (by simpa using hn)).registerAsKernelLogicalConsequence _ hh
    simp [Tables.entries]

theorem ensureRegistered (hi : InverseBut hidden t) {ppt : P} {t' : Tables P E} (hh : ¬hidden ppt kernel)
    (h : t.ensureRegistered ppt = some t') : InverseBut hidden t' := by
  unfold Tables.ensureRegistered at h
  split at h
  · obtain rfl := Option.some.inj h
    exact hi
  · split at h
    · exact hi.register hh h
    · cases h

end InverseBut

namespace Tables

theorem emitPlain_subsingleton {t : Tables P E} {e : E} {hyps : List (P × ℕ)} {auto : Bool} {ppt : P} {s : Emitted}
    (he : t.entries ppt = []) :
    ∀ x ∈ (t.emitPlain e hyps auto ppt s).entries ppt, ∀ y ∈ (t.emitPlain e hyps auto ppt s).entries ppt, x = y := by
  simp only [emitPlain,mem_add_entries,forgetPrevious_entries,he,if_true,List.not_mem_nil,false_and,or_false]
  intro x hx y hy
  rw [hx,hy]

theorem register_subsingleton {t t' : Tables P E} {ppt : P} (h : t.register ppt = some t') :
    ∀ x ∈ t'.entries ppt, ∀ y ∈ t'.entries ppt, x = y := by
  unfold register at h
  split at h
  · cases h
  · obtain rfl := Option.some.inj h
    have he : ({ t with status := Function.update t.status ppt (some []) } : Tables P E).entries ppt = [] := by
      simp [entries]
    unfold registerAsKernelLogicalConsequence
    cases kind ppt with
    | axiomatic props => exact emitPlain_subsingleton he
    | behavior posts => exact emitPlain_subsingleton he
    | alwaysReachable => exact emitPlain_subsingleton he
    | _ => simp [he]

theorem register_eq {t t' : Tables P E} {ppt : P} (h : t.register ppt = some t')
    (ha : isAutoRegistered ppt = true) (hr : isReachable ppt = false) :
    t' = { t with status := Function.update t.status ppt (some []) } := by
  unfold register at h
  split at h
  · cases h
  · obtain rfl := Option.some.inj h
    unfold registerAsKernelLogicalConsequence
    unfold isAutoRegistered at ha
    unfold isReachable at hr
    cases hk : kind ppt <;> simp [hk] at ha hr ⊢

theorem NoSharing.ensureRegistered {t t' : Tables P E} {ppt : P} {e : E} (hs : t.NoSharing ppt e)
    (h : t.ensureRegistered ppt = some t') : t'.NoSharing ppt e := by
  unfold Tables.ensureRegistered at h
  split at h
  · obtain rfl := Option.some.inj h
    exact hs
  · split at h
    · exact noSharing_of_subsingleton (register_subsingleton h)
    · cases h

end Tables

namespace InverseBut
variable {t : Tables P E} {hidden : P → E → Prop}

theorem emitValid (hi : InverseBut hidden t) {ppt : P} {t' : Tables P E} (hs : t.NoSharing ppt kernel)
    (hh : ¬hidden ppt kernel) (h : t.emitValid ppt = some t') : InverseBut hidden t' := by
  obtain ⟨t₁,h₁,h⟩ := Option.bind_eq_some_iff.mp h
  obtain rfl := Option.some.inj h
  exact (hi.ensureRegistered hh h₁).emitPlain (hs.ensureRegistered h₁) hh

theorem emitRegistered (hi : InverseBut (fun _ _ => False) t) {e : E} {hyps : List (P × ℕ)} {auto : Bool} {ppt : P}
    {s : Emitted} {t' : Tables P E} (hk : t.KeepsOthers e ppt s)
    (h : t.emitRegistered e hyps auto ppt s = some t') : InverseBut (fun _ _ => False) t' := by
  unfold Tables.emitRegistered at h
  cases s with
  | true =>
    obtain rfl := Option.some.inj h
    exact hi.emitPlain hk.1 id
  | dontKnow =>
    obtain rfl := Option.some.inj h
    exact hi.emitPlain hk.1 id
  | falseAndReachable =>
    simp only at h
    split at h
    · obtain rfl := Option.some.inj h
      exact hi.emitPlain hk.1 id
    · cases h
  | falseIfReachable =>
    simp only at h
    split at h
    · cases h
    · rename_i hr
      split at h
      · have hf := hi.forgetPrevious hk.1
        split at h
        · rename_i ha
          obtain ⟨t₁,h₁,h⟩ := Option.bind_eq_some_iff.mp h
          obtain rfl := Option.some.inj h
          -- the reachability property is not the property, whose status is hidden
          have hne : ipReachablePpt ppt ≠ ppt := by
            intro hc
            rw [hc] at ha
            exact hr (isReachable_of_isAlwaysReachable ha)
          have hs : (t.forgetPrevious ppt e).NoSharing (ipReachablePpt ppt) kernel :=
            (hk.2 rfl ha).of_eq (by simp) (by simp)
          exact InverseBut.add id (hf.emitValid hs (by simp [hne]) h₁)
        · obtain rfl := Option.some.inj h
          exact hf.add id
      · cases h

end InverseBut

namespace Tables

theorem ensureRegistered_eq {t t' : Tables P E} {ppt : P} (h : t.ensureRegistered ppt = some t') :
    t' = t ∨ isAutoRegistered ppt = true ∧ t.status ppt = none ∧ t.register ppt = some t' := by
  unfold ensureRegistered at h
  split at h
  · exact Or.inl (Option.some.inj h).symm
  · rename_i hn
    split at h
    · rename_i ha
      exact Or.inr ⟨ha,by simpa using hn,h⟩
    · cases h

theorem KeepsOthers.ensureRegistered {t t' : Tables P E} {e : E} {ppt : P} {distinct : Bool} {s s' : Emitted}
    (hs : ∀ s', t.written e ppt distinct s = some s' → t.KeepsOthers e ppt s')
    (h : t.ensureRegistered ppt = some t') (hr : s' = .falseIfReachable → isReachable ppt = false)
    (hw : t'.written e ppt distinct s = some s') : t'.KeepsOthers e ppt s' := by
  obtain rfl | ⟨ha,hn,h⟩ := ensureRegistered_eq h
  · exact hs s' hw
  · refine ⟨noSharing_of_subsingleton (register_subsingleton h),?_⟩
    intro he hreach
    obtain rfl := register_eq h ha (hr he)
    have hf : ∀ u : Tables P E, u.entries ppt = [] → u.written e ppt distinct s = some s := by
      intro u hu
      simp [written,findEmitter,hu]
    have hs' : s = s' := by
      rw [hf _ (by simp [entries])] at hw
      exact Option.some.inj hw
    subst hs'
    refine ((hs s (hf t (by simp [entries,hn]))).2 he hreach).of_eq ?_ rfl
    by_cases hq : ipReachablePpt ppt = ppt
    · simp [entries,hq,hn]
    · simp [entries,hq]

theorem emitRegistered_reachable {t t' : Tables P E} {e : E} {hyps : List (P × ℕ)} {auto : Bool} {ppt : P} {s : Emitted}
    (h : t.emitRegistered e hyps auto ppt s = some t') : s = .falseIfReachable → isReachable ppt = false := by
  rintro rfl
  unfold emitRegistered at h
  simp only at h
  split at h
  · cases h
  · rename_i hr
    simpa using hr

theorem unsafeEmitAndGet_cases {t t' : Tables P E} {e : E} {hyps : List (P × ℕ)} {ppt : P} {distinct : Bool} {s : Emitted}
    (h : t.unsafeEmitAndGet e hyps false ppt distinct s = some t') :
    ∃ t₁, t.ensureRegistered ppt = some t₁ ∧
      (t' = t₁ ∨ ∃ s', t₁.written e ppt distinct s = some s' ∧ t₁.emitRegistered e hyps false ppt s' = some t') := by
  obtain ⟨t₁,h₁,h⟩ := Option.bind_eq_some_iff.mp h
  refine ⟨t₁,h₁,?_⟩
  simp only [Bool.false_eq_true,if_false] at h
  unfold written
  cases hf : t₁.findEmitter ppt e with
  | none =>
    simp only [hf] at h
    exact Or.inr ⟨s,rfl,h⟩
  | some x =>
    simp only [hf] at h ⊢
    cases distinct with
    | true =>
      simp only [if_true] at h ⊢
      cases hm : mergeDistinctEmitted s x.2 with
      | none =>
        simp only [hm] at h ⊢
        exact Or.inr ⟨_,rfl,h⟩
      | some first =>
        cases first with
        | true =>
          simp only [hm,if_true] at h ⊢
          exact Or.inr ⟨_,rfl,h⟩
        | false =>
          simp only [hm,Bool.false_eq_true,if_false] at h
          exact Or.inl (Option.some.inj h).symm
    | false =>
      simp only [Bool.false_eq_true,if_false] at h ⊢
      obtain ⟨first,hc,h⟩ := Option.bind_eq_some_iff.mp h
      cases first with
      | true =>
        simp only [hc,if_true] at h ⊢
        exact Or.inr ⟨_,rfl,h⟩
      | false =>
        simp only [Bool.false_eq_true,if_false] at h
        exact Or.inl (Option.some.inj h).symm

end Tables

theorem InverseBut.emit {t t' : Tables P E} (hi : InverseBut (fun _ _ => False) t) {e : E} {hyps : List (P × ℕ)}
    {ppt : P} {distinct : Bool} {s : Emitted}
    (hs : ∀ s', t.written e ppt distinct s = some s' → t.KeepsOthers e ppt s')
    (h : t.emit e hyps ppt distinct s = some t') : InverseBut (fun _ _ => False) t' := by
  unfold Tables.emit at h
  split at h
  · cases h
  · obtain ⟨t₁,h₁,h⟩ := Tables.unsafeEmitAndGet_cases h
    have hi₁ := hi.ensureRegistered id h₁
    obtain rfl | ⟨s',hw,h⟩ := h
    · exact hi₁
    · have hk := Tables.KeepsOthers.ensureRegistered hs h₁ (Tables.emitRegistered_reachable h) hw
      exact hi₁.emitRegistered hk h

theorem InverseBut.logicalConsequence {t t' : Tables P E} (hi : InverseBut (fun _ _ => False) t) {e : E}
    {hyps : List (P × ℕ)} {ppt : P} (hk : t.KeepsOthers e ppt .dontKnow)
    (h : t.unsafeEmitAndGet e hyps true ppt false .dontKnow = some t') : InverseBut (fun _ _ => False) t' := by
  obtain ⟨t₁,h₁,h⟩ := Option.bind_eq_some_iff.mp h
  simp only [if_true] at h
  apply (hi.ensureRegistered id h₁).emitRegistered _ h
  exact ⟨hk.1.ensureRegistered h₁,fun hc => by cases hc⟩

namespace Tables

theorem foldl_hooks (ppt : P) (l : List (ℕ × Emitted)) (t : Tables P E) :
    ((l.foldl (fun t x => t.applyHooksOnRemove x.1 ppt) t).record = t.record ∧
      (l.foldl (fun t x => t.applyHooksOnRemove x.1 ppt) t).status = t.status ∧
      (l.foldl (fun t x => t.applyHooksOnRemove x.1 ppt) t).next = t.next) ∧
    ∀ h q, q ∈ (l.foldl (fun t x => t.applyHooksOnRemove x.1 ppt) t).hypotheses h ↔
      q ∈ t.hypotheses h ∧ ¬(q.1 = ppt ∧ ∃ x ∈ l, h ∈ (t.record x.1).properties) := by
  induction l generalizing t with
  | nil => simp
  | cons x l ih =>
    obtain ⟨⟨hr,hs,hn⟩,hh⟩ := ih (t.applyHooksOnRemove x.1 ppt)
    have hrec : (t.applyHooksOnRemove x.1 ppt).record = t.record := rfl
    refine ⟨⟨hr,hs,hn⟩,?_⟩
    intro h q
    rw [List.foldl_cons,hh,mem_applyHooksOnRemove,hrec]
    simp only [List.mem_cons,exists_eq_or_imp]
    rw [and_or_left,not_or,and_assoc]

theorem mem_removeHyps {t : Tables P E} {ppt h : P} {q : P × ℕ} :
    q ∈ (t.removeHypsFromHypotheses ppt).hypotheses h ↔
      q ∈ t.hypotheses h ∧ ¬(q.1 = ppt ∧ ∃ x ∈ t.entries ppt, h ∈ (t.record x.1).properties) :=
  (foldl_hooks ppt _ t).2 h q

@[simp] theorem removeHyps_record (t : Tables P E) (ppt : P) :
    (t.removeHypsFromHypotheses ppt).record = t.record := (foldl_hooks ppt _ t).1.1
@[simp] theorem removeHyps_status (t : Tables P E) (ppt : P) :
    (t.removeHypsFromHypotheses ppt).status = t.status := (foldl_hooks ppt _ t).1.2.1
@[simp] theorem removeHyps_next (t : Tables P E) (ppt : P) :
    (t.removeHypsFromHypotheses ppt).next = t.next := (foldl_hooks ppt _ t).1.2.2
@[simp] theorem removeHyps_entries (t : Tables P E) (ppt q : P) :
    (t.removeHypsFromHypotheses ppt).entries q = t.entries q := by simp [entries]

def unbind (ppt : P) (t : Tables P E) : Tables P E :=
  let t := (t.removeHypsFromHypotheses ppt).removeHypsFromHypotheses ppt
  { t with status := Function.update t.status ppt none }

theorem remove_eq (t : Tables P E) (ppt : P × ℕ) :
    t.remove ppt = (t.removeWhenUsedAsHypothesis ppt).map (unbind ppt.1) := by
  unfold remove
  cases t.removeWhenUsedAsHypothesis ppt <;> rfl

theorem unbind_entries (t : Tables P E) (ppt q : P) :
    (t.unbind ppt).entries q = if q = ppt then [] else t.entries q := by
  by_cases hq : q = ppt
  · subst hq
    simp [unbind,entries]
  · simp [unbind,entries,hq]

theorem unbind_record (t : Tables P E) (ppt : P) : (t.unbind ppt).record = t.record := by simp [unbind]

theorem mem_unbind_hypotheses {t : Tables P E} {ppt h : P} {q : P × ℕ} :
    q ∈ (t.unbind ppt).hypotheses h ↔
      q ∈ t.hypotheses h ∧ ¬(q.1 = ppt ∧ ∃ x ∈ t.entries ppt, h ∈ (t.record x.1).properties) := by
  simp only [unbind,mem_removeHyps,removeHyps_entries,removeHyps_record]
  tauto

end Tables

theorem InverseBut.unbind {t : Tables P E} (hi : InverseBut (fun _ _ => False) t) (ppt : P) :
    InverseBut (fun _ _ => False) (t.unbind ppt) := by
  constructor
  · intro q x hx
    rw [Tables.unbind_entries] at hx
    split at hx
    · cases hx
    · simpa [Tables.unbind] using hi.fresh q x hx
  · intro q x hx y hy
    rw [Tables.unbind_entries] at hx hy
    rw [Tables.unbind_record]
    split at hx
    · cases hx
    · rename_i hq
      rw [if_neg hq] at hy
      exact hi.distinct q x hx y hy
  · intro h q a
    rw [Tables.mem_unbind_hypotheses,hi.listed,Tables.unbind_record,Tables.unbind_entries]
    by_cases hq : q = ppt
    · subst hq
      simp only [if_true,List.not_mem_nil,false_and,exists_false,and_false,iff_false]
      rintro ⟨⟨_,_,s,hm,hp⟩,hk⟩
      exact hk ⟨trivial,_,hm,hp⟩
    · simp [hq]

theorem InverseBut.remove {t t' : Tables P E} (hi : InverseBut (fun _ _ => False) t) {ppt : P × ℕ}
    (hu : isOther ppt.1 = false → t.Unused ppt.1) (h : t.remove ppt = some t') :
    InverseBut (fun _ _ => False) t' := by
  have hnil : t.hypotheses ppt.1 = [] := by
    apply List.eq_nil_iff_forall_not_mem.mpr
    intro q hq
    obtain ⟨ho,-,s,hm,hp⟩ := (hi.listed ppt.1 q.1 q.2).mp hq
    exact hu ho q.1 _ hm hp
  rw [Tables.remove_eq,Tables.removeWhenUsedAsHypothesis,hnil] at h
  obtain rfl := Option.some.inj h
  exact hi.unbind ppt.1

theorem InverseBut.step {t t' : Tables P E} (hi : InverseBut (fun _ _ => False) t) {op : Op P E} (hs : op.Safe t)
    (h : op.exec t = some t') : InverseBut (fun _ _ => False) t' := by
  cases op with
  | register ppt => exact hi.register id h
  | emit e hyps ppt distinct s => exact hi.emit hs h
  | logicalConsequence e ppt hyps => exact hi.logicalConsequence hs h
  | remove ppt => exact hi.remove hs h

theorem SafeRun.inverseBut {t : Tables P E} (h : SafeRun t) : InverseBut (fun _ _ => False) t := by
  induction h with
  | init => exact InverseBut.init
  | step op _ hs he ih => exact ih.step hs he

theorem InverseBut.inverse {t : Tables P E} (hi : InverseBut (fun _ _ => False) t) : t.Inverse := by
  intro h p e ho
  constructor
  · rintro ⟨a,hm,he⟩
    obtain ⟨-,-,s,hs,hp⟩ := (hi.listed h p a).mp hm
    exact ⟨_,hs,he,hp⟩
  · rintro ⟨x,hx,he,hp⟩
    exact ⟨x.1,(hi.listed h p x.1).mpr ⟨ho,not_false,x.2,hx,hp⟩,he⟩

/-- A removal only loses statuses and hypotheses. -/
structure Shrinks (t t' : Tables P E) : Prop where
  emitter : ∀ a, (t'.record a).emitter = (t.record a).emitter
  consequence : ∀ a, (t'.record a).logicalConsequence = (t.record a).logicalConsequence
  objects : ∀ a, (t'.record a).objects ⊆ (t.record a).objects
  entries : ∀ p, t'.entries p ⊆ t.entries p
  bound : ∀ p, (t'.status p).isSome = (t.status p).isSome

theorem Shrinks.refl (t : Tables P E) : Shrinks t t :=
  ⟨fun _ => rfl,fun _ => rfl,fun _ => List.Subset.refl _,fun _ => List.Subset.refl _,fun _ => rfl⟩

theorem Shrinks.trans {t₁ t₂ t₃ : Tables P E} (h : Shrinks t₁ t₂) (k : Shrinks t₂ t₃) : Shrinks t₁ t₃ where
  emitter a := (k.emitter a).trans (h.emitter a)
  consequence a := (k.consequence a).trans (h.consequence a)
  objects a _ hx := h.objects a (k.objects a hx)
  entries p _ hx := h.entries p (k.entries p hx)
  bound p := (k.bound p).trans (h.bound p)

/-- A listed use is gone: a consequence lost the hypothesis, another status was removed. -/
structure Gone (hyp : P × ℕ) (q : P × ℕ) (t : Tables P E) : Prop where
  consequence : (t.record q.2).logicalConsequence = true → hyp ∉ (t.record q.2).objects
  status : (t.record q.2).logicalConsequence = false →
    ∀ x ∈ t.entries q.1, (t.record x.1).emitter ≠ (t.record q.2).emitter

theorem Gone.shrinks {hyp q : P × ℕ} {t t' : Tables P E} (hg : Gone hyp q t) (hs : Shrinks t t') :
    Gone hyp q t' where
  consequence hc hm := hg.consequence (by rw [← hs.consequence]; exact hc) (hs.objects _ hm)
  status hc x hx := by
    rw [hs.emitter,hs.emitter]
    exact hg.status (by rw [← hs.consequence]; exact hc) x (hs.entries _ hx)

theorem removeUse_spec (hyp : P × ℕ) {q : P × ℕ} {t : Tables P E} (hb : (t.status q.1).isSome = true) :
    ∃ t', Tables.removeUse hyp t q = some t' ∧ Shrinks t t' ∧ Gone hyp q t' := by
  obtain ⟨l,hl⟩ := Option.isSome_iff_exists.mp hb
  simp only [Tables.removeUse,hl]
  by_cases hc : (t.record q.2).logicalConsequence = true
  · simp only [hc,if_true]
    refine ⟨_,rfl,⟨?_,?_,?_,fun _ => List.Subset.refl _,fun _ => rfl⟩,⟨by simp,by simp⟩⟩
    · intro a
      by_cases ha : a = q.2 <;> simp [ha]
    · intro a
      by_cases ha : a = q.2 <;> simp [ha,hc]
    · intro a
      by_cases ha : a = q.2
      · subst ha
        simp
      · simp [ha]
  · simp only [hc]
    refine ⟨_,rfl,⟨fun _ => rfl,fun _ => rfl,fun _ => List.Subset.refl _,?_,?_⟩,⟨?_,?_⟩⟩
    · intro p
      by_cases hp : p = q.1
      · subst hp
        simp [Tables.entries,hl]
      · simp [Tables.entries,hp]
    · intro p
      by_cases hp : p = q.1
      · subst hp
        simp [hl]
      · simp [hp]
    · intro h
      exact absurd h hc
    · intro _ x hx
      simp only [Tables.entries,Function.update_self,Option.getD_some,List.mem_filter] at hx
      simpa using hx.2

theorem foldlM_removeUse (hyp : P × ℕ) (l : List (P × ℕ)) (t : Tables P E)
    (hb : ∀ q ∈ l, (t.status q.1).isSome = true) :
    ∃ t', l.foldlM (Tables.removeUse hyp) t = some t' ∧ Shrinks t t' ∧ ∀ q ∈ l, Gone hyp q t' := by
  induction l generalizing t with
  | nil => exact ⟨t,rfl,Shrinks.refl t,by simp⟩
  | cons q l ih =>
    obtain ⟨t₁,h₁,hs₁,hg₁⟩ := removeUse_spec hyp (hb q List.mem_cons_self)
    obtain ⟨t₂,h₂,hs₂,hg₂⟩ := ih t₁ (fun p hp => by rw [hs₁.bound]; exact hb p (List.mem_cons_of_mem q hp))
    refine ⟨t₂,?_,hs₁.trans hs₂,?_⟩
    · rw [List.foldlM_cons,h₁]
      exact h₂
    · intro p hp
      rcases List.mem_cons.mp hp with rfl | hp
      · exact hg₁.shrinks hs₂
      · exact hg₂ p hp

/-- Where the tables are inverse of each other, every property can be removed, and no status that remains
uses it when its occurrences in the consequences are physically the removed one. -/
theorem InverseBut.remove_spec {t : Tables P E} (hi : InverseBut (fun _ _ => False) t) (ppt : P × ℕ) :
    ∃ t', t.remove ppt = some t' ∧
      (isOther ppt.1 = false → (∀ a, (t.record a).logicalConsequence = true →
        ∀ o ∈ (t.record a).objects, o.1 = ppt.1 → o = ppt) → t'.Unused ppt.1) := by
  obtain ⟨t₁,h₁,hs,hg⟩ := foldlM_removeUse ppt (t.hypotheses ppt.1) t (by
    intro q hq
    obtain ⟨-,-,s,hm,-⟩ := (hi.listed ppt.1 q.1 q.2).mp hq
    cases hn : t.status q.1 with
    | none => simp [Tables.entries,hn] at hm
    | some l => rfl)
  refine ⟨t₁.unbind ppt.1,?_,?_⟩
  · rw [Tables.remove_eq,Tables.removeWhenUsedAsHypothesis,h₁]
    rfl
  · intro ho hsame p x hx hp
    rw [Tables.unbind_entries] at hx
    rw [Tables.unbind_record] at hp
    split at hx
    · cases hx
    · obtain ⟨o,hmem,hop⟩ := List.mem_map.mp hp
      have hmem' := hs.objects _ hmem
      have hq : (p,x.1) ∈ t.hypotheses ppt.1 :=
        (hi.listed ppt.1 p x.1).mpr ⟨ho,not_false,x.2,hs.entries p hx,List.mem_map.mpr ⟨o,hmem',hop⟩⟩
      have hgone := hg _ hq
      cases hc : (t₁.record x.1).logicalConsequence with
      | true =>
        have ho' := hsame x.1 (by rw [← hs.consequence]; exact hc) o hmem' hop
        exact hgone.consequence hc (ho' ▸ hmem)
      | false => exact hgone.status hc x hx rfl

/-- Along the runs that neither emit again a status whose hypotheses another emitter shares nor remove a
property in use, the tables are inverse of each other, every property can be removed, and a removed
property is used by no status. -/
theorem tables_inverse {t : Tables P E} (h : SafeRun t) :
    t.Inverse ∧ ∀ ppt : P × ℕ, ∃ t', t.remove ppt = some t' ∧
      (isOther ppt.1 = false → (∀ a, (t.record a).logicalConsequence = true →
        ∀ o ∈ (t.record a).objects, o.1 = ppt.1 → o = ppt) → t'.Unused ppt.1) :=
  ⟨h.inverseBut.inverse,h.inverseBut.remove_spec⟩

/-- A status of `goal` under the hypothesis `hyp`. -/
def provedUnder (e : Prover) (s : Emitted) : Op Annot Prover := .emit e [(.hyp,0)] .goal false s

def registerBoth : List (Op Annot Prover) := [.register .goal,.register .hyp]

/-- Removing a hypothesis in use leaves its own entry, and removing then the goal makes the next removal
of the hypothesis fail; emitting again by one prover loses the entry of the other. -/
theorem tables_not_inverse :
    ¬(∀ (ops : List (Op Annot Prover)) (t : Tables Annot Prover), run ops = some t → t.Inverse) ∧
    ¬(∀ (ops : List (Op Annot Prover)) (t : Tables Annot Prover), run ops = some t →
      (t.remove (.hyp,0)).isSome = true) ∧
    ¬(∀ (ops : List (Op Annot Prover)) (t t' : Tables Annot Prover), run ops = some t →
      t.remove (.hyp,0) = some t' → t'.Unused .hyp) := by
  refine ⟨?_,?_,?_⟩
  · intro hall
    have h := hall (registerBoth ++ [provedUnder .wp .true,.remove (.hyp,0)]) _ rfl .hyp .goal .wp rfl
    have hl := h.mp ⟨0,by decide,by decide⟩
    revert hl
    decide
  · intro hall
    have h := hall (registerBoth ++ [provedUnder .wp .true,.remove (.hyp,0),.remove (.goal,0)]) _ rfl
    revert h
    decide
  · intro hall
    have h := hall (registerBoth ++ [provedUnder .wp .dontKnow,provedUnder .eva .true,provedUnder .wp .true]) _ _
      rfl rfl .goal (1,.true) (by decide)
    revert h
    decide

/-- Two provers share a hypothesis, and each emits once. -/
theorem tables_inverse_two_provers :
    ∃ t : Tables Annot Prover, run (registerBoth ++ [provedUnder .wp .true,provedUnder .eva .true]) = some t ∧
      SafeRun t ∧ t.Inverse := by
  have h₀ : SafeRun (Tables.init : Tables Annot Prover) := SafeRun.init
  have h₂ := (h₀.step (Op.register .goal) trivial rfl).step (Op.register .hyp) trivial rfl
  have h₃ := h₂.step (provedUnder .wp .true) (by
    intro s' _
    exact ⟨Tables.noSharing_of_subsingleton (by decide),fun _ h => by cases h⟩) rfl
  have h₄ := h₃.step (provedUnder .eva .true) (by
    intro s' _
    exact ⟨Tables.noSharing_of_subsingleton (by decide),fun _ h => by cases h⟩) rfl
  exact ⟨_,rfl,h₄,(tables_inverse h₄).1⟩

end FramaC.PropertyStatus
