import FramaC.EqualityDomain.Deps
import FramaC.Lib.Outcome

/-! # The states of the equality domain

`Internal` and `kill` of `equality_domain.ml`. The sets of equalities enter by the operations these functions call; a
zone is `none` at top. `fold_tree` on the lvalues that a set has lost is a fold on the list of its leaves.
-/
namespace FramaC.EqualityDomain

set_option linter.unusedSectionVars false

inductive KillType
  | modified
  | deleted
  deriving DecidableEq, Repr

/-- The operations on sets of equalities; `remove` fails where its assertion does. -/
structure EqualitySet (S E L : Type) where
  empty : S
  inter : S → S → S
  remove : KillType → L → S → Option S
  lvaluesOnlyLeft : S → S → List E

/-- The part of `Equality.Set` that `kill` relies on: once removed, an lvalue is in no equality, and the removal of
another one does not bring it back. -/
structure EqualitySet.Lawful {S E L : Type} (q : EqualitySet S E L) (Wf : S → Prop) (On : S → L → Prop) : Prop where
  wf_remove : ∀ kt a s s', Wf s → q.remove kt a s = some s' → Wf s'
  remove_self : ∀ kt a s s', Wf s → q.remove kt a s = some s' → ¬ On s' a
  remove_other : ∀ kt a c s s', Wf s → q.remove kt a s = some s' → On s' c → On s c

/-- The intervals that are left of an interval, `none` at bottom. -/
class IntervalsDiff (I : Type) extends Intervals I where
  diff : I → I → Option I

def Zone.diff {B I : Type} [DecidableEq B] [IntervalsDiff I] (z1 z2 : Zone B I) : Zone B I where
  bases := z1.bases.filter fun b => decide (b ∉ z2.bases) || (IntervalsDiff.diff (z1.itvs b) (z2.itvs b)).isSome
  itvs b := if b ∈ z2.bases then (IntervalsDiff.diff (z1.itvs b) (z2.itvs b)).getD (z1.itvs b) else z1.itvs b

structure State (S E B I : Type) where
  equalities : S
  deps : Deps E B I
  modifiedZone : Option (Zone B I)

variable {S E L B I : Type} [DecidableEq E] [DecidableEq B] [IntervalsDiff I]

namespace Deps

def removeAll (es : List E) (d : Deps E B I) : Deps E B I := es.foldl (fun d e => d.remove e) d

end Deps

namespace State

variable (q : EqualitySet S E L)

def top : State S E B I := ⟨q.empty,Deps.empty,none⟩

/-- The dependencies of a state on the lvalues that the equalities `e'` still have. -/
def kept (s : State S E B I) (e' : S) : Deps E B I := s.deps.removeAll (q.lvaluesOnlyLeft s.equalities e')

def join (s1 s2 : State S E B I) : State S E B I :=
  let e' := q.inter s1.equalities s2.equalities
  ⟨e',(s1.kept q e').join (s2.kept q e'),
    s1.modifiedZone.bind fun z1 => s2.modifiedZone.map fun z2 => z1.join z2⟩

def killModified (kt : KillType) (zone : Zone B I) (modified : Option (Zone B I)) : Option (Zone B I) :=
  match kt with
  | .modified => modified.map fun z => z.join zone
  | .deleted => modified.map fun z => z.diff zone

def kill (toLval : E → Option L) (kt : KillType) (zone : Option (Zone B I)) (s : State S E B I) :
    Option (State S E B I) :=
  match zone with
  | none => some (top q)
  | some zone =>
    let modified := killModified kt zone s.modifiedZone
    match s.deps.intersects zone with
    | [] => some ⟨s.equalities,s.deps,modified⟩
    | atoms =>
      (atoms.mapM toLval).bind fun lvals =>
        (lvals.foldlM (fun eq a => q.remove kt a eq) s.equalities).map fun equalities' =>
          ⟨equalities',s.kept q equalities',modified⟩

end State

end FramaC.EqualityDomain

/-! ## Runs of the equality domain

The dependencies that `empty`, `add`, `remove`, `join` and `concat` build, and what `kill` does with them. A join unites
the two zones of a term but keeps it at a base only when both sides list it there, so the inverse map stays complete
exactly when each side already lists the term at the bases of the other side.
-/
namespace FramaC.EqualityDomain

set_option linter.unusedSectionVars false

variable {S E L B I : Type} [DecidableEq E] [DecidableEq B] [IntervalsDiff I]

/-- The dependencies reached from the empty ones by steps whose joins are all of sides related by `cond`. -/
inductive Reach (cond : Deps E B I → Deps E B I → Prop) : Deps E B I → Prop
  | empty : Reach cond Deps.empty
  | add (d : Deps E B I) (e : E) (z : Zone B I) : Reach cond d → Reach cond (d.add e z)
  | remove (d : Deps E B I) (e : E) : Reach cond d → Reach cond (d.remove e)
  | join (d1 d2 : Deps E B I) : Reach cond d1 → Reach cond d2 → cond d1 d2 → Reach cond (d1.join d2)
  | concat (d1 d2 : Deps E B I) : Reach cond d1 → Reach cond d2 → Reach cond (d1.concat d2)

theorem Reach.complete {d : Deps E B I} (h : Reach Deps.Listed d) : d.Complete := by
  induction h with
  | empty => exact Deps.complete_empty
  | add d e z _ ih => exact Deps.complete_add ih e z
  | remove d e _ ih => exact Deps.complete_remove ih e
  | join d1 d2 _ _ hl ih1 ih2 => exact (Deps.complete_join_iff ih1 ih2).2 hl
  | concat d1 d2 _ _ ih1 ih2 => exact Deps.complete_concat ih1 ih2

theorem Reach.removeAll {cond : Deps E B I → Deps E B I → Prop} (es : List E) {d : Deps E B I} (h : Reach cond d) :
    Reach cond (d.removeAll es) := by
  induction es generalizing d with
  | nil => exact h
  | cons e es ih => exact ih (Reach.remove d e h)

section Kill

variable {q : EqualitySet S E L} {Wf : S → Prop} {On : S → L → Prop}

theorem foldlM_remove (hq : q.Lawful Wf On) (kt : KillType) (lvals : List L) {s s' : S} (hwf : Wf s)
    (h : lvals.foldlM (fun eq a => q.remove kt a eq) s = some s') :
    (∀ c, On s' c → On s c) ∧ ∀ a ∈ lvals, ¬ On s' a := by
  induction lvals generalizing s with
  | nil =>
    cases h
    exact ⟨fun _ hc => hc,fun a ha => absurd ha List.not_mem_nil⟩
  | cons a lvals ih =>
    rw [List.foldlM_cons,Option.bind_eq_bind,Option.bind_eq_some_iff] at h
    obtain ⟨s1,hs1,h⟩ := h
    obtain ⟨hback,hgone⟩ := ih (hq.wf_remove kt a s s1 hwf hs1) h
    constructor
    · intro c hc
      exact hq.remove_other kt a c s s1 hwf hs1 (hback c hc)
    · intro c hc hon
      rcases List.mem_cons.1 hc with rfl | hc
      · exact hq.remove_self kt c s s1 hwf hs1 (hback c hon)
      · exact hgone c hc hon

theorem foldlM_remove_some (hq : q.Lawful Wf On) (kt : KillType)
    (hsome : ∀ a s, Wf s → ∃ s', q.remove kt a s = some s') (lvals : List L) {s : S} (hwf : Wf s) :
    ∃ s', lvals.foldlM (fun eq a => q.remove kt a eq) s = some s' := by
  have hstep : ∀ s a, a ∈ lvals → Wf s → ∃ s', q.remove kt a s = some s' ∧ Wf s' := by
    intro s a _ hwf
    obtain ⟨s',hs'⟩ := hsome a s hwf
    exact ⟨s',hs',hq.wf_remove kt a s s' hwf hs'⟩
  obtain ⟨s',hs',_⟩ := Outcome.foldlM_returns hwf hstep
  exact ⟨s',hs'⟩

theorem mapM_toLval_some {toLval : E → Option L} (es : List E) (h : ∀ e ∈ es, ∃ a, toLval e = some a) :
    ∃ lvals, es.mapM toLval = some lvals := by
  induction es with
  | nil => exact ⟨[],rfl⟩
  | cons e es ih =>
    obtain ⟨a,ha⟩ := h e List.mem_cons_self
    obtain ⟨lvals,hl⟩ := ih (fun x hx => h x (List.mem_cons_of_mem e hx))
    refine ⟨a :: lvals,?_⟩
    simp [List.mapM_cons,ha,hl]

theorem mem_of_mapM {toLval : E → Option L} {es : List E} {lvals : List L} (h : es.mapM toLval = some lvals)
    {e : E} (he : e ∈ es) {a : L} (ha : toLval e = some a) : a ∈ lvals := by
  induction es generalizing lvals with
  | nil => cases he
  | cons x es ih =>
    simp only [List.mapM_cons,Option.bind_eq_bind,Option.bind_eq_some_iff,Option.pure_def,
      Option.some.injEq] at h
    obtain ⟨c,hc,ls,hls,rfl⟩ := h
    rcases List.mem_cons.1 he with rfl | he
    · rw [ha] at hc
      cases hc
      exact List.mem_cons_self
    · exact List.mem_cons_of_mem c (ih hls he)

theorem kill_eq (toLval : E → Option L) (kt : KillType) (z : Zone B I) (s : State S E B I) :
    State.kill q toLval kt (some z) s =
      if s.deps.intersects z = [] then
        some ⟨s.equalities,s.deps,State.killModified kt z s.modifiedZone⟩
      else ((s.deps.intersects z).mapM toLval).bind fun lvals =>
        (lvals.foldlM (fun eq a => q.remove kt a eq) s.equalities).map fun equalities' =>
          ⟨equalities',s.kept q equalities',State.killModified kt z s.modifiedZone⟩ := by
  simp only [State.kill]
  generalize s.deps.intersects z = atoms
  cases atoms with
  | nil => rfl
  | cons e es => rfl

theorem kill_removes (hq : q.Lawful Wf On) {toLval : E → Option L} {kt : KillType} {z : Zone B I}
    {s s' : State S E B I} (hwf : Wf s.equalities) (h : State.kill q toLval kt (some z) s = some s')
    {e : E} {a : L} (he : e ∈ s.deps.intersects z) (ha : toLval e = some a) : ¬ On s'.equalities a := by
  rw [kill_eq,if_neg (List.ne_nil_of_mem he),Option.bind_eq_some_iff] at h
  obtain ⟨lvals,hl,h⟩ := h
  obtain ⟨eqs,heqs,rfl⟩ := Option.map_eq_some_iff.1 h
  exact (foldlM_remove hq kt lvals hwf heqs).2 a (mem_of_mapM hl he ha)

theorem kill_some (hq : q.Lawful Wf On) {toLval : E → Option L} {kt : KillType} {z : Zone B I}
    {s : State S E B I} (hwf : Wf s.equalities) (hsome : ∀ a t, Wf t → ∃ t', q.remove kt a t = some t')
    (hlval : ∀ e ∈ s.deps.intersects z, ∃ a, toLval e = some a) :
    ∃ s', State.kill q toLval kt (some z) s = some s' := by
  rw [kill_eq]
  split
  · exact ⟨_,rfl⟩
  · obtain ⟨lvals,hl⟩ := mapM_toLval_some _ hlval
    obtain ⟨eqs,heqs⟩ := foldlM_remove_some hq kt hsome lvals hwf
    rw [hl,Option.bind_some,heqs]
    exact ⟨_,rfl⟩

theorem Reach.kill {cond : Deps E B I → Deps E B I → Prop} {toLval : E → Option L} {kt : KillType}
    {zone : Option (Zone B I)} {s s' : State S E B I} (hs : Reach cond s.deps)
    (h : State.kill q toLval kt zone s = some s') : Reach cond s'.deps := by
  cases zone with
  | none =>
    cases h
    exact Reach.empty
  | some z =>
    rw [kill_eq] at h
    split at h
    · cases h
      exact hs
    · obtain ⟨lvals,_,h⟩ := Option.bind_eq_some_iff.1 h
      obtain ⟨eqs,_,rfl⟩ := Option.map_eq_some_iff.1 h
      exact hs.removeAll _

end Kill

end FramaC.EqualityDomain
