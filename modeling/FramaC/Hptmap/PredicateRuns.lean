import FramaC.Hptmap.Predicates
import FramaC.Hptmap.Fold2

/-! # Runs of predicates and folds

Every cached predicate shares its cache between calls. A new or cleared cache matches two empty
maps and holds a false bit there, which is not the answer of a universal predicate.
-/
set_option linter.unusedSectionVars false
namespace FramaC.Hptmap
open BigEndian Tree BinaryCache Memo Simulation
variable {K V W R : Type} [DecidableEq K] [DecidableEq V] [DecidableEq W] [Key K]

def predicateTable (env : Option (Option ℤ)) (hash : Tree K V → NativeInt) (symmetric : Bool) :
    Table (Tree K V × Tree K V) Bool :=
  if symmetric then BinaryCache.symmetricBinaryPredicate env (cacheable hash)
  else BinaryCache.binaryPredicate env (cacheable hash) (cacheable hash)

/-- The function is called on the arguments in the order of the cache. -/
def cachePredicate (cache : CacheType) (t : Table (Tree K V × Tree K V) Bool) :
    CachePredicate (Option t.State) K V := fun f x y =>
  match cache with
  | .noCache => f x y
  | .persistentCache _ | .temporaryCache _ => t.memo (x,y) (f (t.order (x,y)).1 (t.order (x,y)).2)

/-- Only persistent caches are registered in `clear_caches`. -/
def clearRegistered {A B : Type} (cache : CacheType) (t : Table A B) : Option t.State → Option (Option t.State) :=
  match cache with
  | .persistentCache _ => t.clearAll
  | .noCache | .temporaryCache _ => some

section Functions
variable (env : Option (Option ℤ)) (hash : Tree K V → NativeInt)

def binaryPredicate (ct : CacheType) (pt : PredicateType) (decideFast : Tree K V → Tree K V → PredicateResult)
    (decideFst decideSnd : K → V → Bool) (decideBoth : K → V → V → Bool) (s t : Tree K V) :
    (predicateTable env hash false).M Bool :=
  makeBinaryPredicate (cachePredicate ct (predicateTable env hash false)) pt decideFast
    ⟨decideFst,decideSnd,decideBoth⟩ s t

def symmetricBinaryPredicate (ct : CacheType) (pt : PredicateType)
    (decideFast : Tree K V → Tree K V → PredicateResult) (decideOne : K → V → Bool) (decideBoth : K → V → V → Bool)
    (s t : Tree K V) : (predicateTable env hash true).M Bool :=
  makeBinaryPredicate (cachePredicate ct (predicateTable env hash true)) pt decideFast
    ⟨decideOne,decideOne,decideBoth⟩ s t

def genericPredicate (name : String) (decideFast : Tree K V → Tree K V → Option DecideFast)
    (decideFst decideSnd : K → V → Bool) (decideBoth : V → V → Bool) (s t : Tree K V) :
    (predicateTable env hash false).M Bool :=
  makePredicate (cachePredicate (.persistentCache name) (predicateTable env hash false)) decideFast
    ⟨decideFst,decideSnd,decideBoth⟩ s t

def genericSymmetricPredicate (decideFast : Tree K V → Tree K V → Option DecideFast) (decideOne : K → V → Bool)
    (decideBoth : V → V → Bool) (s t : Tree K V) : (predicateTable env hash true).M Bool :=
  makePredicate (cachePredicate (.persistentCache "") (predicateTable env hash true)) decideFast
    ⟨decideOne,decideOne,decideBoth⟩ s t

end Functions

theorem SameKey.symm {symmetric : Bool} {a b : Tree K V × Tree K V} (h : SameKey symmetric a b) :
    SameKey symmetric b a := by
  rcases h with rfl | ⟨hs,rfl⟩
  · exact .inl rfl
  · exact .inr ⟨hs,rfl⟩

theorem predicateTable_spec (env : Option (Option ℤ)) (hash : Tree K V → NativeInt) (symmetric : Bool) :
    ∃ Good, (∀ Valid, (predicateTable env hash symmetric).Stores Good Valid (SameKey symmetric)) ∧
      (predicateTable env hash symmetric).Blanks Good (fun a => a = (empty,empty)) false := by
  have hrefl : (cacheable hash).equal (cacheable hash).sentinel (cacheable hash).sentinel = true := rfl
  cases symmetric with
  | true =>
    refine ⟨SizedBits env,fun Valid => ?_,symmetricBinaryPredicate_blanks env (cacheable hash) hrefl⟩
    have hstores : (BinaryCache.symmetricBinaryPredicate env (cacheable hash)).Stores (SizedBits env) Valid UpToOrder :=
      symmetricBinaryPredicate_stores env (cacheable hash)
    refine ⟨fun a => (hstores.order_same a).imp id fun h => ⟨rfl,h⟩,hstores.get_ok,fun s a r hs => ?_⟩
    obtain ⟨s',h1,h2,h3⟩ := hstores.set_ok s a r hs
    exact ⟨s',h1,h2,fun b r' hb hr => (h3 b r' hb hr).imp (And.imp_left fun h => h.imp id fun h => ⟨rfl,h⟩) id⟩
  | false =>
    refine ⟨SizedBits env,fun Valid => ?_,binaryPredicate_blanks env (cacheable hash) (cacheable hash) hrefl hrefl⟩
    have hstores : (BinaryCache.binaryPredicate env (cacheable hash) (cacheable hash)).Stores (SizedBits env) Valid Eq :=
      binaryPredicate_stores env (cacheable hash) (cacheable hash)
    refine ⟨fun a => .inl (hstores.order_same a).symm,hstores.get_ok,fun s a r hs => ?_⟩
    obtain ⟨s',h1,h2,h3⟩ := hstores.set_ok s a r hs
    exact ⟨s',h1,h2,fun b r' hb hr => (h3 b r' hb hr).imp (And.imp_left fun h => .inl h.symm) id⟩

theorem cachePredicate_caching {t : Table (Tree K V × Tree K V) Bool} {Good : t.State → Prop}
    {Valid : Tree K V × Tree K V → Prop} {symmetric : Bool} {F : Tree K V × Tree K V → Bool} (cache : CacheType)
    (hst : t.Stores Good Valid (SameKey symmetric)) (hm : cache ≠ .noCache → t.Starts Good Valid F)
    (hF : cache ≠ .noCache → ∀ a b, SameKey symmetric a b → F a = F b) :
    Caching (t.Inv Good Valid F) F Valid symmetric (cachePredicate cache t) := by
  intro f x y hvalid hf
  have hmemo : cache ≠ .noCache →
      Returns (t.Inv Good Valid F) (F (x,y)) (t.memo (x,y) (f (t.order (x,y)).1 (t.order (x,y)).2)) := by
    intro hne
    refine hst.memo_returns (hm hne) (hF hne) hvalid ?_
    rw [← hF hne _ _ (hst.order_same (x,y))]
    exact hf _ (hst.order_same (x,y)).symm
  cases cache with
  | noCache => exact hf _ (.inl rfl)
  | persistentCache name => exact hmemo (by simp)
  | temporaryCache name => exact hmemo (by simp)

theorem clearRegistered_inv {A B : Type} {t : Table A B} {Good : t.State → Prop} {Valid : A → Prop} {F : A → B}
    (cache : CacheType) (h : cache ≠ .noCache → t.Restarts Good Valid F) (st : Option t.State)
    (hst : t.Inv Good Valid F st) : ∃ st', clearRegistered cache t st = some st' ∧ t.Inv Good Valid F st' := by
  cases cache with
  | noCache => exact ⟨st,rfl,hst⟩
  | persistentCache name => exact (h (by simp)).clearAll hst
  | temporaryCache name => exact ⟨st,rfl,hst⟩

/-- In every run of calls and clears from an unused cache, on canonical trees of which none is in
`Except`, every call returns whether `P` holds. -/
def RunsDecide {σ : Type} (call : Tree K V → Tree K V → StateT (Option σ) Option Bool)
    (clear : Option σ → Option (Option σ)) (P Except : Tree K V × Tree K V → Prop) : Prop :=
  ∀ steps : List (Step (Tree K V × Tree K V)),
    (∀ a, .call a ∈ steps → a.1.Canonical ∧ a.2.Canonical ∧ ¬ Except a) →
    ∃ vs st, runSteps (fun a => call a.1 a.2) clear steps none = some (vs,st) ∧
      List.Forall₂ (fun a v => v = true ↔ P a) (steps.filterMap Step.call?) vs

theorem runsDecide {σ : Type} {I : Option σ → Prop} {call : Tree K V → Tree K V → StateT (Option σ) Option Bool}
    {clear : Option σ → Option (Option σ)} {pt : PredicateType} {d : Decisions K V}
    {Except : Tree K V × Tree K V → Prop}
    (hcall : ∀ s t : Tree K V, s.Canonical → t.Canonical → ¬ Except (s,t) → Returns I (value pt d (s,t)) (call s t))
    (hclear : ∀ s, I s → ∃ s', clear s = some s' ∧ I s') (h0 : I none) :
    RunsDecide call clear (PredicateHolds pt d) Except := by
  intro steps hsteps
  have hcall' : ∀ a, .call a ∈ steps → Returns I (value pt d a) (call a.1 a.2) := by
    intro a ha
    obtain ⟨h1,h2,h3⟩ := hsteps a ha
    exact hcall a.1 a.2 h1 h2 h3
  obtain ⟨st,h1,-⟩ := runSteps_ok hcall' hclear h0
  refine ⟨_,st,h1,?_⟩
  rw [List.forall₂_map_right_iff]
  exact List.forall₂_same.mpr fun a _ => value_eq_true

section Binary
variable (env : Option (Option ℤ)) (hash : Tree K V → NativeInt)

def AtSentinel (pt : PredicateType) (cache : CacheType) (a : Tree K V × Tree K V) : Prop :=
  pt = .universalPredicate ∧ cache ≠ .noCache ∧ a = (empty,empty)

theorem value_sameKey {pt : PredicateType} {d : Decisions K V} {symmetric : Bool} (hd : symmetric = true → d.Symmetric)
    {a b : Tree K V × Tree K V} (h : SameKey symmetric a b) : value pt d a = value pt d b := by
  rcases h with rfl | ⟨hs,rfl⟩
  · rfl
  · exact (value_swap (hd hs) a.1 a.2).symm

theorem value_sentinel {pt : PredicateType} {cache : CacheType} {d : Decisions K V} (hcache : cache ≠ .noCache)
    (a : Tree K V × Tree K V) (hvalid : ¬ AtSentinel pt cache a) (ha : a = (empty,empty)) : value pt d a = false := by
  subst ha
  rw [value_empty]
  cases pt with
  | universalPredicate => exact absurd ⟨rfl,hcache,rfl⟩ hvalid
  | existentialPredicate => rfl

def ReadsSentinel (pt : PredicateType) (cache : CacheType) (decideFast : Tree K V → Tree K V → PredicateResult)
    (a : Tree K V × Tree K V) : Prop := AtSentinel pt cache a ∧ decideFast empty empty = .pUnknown

/-- The call returns whether `P` holds. -/
def Answers {σ : Type} (r : Option (Bool × σ)) (P : Prop) : Prop := ∃ v st, r = some (v,st) ∧ (v = true ↔ P)

variable (pt : PredicateType) (d : Decisions K V) {symmetric : Bool} (hd : symmetric = true → d.Symmetric)
  (cache : CacheType)
include hd

theorem predicateTable_caching : ∃ I : Option (predicateTable env hash symmetric).State → Prop, I none ∧
    Caching I (value pt d) (fun a => ¬ AtSentinel pt cache a) symmetric
      (cachePredicate cache (predicateTable env hash symmetric)) ∧
    ∀ st, I st → ∃ st', clearRegistered cache (predicateTable env hash symmetric) st = some st' ∧ I st' := by
  obtain ⟨Good,hst,hblanks⟩ := predicateTable_spec env hash symmetric
  refine ⟨(predicateTable env hash symmetric).Inv Good (fun a => ¬ AtSentinel pt cache a) (value pt d),
    Table.inv_none,?_,?_⟩
  · exact cachePredicate_caching cache (hst _) (fun hne => hblanks.starts (value_sentinel hne))
      fun _ _ _ h => value_sameKey hd h
  · exact clearRegistered_inv cache fun hne => hblanks.restarts (value_sentinel hne)

theorem makeBinaryPredicate_runs {decideFast : Tree K V → Tree K V → PredicateResult}
    (hfast : FastSound pt d decideFast) :
    RunsDecide (makeBinaryPredicate (cachePredicate cache (predicateTable env hash symmetric)) pt decideFast d)
      (clearRegistered cache (predicateTable env hash symmetric)) (PredicateHolds pt d)
      (ReadsSentinel pt cache decideFast) := by
  obtain ⟨I,h0,hc,hclear⟩ := predicateTable_caching env hash pt d hd cache
  refine runsDecide (I := I) (fun s t hs ht hne => ?_) hclear h0
  refine makeBinaryPredicate_returns hc (fun a _ _ ha hat => ha hat.2.2) hfast hs ht fun hunknown hat => ?_
  obtain ⟨rfl,rfl⟩ := Prod.mk.inj hat.2.2
  exact hne ⟨hat,hunknown⟩

omit hd in
theorem first_call_false (hcache : cache ≠ .noCache) {decideFast : Tree K V → Tree K V → PredicateResult}
    (hf : decideFast empty empty = .pUnknown) :
    ∃ st, makeBinaryPredicate (cachePredicate cache (predicateTable env hash symmetric)) pt decideFast d empty empty
      none = some (false,st) := by
  obtain ⟨Good,-,hblanks⟩ := predicateTable_spec env hash symmetric
  rw [makeBinaryPredicate,MakeBinaryPredicate.aux',hf]
  cases cache with
  | noCache => exact absurd rfl hcache
  | persistentCache name => exact hblanks.memo_first rfl _
  | temporaryCache name => exact hblanks.memo_first rfl _

theorem first_call_iff {decideFast : Tree K V → Tree K V → PredicateResult} (hfast : FastSound pt d decideFast)
    {s t : Tree K V} (hs : s.Canonical) (ht : t.Canonical) :
    Answers (makeBinaryPredicate (cachePredicate cache (predicateTable env hash symmetric)) pt decideFast d s t none)
      (PredicateHolds pt d (s,t)) ↔ ¬ ReadsSentinel pt cache decideFast (s,t) := by
  constructor
  · rintro ⟨v,st,hrun,hv⟩ ⟨⟨rfl,hcache,hat⟩,hf⟩
    obtain ⟨rfl,rfl⟩ := Prod.mk.inj hat
    obtain ⟨st',hfalse⟩ := first_call_false env hash .universalPredicate d cache hcache hf
    rw [hfalse] at hrun
    obtain ⟨rfl,-⟩ := Prod.mk.inj (Option.some.inj hrun)
    have hall : PredicateHolds .universalPredicate d (empty,empty) := by
      rw [← value_eq_true,value_empty]
      rfl
    exact absurd (hv.mpr hall) (by decide)
  · intro hne
    obtain ⟨I,h0,hc,-⟩ := predicateTable_caching env hash pt d hd cache
    have hret := makeBinaryPredicate_returns hc (fun a _ _ ha hat => ha hat.2.2) hfast hs ht fun hunknown hat => by
      obtain ⟨rfl,rfl⟩ := Prod.mk.inj hat.2.2
      exact hne ⟨hat,hunknown⟩
    obtain ⟨v,st,hrun,rfl,-⟩ := hret none h0
    exact ⟨_,st,hrun,value_eq_true⟩

end Binary

theorem makePredicate_runs (env : Option (Option ℤ)) (hash : Tree K V → NativeInt) (name : String) {d : Checks K V}
    {symmetric : Bool} (hd : symmetric = true → d.decisions.Symmetric)
    {decideFast : Tree K V → Tree K V → Option DecideFast} (hfast : RaiseSound d decideFast) :
    RunsDecide (makePredicate (cachePredicate (.persistentCache name) (predicateTable env hash symmetric)) decideFast d)
      (predicateTable env hash symmetric).clearAll (PredicateHolds .universalPredicate d.decisions) fun _ => False := by
  obtain ⟨I,h0,hc,hclear⟩ :=
    predicateTable_caching env hash .universalPredicate d.decisions hd (.persistentCache name)
  refine runsDecide (I := I) (fun s t hs ht _ => ?_) hclear h0
  exact makePredicate_returns hc (fun a _ _ ha hat => ha hat.2.2) hfast hs ht

theorem fold2_runs (cache : CacheType) (env : Option (Option ℤ)) (hash : Tree K V → NativeInt)
    (hashArg : Tree K W → NativeInt) (g : Fold2 K V W R) (steps : List (Step (Tree K V × Tree K W)))
    (hsteps : ∀ a, .call a ∈ steps → a.1.Canonical ∧ a.2.Canonical) :
    ∃ st, runSteps (fun a => fold2JoinHeterogeneous cache env hash hashArg g a.1 a.2)
        (clearRegistered cache (Fold2.foldTable env hash hashArg g.empty)) steps none =
      some ((steps.filterMap Step.call?).map fun a => (Fold2.plan a.1 a.2).eval g,st) := by
  obtain ⟨st,h1,-⟩ := runSteps_ok
    (fun a ha => fold2_returns cache env hash hashArg g (hsteps a ha).1 (hsteps a ha).2)
    (clearRegistered_inv cache fun _ => (Fold2.foldTable_blanks env hash hashArg g).restarts fun a _ ha =>
      Fold2.resultOf_sentinel g a ha) Table.inv_none
  exact ⟨st,h1⟩

/-- In every run of calls and clears, the predicates return the conjunction or the disjunction of the
decisions over all the bound keys, unless a universal predicate looks two empty maps up in its cache;
the first call is right exactly when it does not. Relations that raise an exception, and folds, are
right in every run, and a fold presents each bound key once. -/
theorem predicates_decide (env : Option (Option ℤ)) (hash : Tree K V → NativeInt) (hashArg : Tree K W → NativeInt) :
    (∀ ct pt decideFast decideFst decideSnd decideBoth, FastSound pt ⟨decideFst,decideSnd,decideBoth⟩ decideFast →
      RunsDecide (binaryPredicate env hash ct pt decideFast decideFst decideSnd decideBoth)
        (clearRegistered ct (predicateTable env hash false)) (PredicateHolds pt ⟨decideFst,decideSnd,decideBoth⟩)
        (ReadsSentinel pt ct decideFast) ∧
      ∀ s t : Tree K V, s.Canonical → t.Canonical →
        (Answers (binaryPredicate env hash ct pt decideFast decideFst decideSnd decideBoth s t none)
          (PredicateHolds pt ⟨decideFst,decideSnd,decideBoth⟩ (s,t)) ↔ ¬ ReadsSentinel pt ct decideFast (s,t))) ∧
    (∀ ct pt decideFast decideOne decideBoth, (∀ k v w, decideBoth k v w = decideBoth k w v) →
      FastSound pt ⟨decideOne,decideOne,decideBoth⟩ decideFast →
      RunsDecide (symmetricBinaryPredicate env hash ct pt decideFast decideOne decideBoth)
        (clearRegistered ct (predicateTable env hash true)) (PredicateHolds pt ⟨decideOne,decideOne,decideBoth⟩)
        (ReadsSentinel pt ct decideFast) ∧
      ∀ s t : Tree K V, s.Canonical → t.Canonical →
        (Answers (symmetricBinaryPredicate env hash ct pt decideFast decideOne decideBoth s t none)
          (PredicateHolds pt ⟨decideOne,decideOne,decideBoth⟩ (s,t)) ↔ ¬ ReadsSentinel pt ct decideFast (s,t))) ∧
    (∀ name decideFast decideFst decideSnd decideBoth, RaiseSound ⟨decideFst,decideSnd,decideBoth⟩ decideFast →
      RunsDecide (genericPredicate env hash name decideFast decideFst decideSnd decideBoth)
        (predicateTable env hash false).clearAll
        (PredicateHolds .universalPredicate ⟨decideFst,decideSnd,fun _ => decideBoth⟩) (fun _ => False)) ∧
    (∀ decideFast decideOne decideBoth, (∀ v w, decideBoth v w = decideBoth w v) →
      RaiseSound ⟨decideOne,decideOne,decideBoth⟩ decideFast →
      RunsDecide (genericSymmetricPredicate env hash decideFast decideOne decideBoth)
        (predicateTable env hash true).clearAll
        (PredicateHolds .universalPredicate ⟨decideOne,decideOne,fun _ => decideBoth⟩) (fun _ => False)) ∧
    ∀ (cache : CacheType) (g : Fold2 K V W R) (steps : List (Step (Tree K V × Tree K W))),
      (∀ a, .call a ∈ steps → a.1.Canonical ∧ a.2.Canonical) →
      (∃ st, runSteps (fun a => fold2JoinHeterogeneous cache env hash hashArg g a.1 a.2)
          (clearRegistered cache (Fold2.foldTable env hash hashArg g.empty)) steps none =
        some ((steps.filterMap Step.call?).map fun a => (Fold2.plan a.1 a.2).eval g,st)) ∧
      ∀ a, .call a ∈ steps → Fold2.Presents a (Fold2.plan a.1 a.2).presented := by
  refine ⟨?_,?_,?_,?_,?_⟩
  · intro ct pt decideFast decideFst decideSnd decideBoth hfast
    have hd : false = true → (⟨decideFst,decideSnd,decideBoth⟩ : Decisions K V).Symmetric := by simp
    exact ⟨makeBinaryPredicate_runs env hash pt _ hd ct hfast,
      fun s t hs ht => first_call_iff env hash pt _ hd ct hfast hs ht⟩
  · intro ct pt decideFast decideOne decideBoth hboth hfast
    have hd : true = true → (⟨decideOne,decideOne,decideBoth⟩ : Decisions K V).Symmetric := fun _ => ⟨rfl,hboth⟩
    exact ⟨makeBinaryPredicate_runs env hash pt _ hd ct hfast,
      fun s t hs ht => first_call_iff env hash pt _ hd ct hfast hs ht⟩
  · intro name decideFast decideFst decideSnd decideBoth hfast
    exact makePredicate_runs env hash name (by simp) hfast
  · intro decideFast decideOne decideBoth hboth hfast
    have hd : true = true → (⟨decideOne,decideOne,decideBoth⟩ : Checks K V).decisions.Symmetric :=
      fun _ => ⟨rfl,fun _ => hboth⟩
    exact makePredicate_runs env hash "" hd hfast
  · intro cache g steps hsteps
    refine ⟨fold2_runs cache env hash hashArg g steps hsteps,fun a ha => ?_⟩
    exact Fold2.plan_presents (hsteps a ha).1 (hsteps a ha).2

section Leaves

abbrev NatMap := Tree (BitVec 62) ℕ

/-- Inclusion of maps: the keys of the first are bound in the second, with larger values. -/
def inclusion : Decisions (BitVec 62) ℕ where
  decideFst _ _ := false
  decideSnd _ _ := true
  decideBoth _ v w := decide (v ≤ w)

def equality : Decisions (BitVec 62) ℕ where
  decideFst _ _ := false
  decideSnd _ _ := false
  decideBoth _ v w := v == w

def included (ct : CacheType) : NatMap → NatMap → (predicateTable none (fun _ : NatMap => 0) false).M Bool :=
  binaryPredicate none (fun _ => 0) ct .universalPredicate (fun _ _ => .pUnknown) inclusion.decideFst
    inclusion.decideSnd inclusion.decideBoth

theorem fastSound_unknown (pt : PredicateType) (d : Decisions K V) : FastSound pt d fun _ _ => .pUnknown := by
  intro s t _ _
  simp

theorem raiseSound_unknown (d : Checks K V) : RaiseSound d fun _ _ => some .unknown := by
  intro s t _ _
  simp

/-- The first inclusion asked to the cache is that of the empty map in itself: it is refused. -/
theorem empty_not_included :
    (∃ st, included (.persistentCache "included") empty empty none = some (false,st)) ∧
      FastSound .universalPredicate inclusion (fun _ _ => .pUnknown) ∧
      PredicateHolds .universalPredicate inclusion (empty,empty) := by
  refine ⟨?_,fastSound_unknown _ _,?_⟩
  · have hcache : CacheType.persistentCache "included" ≠ .noCache := by simp
    unfold included binaryPredicate
    exact first_call_false none (fun _ => 0) .universalPredicate inclusion (.persistentCache "included") hcache rfl
  · rw [← value_eq_true,value_empty]
    rfl

/-- Two inclusions around a clear, an uncached equality, two relations, and a fold. -/
theorem predicates_decide_leaves :
    (∃ vs st, runSteps (fun a => included (.persistentCache "included") a.1 a.2)
      (clearRegistered (.persistentCache "included") (predicateTable none (fun _ : NatMap => 0) false))
      [.call (leaf 3 1,empty),.reset,.call (empty,leaf 5 2)] none = some (vs,st) ∧
      List.Forall₂ (fun a v => v = true ↔ PredicateHolds .universalPredicate inclusion a)
        [(leaf 3 1,empty),(empty,leaf 5 2)] vs) ∧
    Answers (symmetricBinaryPredicate none (fun _ : NatMap => 0) .noCache .universalPredicate (fun _ _ => .pUnknown)
        equality.decideFst equality.decideBoth (leaf 3 1) (leaf 3 1) none)
      (PredicateHolds .universalPredicate equality (leaf 3 1,leaf 3 1)) ∧
    (∃ vs st, runSteps (fun a => genericPredicate none (fun _ : NatMap => 0) "generic" (fun _ _ => some .unknown)
        inclusion.decideFst inclusion.decideSnd (inclusion.decideBoth 0) a.1 a.2)
      (predicateTable none (fun _ : NatMap => 0) false).clearAll [.call (leaf 3 1,leaf 3 2)] none = some (vs,st) ∧
      List.Forall₂ (fun a v => v = true ↔ PredicateHolds .universalPredicate inclusion a) [(leaf 3 1,leaf 3 2)] vs) ∧
    (∃ vs st, runSteps (fun a => genericSymmetricPredicate none (fun _ : NatMap => 0) (fun _ _ => some .unknown)
        equality.decideFst (equality.decideBoth 0) a.1 a.2)
      (predicateTable none (fun _ : NatMap => 0) true).clearAll [.call (leaf 3 1,leaf 3 2)] none = some (vs,st) ∧
      List.Forall₂ (fun a v => v = true ↔ PredicateHolds .universalPredicate equality a) [(leaf 3 1,leaf 3 2)] vs) ∧
    Fold2.Presents ((leaf 3 1,leaf 5 2) : NatMap × NatMap) (Fold2.plan (leaf 3 1) (leaf 5 2)).presented := by
  obtain ⟨h1,h2,h3,h4,h5⟩ := predicates_decide (R := ℕ) none (fun _ : NatMap => 0) fun _ : NatMap => 0
  have hleaf : ∀ (k : BitVec 62) (n : ℕ), (leaf k n : NatMap).Canonical := fun _ _ => trivial
  have hcomm : ∀ v w : ℕ, (v == w) = (w == v) := fun _ _ => Bool.beq_comm
  refine ⟨?_,?_,?_,?_,?_⟩
  · refine (h1 (.persistentCache "included") .universalPredicate _ _ _ _ (fastSound_unknown _ inclusion)).1
      [.call (leaf 3 1,empty),.reset,.call (empty,leaf 5 2)] fun a ha => ?_
    simp only [List.mem_cons,Step.call.injEq,reduceCtorEq,List.not_mem_nil,or_false,false_or] at ha
    rcases ha with rfl | rfl
    · exact ⟨hleaf _ _,trivial,fun h => absurd (congrArg Prod.fst h.1.2.2) (by simp)⟩
    · exact ⟨trivial,hleaf _ _,fun h => absurd (congrArg Prod.snd h.1.2.2) (by simp)⟩
  · refine ((h2 .noCache .universalPredicate _ _ _ (fun _ => hcomm) (fastSound_unknown _ equality)).2 _ _
      (hleaf _ _) (hleaf _ _)).mpr ?_
    exact fun h => absurd rfl h.1.2.1
  · refine h3 "generic" _ _ _ _ (raiseSound_unknown _) [.call (leaf 3 1,leaf 3 2)] fun a ha => ?_
    obtain rfl := Step.call.inj (List.mem_singleton.mp ha)
    exact ⟨hleaf _ _,hleaf _ _,id⟩
  · refine h4 _ _ _ hcomm (raiseSound_unknown _) [.call (leaf 3 1,leaf 3 2)] fun a ha => ?_
    obtain rfl := Step.call.inj (List.mem_singleton.mp ha)
    exact ⟨hleaf _ _,hleaf _ _,id⟩
  · refine (h5 .noCache ⟨fun _ => 0,fun _ => 0,fun _ v w => v + w,Nat.add,0⟩ [.call (leaf 3 1,leaf 5 2)] ?_).2 _
      List.mem_cons_self
    intro a ha
    obtain rfl := Step.call.inj (List.mem_singleton.mp ha)
    exact ⟨hleaf _ _,hleaf _ _⟩

end Leaves
end FramaC.Hptmap
