import FramaC.Lib.Simulation

/-! # Memo tables

A memo table stores the results of a function and may forget any of them. It is allocated when
it is first used. `none` stands for an access outside the memory of the table. A computation
under a table may itself use the table. When every match returns the value of the function, so
does every memoised call, whatever is forgotten.
-/
namespace FramaC.Memo
open Simulation
variable {A R : Type}

/-- The operations on the memory of a table. A lookup returns the stored result on a match. The
function is called on the arguments as `order` returns them. -/
structure Table (A R : Type) where
  State : Type
  make : Option State
  clear : State → Option State
  get : State → A → Option (Option R)
  set : State → A → R → Option State
  order : A → A

namespace Table
variable (t : Table A R)

abbrev M := StateT (Option t.State) Option

def force : Option t.State → Option t.State
  | some s => some s
  | none => t.make

/-- Returns the stored result on a match; otherwise computes it and stores it. -/
def memo (a : A) (compute : t.M R) : t.M R := fun st => do
  let s ← t.force st
  match ← t.get s a with
  | some r => some (r,some s)
  | none =>
    let (r,st') ← compute (some s)
    let s' ← t.force st'
    let s'' ← t.set s' a r
    some (r,some s'')

def clearAll : Option t.State → Option (Option t.State)
  | some s => some <$> t.clear s
  | none => some none

def NoMatch (Valid : A → Prop) (s : t.State) : Prop := ∀ a, Valid a → t.get s a = some none

def Holds (Valid : A → Prop) (F : A → R) (s : t.State) : Prop :=
  ∀ a r, Valid a → t.get s a = some (some r) → r = F a

/-- What the accesses do to a table in a good state. Arguments in the relation `Same` may be
taken for each other. -/
structure Laws (Good : t.State → Prop) (Valid : A → Prop) (Same : A → A → Prop) : Prop where
  order_same : ∀ a, Same (t.order a) a
  get_ok : ∀ s a, Good s → ∃ o, t.get s a = some o
  make_ok : ∃ s, t.make = some s ∧ Good s ∧ t.NoMatch Valid s
  set_ok : ∀ s a r, Good s → ∃ s', t.set s a r = some s' ∧ Good s' ∧
    ∀ b r', Valid b → t.get s' b = some (some r') → (Same a b ∧ r' = r) ∨ t.get s b = some (some r')

def Clears (Good : t.State → Prop) (Valid : A → Prop) : Prop :=
  ∀ s, Good s → ∃ s', t.clear s = some s' ∧ Good s' ∧ t.NoMatch Valid s'

def Inv (Good : t.State → Prop) (Valid : A → Prop) (F : A → R) (st : Option t.State) : Prop :=
  ∀ s, st = some s → Good s ∧ t.Holds Valid F s

variable {t} {Good : t.State → Prop} {Valid : A → Prop} {Same : A → A → Prop} {F : A → R}

theorem NoMatch.holds {s : t.State} (h : t.NoMatch Valid s) (F : A → R) : t.Holds Valid F s := by
  intro a r ha hr
  rw [h a ha] at hr
  cases hr

theorem Laws.restrict (h : t.Laws Good Valid Same) {Valid' : A → Prop} {Same' : A → A → Prop}
    (hv : ∀ a, Valid' a → Valid a) (hs : ∀ a b, Same a b → Same' a b) : t.Laws Good Valid' Same' where
  order_same a := hs _ _ (h.order_same a)
  get_ok := h.get_ok
  make_ok := by
    obtain ⟨s,h1,h2,h3⟩ := h.make_ok
    exact ⟨s,h1,h2,fun a ha => h3 a (hv a ha)⟩
  set_ok s a r hgood := by
    obtain ⟨s',h1,h2,h3⟩ := h.set_ok s a r hgood
    exact ⟨s',h1,h2,fun b r' hb hr => (h3 b r' (hv b hb) hr).imp (fun hab => ⟨hs _ _ hab.1,hab.2⟩) id⟩

/-- What the lookups and the stores do to a table in a good state. -/
structure Stores (t : Table A R) (Good : t.State → Prop) (Valid : A → Prop) (Same : A → A → Prop) : Prop where
  order_same : ∀ a, Same (t.order a) a
  get_ok : ∀ s a, Good s → ∃ o, t.get s a = some o
  set_ok : ∀ s a r, Good s → ∃ s', t.set s a r = some s' ∧ Good s' ∧
    ∀ b r', Valid b → t.get s' b = some (some r') → (Same a b ∧ r' = r) ∨ t.get s b = some (some r')

/-- An allocated table may match some arguments, with the value of the function. -/
def Starts (t : Table A R) (Good : t.State → Prop) (Valid : A → Prop) (F : A → R) : Prop :=
  ∃ s, t.make = some s ∧ Good s ∧ t.Holds Valid F s

def Restarts (t : Table A R) (Good : t.State → Prop) (Valid : A → Prop) (F : A → R) : Prop :=
  ∀ s, Good s → ∃ s', t.clear s = some s' ∧ Good s' ∧ t.Holds Valid F s'

theorem Laws.stores (h : t.Laws Good Valid Same) : t.Stores Good Valid Same := ⟨h.order_same,h.get_ok,h.set_ok⟩

theorem Laws.starts (h : t.Laws Good Valid Same) (F : A → R) : t.Starts Good Valid F := by
  obtain ⟨s,h1,h2,h3⟩ := h.make_ok
  exact ⟨s,h1,h2,h3.holds F⟩

theorem Clears.restarts (h : t.Clears Good Valid) (F : A → R) : t.Restarts Good Valid F := by
  intro s hs
  obtain ⟨s',h1,h2,h3⟩ := h s hs
  exact ⟨s',h1,h2,h3.holds F⟩

/-- Only the arguments in `Sent` match, with the result `r`. -/
def Blank (t : Table A R) (Sent : A → Prop) (r : R) (s : t.State) : Prop :=
  t.NoMatch (fun a => ¬ Sent a) s ∧ ∀ a, Sent a → t.get s a = some (some r)

/-- Allocated and cleared tables match only the arguments in `Sent`. -/
def Blanks (t : Table A R) (Good : t.State → Prop) (Sent : A → Prop) (r : R) : Prop :=
  (∃ s, t.make = some s ∧ Good s ∧ t.Blank Sent r s) ∧
    ∀ s, Good s → ∃ s', t.clear s = some s' ∧ Good s' ∧ t.Blank Sent r s'

section Blanks
variable {Sent : A → Prop} {r : R}

theorem Blank.holds {s : t.State} (h : t.Blank Sent r s) (hF : ∀ a, Valid a → Sent a → F a = r) :
    t.Holds Valid F s := by
  intro a r' ha hr
  by_cases hsent : Sent a
  · rw [h.2 a hsent] at hr
    rw [hF a ha hsent]
    simpa using hr.symm
  · rw [h.1 a hsent] at hr
    cases hr

theorem Blanks.starts (h : t.Blanks Good Sent r) (hF : ∀ a, Valid a → Sent a → F a = r) : t.Starts Good Valid F := by
  obtain ⟨s,h1,h2,h3⟩ := h.1
  exact ⟨s,h1,h2,h3.holds hF⟩

theorem Blanks.restarts (h : t.Blanks Good Sent r) (hF : ∀ a, Valid a → Sent a → F a = r) :
    t.Restarts Good Valid F := by
  intro s hs
  obtain ⟨s',h1,h2,h3⟩ := h.2 s hs
  exact ⟨s',h1,h2,h3.holds hF⟩

theorem Blanks.memo_first (h : t.Blanks Good Sent r) {a : A} (ha : Sent a) (compute : t.M R) :
    ∃ st, t.memo a compute none = some (r,st) := by
  obtain ⟨s,h1,_,h3⟩ := h.1
  exact ⟨some s,by simp only [memo,force,h1,h3.2 a ha,Option.bind_eq_bind,Option.bind_some]⟩

end Blanks

theorem Starts.force_ok (h : t.Starts Good Valid F) {st : Option t.State} (hst : t.Inv Good Valid F st) :
    ∃ s, t.force st = some s ∧ Good s ∧ t.Holds Valid F s := by
  cases st with
  | some s => exact ⟨s,rfl,hst s rfl⟩
  | none => exact h

theorem inv_none : t.Inv Good Valid F none := fun s hs => absurd hs (by simp)

theorem Restarts.clearAll (h : t.Restarts Good Valid F) {st : Option t.State} (hst : t.Inv Good Valid F st) :
    ∃ st', t.clearAll st = some st' ∧ t.Inv Good Valid F st' := by
  cases st with
  | none => exact ⟨none,rfl,hst⟩
  | some s =>
    obtain ⟨s',h1,h2⟩ := h s (hst s rfl).1
    refine ⟨some s',by rw [Table.clearAll,h1]; rfl,?_⟩
    rintro _ ⟨⟩
    exact h2

theorem Stores.memo_ok (h : t.Stores Good Valid Same) (hm : t.Starts Good Valid F)
    (hF : ∀ a b, Same a b → F a = F b) {a : A} (ha : Valid a) {compute : t.M R}
    (hc : ∀ st, t.Inv Good Valid F st → ∃ st', compute st = some (F a,st') ∧ t.Inv Good Valid F st')
    {st : Option t.State} (hst : t.Inv Good Valid F st) :
    ∃ s, t.memo a compute st = some (F a,some s) ∧ t.Inv Good Valid F (some s) := by
  obtain ⟨s,h1,h2,h3⟩ := hm.force_ok hst
  obtain ⟨o,h4⟩ := h.get_ok s a h2
  cases o with
  | some r =>
    refine ⟨s,?_,?_⟩
    · rw [← h3 a r ha h4]
      simp only [memo,h1,h4,Option.bind_eq_bind,Option.bind_some]
    · rintro _ ⟨⟩
      exact ⟨h2,h3⟩
  | none =>
    have hs : t.Inv Good Valid F (some s) := by
      rintro _ ⟨⟩
      exact ⟨h2,h3⟩
    obtain ⟨st',h5,h6⟩ := hc (some s) hs
    obtain ⟨s',h7,h8,h9⟩ := hm.force_ok h6
    obtain ⟨s'',k1,k2,k3⟩ := h.set_ok s' a (F a) h8
    refine ⟨s'',?_,?_⟩
    · simp only [memo,h1,h4,h5,h7,k1,Option.bind_eq_bind,Option.bind_some]
    · rintro _ ⟨⟩
      refine ⟨k2,fun b r hb hr => ?_⟩
      -- a match is either the new entry or an old one
      rcases k3 b r hb hr with ⟨hsame,rfl⟩ | hold
      · exact hF a b hsame
      · exact h9 b r hb hold

theorem Stores.memo_returns (h : t.Stores Good Valid Same) (hm : t.Starts Good Valid F)
    (hF : ∀ a b, Same a b → F a = F b) {a : A} (ha : Valid a) {compute : t.M R}
    (hc : Returns (t.Inv Good Valid F) (F a) compute) : Returns (t.Inv Good Valid F) (F a) (t.memo a compute) := by
  intro st hst
  have hcompute : ∀ st, t.Inv Good Valid F st → ∃ st', compute st = some (F a,st') ∧ t.Inv Good Valid F st' := by
    intro st hst
    obtain ⟨b,st',h1,rfl,h2⟩ := hc st hst
    exact ⟨st',h1,h2⟩
  obtain ⟨s,h1,h2⟩ := h.memo_ok hm hF ha hcompute hst
  exact ⟨_,some s,h1,rfl,h2⟩

end Table

/-- A call of the table with a function, or a clear. -/
inductive Op (A R : Type)
  | clear
  | merge (f : A → R) (a : A)

namespace Op

def isClear : Op A R → Prop
  | .clear => True
  | .merge _ _ => False

def value? : Op A R → Option R
  | .clear => none
  | .merge f a => some (f a)

end Op

def Coherent : Option (A → R) → List (Op A R) → Prop
  | _,[] => True
  | _,.clear :: ops => Coherent none ops
  | none,.merge f _ :: ops => Coherent (some f) ops
  | some g,.merge f _ :: ops => f = g ∧ Coherent (some f) ops

def current : Option (A → R) → List (Op A R) → Option (A → R)
  | g,[] => g
  | _,.clear :: ops => current none ops
  | _,.merge f _ :: ops => current (some f) ops

theorem current_append_clear (g : Option (A → R)) (ops : List (Op A R)) : current g (ops ++ [.clear]) = none := by
  induction ops generalizing g with
  | nil => rfl
  | cons op ops ih =>
    cases op with
    | clear => exact ih none
    | merge f a => exact ih (some f)

def NoClearAfterMerge (ops : List (Op A R)) : Prop := ops.Pairwise fun o o' => o'.isClear → o.isClear

namespace Table
variable (t : Table A R)

def run : List (Op A R) → Option t.State → Option (List R × Option t.State)
  | [],st => some ([],st)
  | .clear :: ops,st => do
    let st' ← t.clearAll st
    run ops st'
  | .merge f a :: ops,st => do
    let (r,st') ← t.memo a (fun st => some (f (t.order a),st)) st
    let (rs,st'') ← run ops st'
    some (r :: rs,st'')

theorem run_of_make_none (h : t.make = none) (f : A → R) (a : A) (ops : List (Op A R)) :
    t.run (.merge f a :: ops) none = none := by
  simp only [run,memo,force,h,Option.bind_eq_bind,Option.bind_none]

/-- The states between two operations of a run: no match right after a clear. -/
def Ready (Good : t.State → Prop) (Valid : A → Prop) : Option (A → R) → Option t.State → Prop
  | some f,st => t.Inv Good Valid f st
  | none,st => ∀ s, st = some s → Good s ∧ t.NoMatch Valid s

variable {t} {Good : t.State → Prop} {Valid : A → Prop} {Same : A → A → Prop}

theorem Ready.inv {st : Option t.State} (h : t.Ready Good Valid none st) (F : A → R) : t.Inv Good Valid F st := by
  intro s hs
  exact ⟨(h s hs).1,(h s hs).2.holds F⟩

theorem Laws.run_ok (h : t.Laws Good Valid Same) {ops : List (Op A R)} {g : Option (A → R)} {st : Option t.State}
    (hcoh : Coherent g ops) (hsame : ∀ f a, .merge f a ∈ ops → ∀ b c, Same b c → f b = f c)
    (hvalid : ∀ f a, .merge f a ∈ ops → Valid a)
    (hclear : t.Clears Good Valid ∨ NoClearAfterMerge ops ∧ (st = none ∨ ∀ o ∈ ops, ¬ o.isClear))
    (hst : t.Ready Good Valid g st) :
    ∃ st', t.run ops st = some (ops.filterMap Op.value?,st') ∧ t.Ready Good Valid (current g ops) st' := by
  induction ops generalizing g st with
  | nil => exact ⟨st,rfl,hst⟩
  | cons op ops ih =>
    have hsame' : ∀ f a, .merge f a ∈ ops → ∀ b c, Same b c → f b = f c :=
      fun f a hmem => hsame f a (List.mem_cons_of_mem _ hmem)
    have hvalid' : ∀ f a, .merge f a ∈ ops → Valid a := fun f a hmem => hvalid f a (List.mem_cons_of_mem _ hmem)
    cases op with
    | clear =>
      have hstep : ∃ st', t.clearAll st = some st' ∧ t.Ready Good Valid none st' ∧
          (t.Clears Good Valid ∨ NoClearAfterMerge ops ∧ (st' = none ∨ ∀ o ∈ ops, ¬ o.isClear)) := by
        cases st with
        | none =>
          refine ⟨none,rfl,fun s hs => absurd hs (by simp),?_⟩
          exact hclear.imp id fun hc => ⟨hc.1.of_cons,.inl rfl⟩
        | some s =>
          have hc : t.Clears Good Valid := by
            rcases hclear with hc | ⟨-,hc | hc⟩
            · exact hc
            · cases hc
            · exact absurd trivial (hc .clear List.mem_cons_self)
          have hgood : Good s := by
            cases g with
            | none => exact (hst s rfl).1
            | some f => exact (hst s rfl).1
          obtain ⟨s',k1,k2,k3⟩ := hc s hgood
          refine ⟨some s',by rw [clearAll,k1]; rfl,?_,.inl hc⟩
          rintro _ ⟨⟩
          exact ⟨k2,k3⟩
      obtain ⟨st',k1,k2,k3⟩ := hstep
      obtain ⟨st'',r1,r2⟩ := ih hcoh hsame' hvalid' k3 k2
      refine ⟨st'',?_,r2⟩
      rw [run,k1]
      exact r1
    | merge f a =>
      have hinv : t.Inv Good Valid f st := by
        cases g with
        | none => exact Ready.inv hst f
        | some g' =>
          obtain rfl := hcoh.1
          exact hst
      have hcoh' : Coherent (some f) ops := by
        cases g with
        | none => exact hcoh
        | some g' => exact hcoh.2
      have horder : f (t.order a) = f a := hsame f a List.mem_cons_self _ _ (h.order_same a)
      have hcompute : ∀ st', t.Inv Good Valid f st' →
          ∃ st'', some (f (t.order a),st') = some (f a,st'') ∧ t.Inv Good Valid f st'' := by
        intro st' hst'
        exact ⟨st',by rw [horder],hst'⟩
      obtain ⟨s,k1,k2⟩ := h.stores.memo_ok (h.starts f) (hsame f a List.mem_cons_self)
        (hvalid f a List.mem_cons_self) hcompute hinv
      have hclear' : t.Clears Good Valid ∨
          NoClearAfterMerge ops ∧ ((some s : Option t.State) = none ∨ ∀ o ∈ ops, ¬ o.isClear) := by
        refine hclear.imp id fun hc => ⟨hc.1.of_cons,.inr ?_⟩
        intro o ho hcl
        exact (List.pairwise_cons.mp hc.1).1 o ho hcl
      obtain ⟨st'',r1,r2⟩ := ih hcoh' hsame' hvalid' hclear' k2
      refine ⟨st'',?_,r2⟩
      simp only [run,k1,r1,Option.bind_eq_bind,Option.bind_some]
      rfl

end Table

end FramaC.Memo
