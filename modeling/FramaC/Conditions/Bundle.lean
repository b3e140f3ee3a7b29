import FramaC.Lib.ListSet

/-! # Bundles of hypotheses

The conditions, sequences and bundles of `Conditions.ml`, with their categories and the functions that build them.
A sequence keeps its category beside its steps; a bundle is a list of steps sorted by rank and by descending creation
number. Predicates are those of `Lang.F`, given by what the code relies on. Variables, sizes, core facts, descriptions,
statements, dependencies and warnings of steps are not read by these functions.
-/
namespace FramaC.Conditions

inductive Category where
  | EMPTY
  | TRUE
  | FALSE
  | MAYBE
deriving DecidableEq

@[grind =] def cAnd : Category → Category → Category
  | .FALSE,_ => .FALSE
  | _,.FALSE => .FALSE
  | .MAYBE,_ => .MAYBE
  | _,.MAYBE => .MAYBE
  | .TRUE,_ => .TRUE
  | _,.TRUE => .TRUE
  | .EMPTY,.EMPTY => .EMPTY

@[grind =] def cOr : Category → Category → Category
  | .FALSE,.FALSE => .FALSE
  | .EMPTY,.EMPTY => .EMPTY
  | .TRUE,.TRUE => .TRUE
  | _,_ => .MAYBE

section Folds

variable {α : Type}

def cfoldAnd (a : Category) (f : α → Category) : List α → Category
  | [] => a
  | e :: es => cfoldAnd (cAnd a (f e)) f es

def cfoldOr (a : Category) (f : α → Category) : List α → Category
  | [] => a
  | e :: es => cfoldOr (cOr a (f e)) f es

def cConj (f : α → Category) (es : List α) : Category := cfoldAnd .EMPTY f es

def cDisj (f : α → Category) : List α → Category
  | [] => .FALSE
  | e :: es => cfoldOr (f e) f es

end Folds

inductive Trilean where
  | yes
  | no
  | maybe

/-- The predicates `F.pred` over valuations in `V`. -/
structure Logic (P V : Type) where
  eval : P → V → Prop
  isPtrue : P → Trilean
  pFalse : P
  pNot : P → P
  existIntro : P → P
  /-- No existential quantifier for `exist_intro` to open. -/
  NoExists : P → Prop
  eval_of_yes : ∀ p v, isPtrue p = .yes → eval p v
  not_eval_of_no : ∀ p v, isPtrue p = .no → ¬eval p v
  not_eval_pFalse : ∀ v, ¬eval pFalse v
  eval_pNot : ∀ p v, eval (pNot p) v ↔ ¬eval p v
  eval_existIntro : ∀ p v, NoExists p → (eval (existIntro p) v ↔ eval p v)

mutual

inductive Condition (P S : Type) where
  | type (p : P)
  | have (p : P)
  | when (p : P)
  | core (p : P)
  | init (p : P)
  | branch (p : P) (a b : Sequence P S)
  | either (cases : List (Sequence P S))
  | state (s : S)

inductive Sequence (P S : Type) where
  | mk (catg : Category) (list : List (Condition P S))

end

variable {P S V : Type}

def Sequence.catg : Sequence P S → Category
  | .mk catg _ => catg

def Sequence.list : Sequence P S → List (Condition P S)
  | .mk _ list => list

variable (F : Logic P V)

mutual

def holdsCond (v : V) : Condition P S → Prop
  | .type p => F.eval p v
  | .have p => F.eval p v
  | .when p => F.eval p v
  | .core p => F.eval p v
  | .init p => F.eval p v
  | .branch p a b => (F.eval p v → holdsSeq v a) ∧ (¬F.eval p v → holdsSeq v b)
  | .either cases => holdsAny v cases
  | .state _ => True

def holdsSeq (v : V) : Sequence P S → Prop
  | .mk _ list => holdsAll v list

def holdsAll (v : V) : List (Condition P S) → Prop
  | [] => True
  | c :: cs => holdsCond v c ∧ holdsAll v cs

def holdsAny (v : V) : List (Sequence P S) → Prop
  | [] => False
  | s :: ss => holdsSeq v s ∨ holdsAny v ss

end

def catgPred (p : P) : Category :=
  match F.isPtrue p with
  | .no => .FALSE
  | .maybe => .MAYBE
  | .yes => .EMPTY

def catgCond : Condition P S → Category
  | .state _ => .TRUE
  | .have p => catgPred F p
  | .type p => catgPred F p
  | .when p => catgPred F p
  | .core p => catgPred F p
  | .init p => catgPred F p
  | .either cs => cDisj Sequence.catg cs
  | .branch _ a b => cOr a.catg b.catg

def catgList (l : List (Condition P S)) : Category := cConj (catgCond F) l

abbrev Entry (P S : Type) := ℕ × Condition P S

abbrev Bundle (P S : Type) := List (Entry P S)

def rank : Condition P S → ℕ
  | .type _ => 0
  | .when _ => 1
  | _ => 2

def key (e : Entry P S) : ℕ ×ₗ ℕᵒᵈ := toLex (rank e.2,OrderDual.toDual e.1)

namespace Bundle

def category (b : Bundle P S) : Category := cConj (fun e => catgCond F e.2) b

def add (cid : ℕ) (s : Condition P S) (t : Bundle P S) : ℕ × Bundle P S := (cid + 1,ListSet.add key (cid + 1,s) t)

def factorize (a b : Bundle P S) : Bundle P S × Bundle P S × Bundle P S := ListSet.factorize key a b

def bigInter (cs : List (Bundle P S)) : Bundle P S := ListSet.bigInter key cs

def diff (a b : Bundle P S) : Bundle P S := ListSet.diff key a b

def head : Bundle P S → Option S
  | (_,.state s) :: _ => some s
  | _ => none

def freeze (join : Option (Condition P S)) (b : Bundle P S) : Sequence P S :=
  let seq := b.map Prod.snd
  .mk (catgList F seq) (match join with
    | none => seq
    | some s => seq ++ [s])

end Bundle

inductive Disjunction (α : Type) where
  | dTrue
  | dFalse
  | dEither (cs : List α)

def disjunction {α : Type} (phi : α → Category) (es : List α) : Disjunction α :=
  let positives := es.any fun e => phi e == .TRUE || phi e == .EMPTY
  match es.filter fun e => phi e == .MAYBE with
  | [] => if positives then .dTrue else .dFalse
  | c :: cs => .dEither (c :: cs)

/-- The category of a bundle is passed on; the creation counter is threaded. -/
def assume (cid : ℕ) (init : Bool) (p : P) (hs : Bundle P S) : ℕ × Bundle P S :=
  match F.isPtrue p with
  | .yes => (cid,hs)
  | .no => Bundle.add cid (if init then .init p else .have p) []
  | .maybe =>
    match Bundle.category F hs with
    | .FALSE => (cid,hs)
    | _ => Bundle.add cid (if init then .init (F.existIntro p) else .have (F.existIntro p)) hs

def join (s : Option S) : Option (Condition P S) := s.map .state

/-- The last case of `branch`: the common part is factored out. -/
def branchSteps (cid : ℕ) (p : P) (ha hb : Bundle P S) : ℕ × Bundle P S :=
  let (ha,hs,hb) := Bundle.factorize ha hb
  if ha.isEmpty && hb.isEmpty then (cid,hs)
  else
    let j := join (Bundle.head hs)
    Bundle.add cid (.branch p (Bundle.freeze F j ha) (Bundle.freeze F j hb)) hs

def branch (cid : ℕ) (p : P) (ha hb : Bundle P S) : ℕ × Bundle P S :=
  match F.isPtrue p with
  | .yes => (cid,ha)
  | .no => (cid,hb)
  | .maybe =>
    match Bundle.category F ha,Bundle.category F hb with
    | .TRUE,.TRUE => (cid,[])
    | _,.FALSE => assume F cid false p ha
    | .FALSE,_ => assume F cid false (F.pNot p) hb
    | _,_ => branchSteps F cid p ha hb

/-- The last case of `either`: the trunk is factored out. -/
def eitherSteps (cid : ℕ) (cases : List (Bundle P S)) : ℕ × Bundle P S :=
  let trunk := Bundle.bigInter cases
  match disjunction (Bundle.category F) (cases.map fun case => Bundle.diff case trunk) with
  | .dTrue => (cid,trunk)
  | .dFalse => Bundle.add cid (.have F.pFalse) []
  | .dEither cases => Bundle.add cid (.either (cases.map (Bundle.freeze F none))) trunk

def either (cid : ℕ) (cases : List (Bundle P S)) : ℕ × Bundle P S :=
  match disjunction (Bundle.category F) cases with
  | .dTrue => (cid,[])
  | .dFalse => Bundle.add cid (.have F.pFalse) []
  | .dEither cases => eitherSteps F cid cases

def merge (cid : ℕ) (cases : List (Bundle P S)) : ℕ × Bundle P S := either F cid cases

end FramaC.Conditions

/-! ## The meaning of bundles

A bundle means the conjunction of its steps. All the bundles of a run share one table of the steps created so far, in
which the creation numbers are unique; `assume`, `branch` and `either` extend the table.
-/
namespace FramaC.Conditions

variable {P S V : Type} (F : Logic P V)

theorem holdsAll_iff (v : V) (l : List (Condition P S)) : holdsAll F v l ↔ ∀ c ∈ l, holdsCond F v c := by
  induction l with
  | nil => simp [holdsAll]
  | cons c cs ih => simp [holdsAll,ih]

theorem holdsAny_iff (v : V) (l : List (Sequence P S)) : holdsAny F v l ↔ ∃ s ∈ l, holdsSeq F v s := by
  induction l with
  | nil => simp [holdsAny]
  | cons s ss ih => simp [holdsAny,ih]

def IsTrue (c : Category) : Prop := c = .TRUE ∨ c = .EMPTY

/-- A category other than `MAYBE` is right about a property of valuations. -/
structure Sound (c : Category) (φ : V → Prop) : Prop where
  isTrue : IsTrue c → ∀ v, φ v
  isFalse : c = .FALSE → ∀ v, ¬φ v

theorem isTrue_cAnd {a b : Category} (h : IsTrue (cAnd a b)) : IsTrue a ∧ IsTrue b := by
  revert h
  cases a <;> cases b <;> simp [cAnd,IsTrue]

theorem false_cAnd {a b : Category} (h : cAnd a b = .FALSE) : a = .FALSE ∨ b = .FALSE := by
  revert h
  cases a <;> cases b <;> simp [cAnd]

theorem isTrue_cOr {a b : Category} (h : IsTrue (cOr a b)) : IsTrue a ∧ IsTrue b := by
  revert h
  cases a <;> cases b <;> simp [cOr,IsTrue]

theorem false_cOr {a b : Category} (h : cOr a b = .FALSE) : a = .FALSE ∧ b = .FALSE := by
  revert h
  cases a <;> cases b <;> simp [cOr]

theorem Sound.cAnd {a b : Category} {φ ψ : V → Prop} (ha : Sound a φ) (hb : Sound b ψ) :
    Sound (cAnd a b) fun v => φ v ∧ ψ v := by
  constructor
  · intro h v
    obtain ⟨h₁,h₂⟩ := isTrue_cAnd h
    exact ⟨ha.isTrue h₁ v,hb.isTrue h₂ v⟩
  · rintro h v ⟨h₁,h₂⟩
    rcases false_cAnd h with h | h
    · exact ha.isFalse h v h₁
    · exact hb.isFalse h v h₂

theorem Sound.cOr {a b : Category} {φ ψ χ : V → Prop} (ha : Sound a φ) (hb : Sound b ψ)
    (hχ : ∀ v, φ v → ψ v → χ v) (hχ' : ∀ v, χ v → φ v ∨ ψ v) : Sound (cOr a b) χ := by
  constructor
  · intro h v
    obtain ⟨h₁,h₂⟩ := isTrue_cOr h
    exact hχ v (ha.isTrue h₁ v) (hb.isTrue h₂ v)
  · intro h v hv
    obtain ⟨h₁,h₂⟩ := false_cOr h
    rcases hχ' v hv with hv | hv
    · exact ha.isFalse h₁ v hv
    · exact hb.isFalse h₂ v hv

theorem Sound.congr {c : Category} {φ ψ : V → Prop} (h : Sound c φ) (heq : ∀ v, φ v ↔ ψ v) : Sound c ψ :=
  ⟨fun hc v => (heq v).1 (h.isTrue hc v),fun hc v hv => h.isFalse hc v ((heq v).2 hv)⟩

section Folds

variable {α : Type} {f : α → Category} {φ : α → V → Prop}

theorem Sound.cfoldAnd {es : List α} (h : ∀ e ∈ es, Sound (f e) (φ e)) {a : Category} {ψ : V → Prop} (ha : Sound a ψ) :
    Sound (cfoldAnd a f es) fun v => ψ v ∧ ∀ e ∈ es, φ e v := by
  induction es generalizing a ψ with
  | nil =>
    apply ha.congr
    intro v
    simp
  | cons e es ih =>
    have hstep := ha.cAnd (h e (List.mem_cons_self ..))
    apply (ih (fun d hd => h d (List.mem_cons_of_mem _ hd)) hstep).congr
    intro v
    simp only [List.forall_mem_cons,and_assoc]

theorem Sound.cConj {es : List α} (h : ∀ e ∈ es, Sound (f e) (φ e)) : Sound (cConj f es) fun v => ∀ e ∈ es, φ e v := by
  have htrue : Sound (V := V) .EMPTY fun _ => True := ⟨fun _ _ => trivial,fun hf => (nomatch hf)⟩
  apply (Sound.cfoldAnd h htrue).congr
  intro v
  simp

theorem Sound.cfoldOr {es : List α} (h : ∀ e ∈ es, Sound (f e) (φ e)) {a : Category} {ψ : V → Prop} (ha : Sound a ψ) :
    Sound (cfoldOr a f es) fun v => ψ v ∨ ∃ e ∈ es, φ e v := by
  induction es generalizing a ψ with
  | nil =>
    apply ha.congr
    intro v
    simp
  | cons e es ih =>
    have hstep : Sound (Conditions.cOr a (f e)) fun v => ψ v ∨ φ e v :=
      ha.cOr (h e (List.mem_cons_self ..)) (fun _ hv _ => Or.inl hv) (fun _ hv => hv)
    apply (ih (fun d hd => h d (List.mem_cons_of_mem _ hd)) hstep).congr
    intro v
    simp only [List.exists_mem_cons_iff,or_assoc]

theorem Sound.cDisj {es : List α} (h : ∀ e ∈ es, Sound (f e) (φ e)) : Sound (cDisj f es) fun v => ∃ e ∈ es, φ e v := by
  cases es with
  | nil =>
    refine ⟨fun hc => ?_,fun _ v hv => ?_⟩
    · rcases hc with hc | hc <;> cases hc
    · obtain ⟨e,he,_⟩ := hv
      cases he
  | cons e es =>
    apply (Sound.cfoldOr (fun d hd => h d (List.mem_cons_of_mem _ hd)) (h e (List.mem_cons_self ..))).congr
    intro v
    simp only [List.exists_mem_cons_iff]

end Folds

def SeqSound (s : Sequence P S) : Prop := Sound s.catg fun v => holdsSeq F v s

def CondOk : Condition P S → Prop
  | .branch _ a b => SeqSound F a ∧ SeqSound F b
  | .either cases => ∀ s ∈ cases, SeqSound F s
  | _ => True

theorem sound_catgPred (p : P) : Sound (catgPred F p) (F.eval p) := by
  constructor
  · intro h v
    cases hp : F.isPtrue p with
    | yes => exact F.eval_of_yes p v hp
    | no => simp [catgPred,hp,IsTrue] at h
    | maybe => simp [catgPred,hp,IsTrue] at h
  · intro h v
    cases hp : F.isPtrue p with
    | yes => simp [catgPred,hp] at h
    | no => exact F.not_eval_of_no p v hp
    | maybe => simp [catgPred,hp] at h

theorem sound_catgCond {c : Condition P S} (h : CondOk F c) : Sound (catgCond F c) fun v => holdsCond F v c := by
  cases c with
  | type p => exact sound_catgPred F p
  | «have» p => exact sound_catgPred F p
  | when p => exact sound_catgPred F p
  | core p => exact sound_catgPred F p
  | init p => exact sound_catgPred F p
  | branch p a b =>
    apply h.1.cOr h.2
    · intro v ha hb
      exact ⟨fun _ => ha,fun _ => hb⟩
    · intro v hv
      by_cases hp : F.eval p v
      · exact Or.inl (hv.1 hp)
      · exact Or.inr (hv.2 hp)
  | either cases =>
    apply (Sound.cDisj h).congr
    intro v
    exact (holdsAny_iff F v cases).symm
  | state s => exact ⟨fun _ _ => trivial,fun hc => (nomatch hc)⟩

def holds (b : Bundle P S) (v : V) : Prop := ∀ e ∈ b, holdsCond F v e.2

/-- The steps created so far by their numbers. -/
structure World (P S : Type) where
  cid : ℕ
  steps : ℕ → Option (Condition P S)
  bound : ∀ k c, steps k = some c → k ≤ cid

structure World.Extends (w w' : World P S) : Prop where
  cid : w.cid ≤ w'.cid
  steps : ∀ k c, w.steps k = some c → w'.steps k = some c

def World.add (w : World P S) (c : Condition P S) : World P S where
  cid := w.cid + 1
  steps := Function.update w.steps (w.cid + 1) (some c)
  bound := by
    intro k d h
    rw [Function.update_apply] at h
    by_cases hk : k = w.cid + 1
    · exact le_of_eq hk
    · rw [if_neg hk] at h
      exact Nat.le_succ_of_le (w.bound k d h)

/-- A bundle made of steps of the table, sorted, with right categories. -/
structure Ok (w : World P S) (b : Bundle P S) : Prop where
  sorted : ListSet.Sorted key b
  steps : ∀ e ∈ b, w.steps e.1 = some e.2
  cond : ∀ e ∈ b, CondOk F e.2

variable {F}

theorem World.Extends.refl (w : World P S) : w.Extends w := ⟨le_refl _,fun _ _ h => h⟩

theorem World.extends_add (w : World P S) (c : Condition P S) : w.Extends (w.add c) := by
  refine ⟨Nat.le_succ _,?_⟩
  intro k d h
  have hk : k ≠ w.cid + 1 := by
    have := w.bound k d h
    omega
  simp only [World.add,Function.update_of_ne hk,h]

theorem Ok.nil (w : World P S) : Ok F w ([] : Bundle P S) :=
  ⟨List.Pairwise.nil,fun _ h => (List.not_mem_nil h).elim,fun _ h => (List.not_mem_nil h).elim⟩

theorem Ok.sublist {w : World P S} {b c : Bundle P S} (h : Ok F w b) (hs : List.Sublist c b) : Ok F w c :=
  ⟨h.sorted.sublist hs,fun e he => h.steps e (hs.subset he),fun e he => h.cond e (hs.subset he)⟩

theorem key_eq {e d : Entry P S} (h : key e = key d) : e.1 = d.1 := by
  have h' := congrArg (fun x => (ofLex x).2) h
  exact h'

theorem Ok.coherent {w : World P S} {a b : Bundle P S} (ha : Ok F w a) (hb : Ok F w b) : ListSet.Coherent key a b := by
  intro e he d hd heq
  have hk := key_eq heq
  have h₁ := ha.steps e he
  have h₂ := hb.steps d hd
  rw [hk,h₂] at h₁
  exact Prod.ext hk (Option.some.inj h₁).symm

theorem Ok.sound_category {w : World P S} {b : Bundle P S} (h : Ok F w b) :
    Sound (Bundle.category F b) (holds F b) :=
  Sound.cConj fun e he => sound_catgCond F (h.cond e he)

/-- The result of a function that may create steps: a bundle of an extended table with the given meaning. -/
def Means (F : Logic P V) (w : World P S) (r : ℕ × Bundle P S) (φ : V → Prop) : Prop :=
  ∃ w', w.Extends w' ∧ r.1 = w'.cid ∧ Ok F w' r.2 ∧ ∀ v, holds F r.2 v ↔ φ v

theorem Means.congr {w : World P S} {r : ℕ × Bundle P S} {φ ψ : V → Prop} (h : Means F w r φ) (heq : ∀ v, φ v ↔ ψ v) :
    Means F w r ψ := by
  obtain ⟨w',he,hc,hok,hm⟩ := h
  exact ⟨w',he,hc,hok,fun v => (hm v).trans (heq v)⟩

theorem Means.same {w : World P S} {b : Bundle P S} (h : Ok F w b) : Means F w (w.cid,b) (holds F b) :=
  ⟨w,World.Extends.refl w,rfl,h,fun _ => Iff.rfl⟩

theorem Means.add {w : World P S} {b : Bundle P S} {c : Condition P S} (h : Ok F w b) (hc : CondOk F c) :
    Means F w (Bundle.add w.cid c b) fun v => holds F b v ∧ holdsCond F v c := by
  have hne : ∀ e ∈ b, key (w.cid + 1,c) ≠ key e := by
    intro e he heq
    have hk := key_eq heq
    have := w.bound _ _ (h.steps e he)
    simp only at hk
    omega
  have hmem (e : Entry P S) : e ∈ ListSet.add key (w.cid + 1,c) b ↔ e = (w.cid + 1,c) ∨ e ∈ b := ListSet.mem_add hne
  have hext := w.extends_add c
  refine ⟨w.add c,hext,rfl,⟨ListSet.sorted_add h.sorted hne,?_,?_⟩,?_⟩
  · intro e he
    rcases (hmem e).1 he with rfl | he
    · exact Function.update_self ..
    · exact hext.steps _ _ (h.steps e he)
  · intro e he
    rcases (hmem e).1 he with rfl | he
    · exact hc
    · exact h.cond e he
  · intro v
    simp only [holds,Bundle.add,hmem]
    constructor
    · intro hall
      exact ⟨fun e he => hall e (Or.inr he),hall _ (Or.inl rfl)⟩
    · rintro ⟨hb,hnew⟩ e (rfl | he)
      · exact hnew
      · exact hb e he

end FramaC.Conditions
