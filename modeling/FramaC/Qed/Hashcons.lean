import FramaC.Qed.Term

/-! # Hash-consed terms with a result type

`insert` of `term.ml` looks a representation up in the weak table of the state and makes a new term where it finds none.
Sub-terms are compared physically, so a representation is a node with the identities of its sub-terms. The table finds
a term by its representation only, although a term also has a result type.
-/
namespace FramaC.Qed.Hashcons

/-- A term, less what is a function of its representation. -/
structure HTerm (R T : Type) where
  id : ℕ
  repr : R
  tau : Option T
  deriving DecidableEq

/-- The counter of identities and the terms of the weak table, which have distinct representations and identities. -/
structure State (R T : Type) where
  kid : ℕ
  weak : List (HTerm R T)
  below : ∀ t ∈ weak, t.id < kid
  distinct : ∀ t ∈ weak, ∀ u ∈ weak, t.repr = u.repr ∨ t.id = u.id → t = u

/-- One call of `insert`. -/
structure Construction (R T : Type) where
  tau : Option T
  repr : R

variable {R T : Type} [DecidableEq R]

namespace State

def empty : State R T := ⟨0,[],nofun,nofun⟩

/-- `W.find`, where `equal` compares the representations. -/
def find (r : R) (s : State R T) : Option (HTerm R T) := s.weak.find? fun t => t.repr = r

def insert (tau : Option T) (r : R) (s : State R T) : HTerm R T × State R T :=
  match hf : s.find r with
  | some t => (t,s)
  | none =>
    let e : HTerm R T := ⟨s.kid,r,tau⟩
    (e,{
      kid := s.kid + 1
      weak := e :: s.weak
      below := fun t ht => by
        rcases List.mem_cons.mp ht with rfl | ht
        · exact Nat.lt_succ_self _
        · exact Nat.lt_succ_of_lt (s.below t ht)
      distinct := fun t ht u hu h => by
        have hnew : ∀ t ∈ s.weak, ¬ (t.repr = r ∨ t.id = s.kid) := by
          rintro t ht (h | h)
          · exact absurd (decide_eq_true h) (List.find?_eq_none.mp hf t ht)
          · exact absurd h (s.below t ht).ne
        rcases List.mem_cons.mp ht with rfl | ht <;> rcases List.mem_cons.mp hu with rfl | hu
        · rfl
        · exact absurd (h.imp Eq.symm Eq.symm) (hnew u hu)
        · exact absurd h (hnew t ht)
        · exact s.distinct t ht u hu h })

def run (s : State R T) : List (Construction R T) → List (Construction R T × HTerm R T) × State R T
  | [] => ([],s)
  | c :: cs =>
    let (t,s1) := s.insert c.tau c.repr
    let (ts,s2) := s1.run cs
    ((c,t) :: ts,s2)

omit [DecidableEq R] in
theorem eq_of_repr_eq (s : State R T) {t u : HTerm R T} (ht : t ∈ s.weak) (hu : u ∈ s.weak) (h : t.repr = u.repr) :
    t = u := s.distinct t ht u hu (.inl h)

theorem insert_spec (tau : Option T) (r : R) (s : State R T) :
    (s.insert tau r).1.repr = r ∧ (s.insert tau r).1 ∈ (s.insert tau r).2.weak ∧
      s.weak ⊆ (s.insert tau r).2.weak ∧
      ∀ t ∈ (s.insert tau r).2.weak, t ∈ s.weak ∨ (t.repr = r ∧ t.tau = tau) := by
  unfold insert
  split
  · next t hf =>
    have hrepr := List.find?_some hf
    exact ⟨by simpa using hrepr,List.mem_of_find?_eq_some hf,fun _ h => h,fun _ h => .inl h⟩
  · refine ⟨rfl,List.mem_cons_self,fun _ h => List.mem_cons_of_mem _ h,fun t ht => ?_⟩
    rcases List.mem_cons.mp ht with rfl | ht
    · exact .inr ⟨rfl,rfl⟩
    · exact .inl ht

theorem run_spec (s : State R T) (cs : List (Construction R T)) :
    s.weak ⊆ (s.run cs).2.weak ∧ (∀ p ∈ (s.run cs).1, p.2 ∈ (s.run cs).2.weak ∧ p.2.repr = p.1.repr) ∧
      ∀ t ∈ (s.run cs).2.weak, t ∈ s.weak ∨ ∃ c ∈ cs, t.repr = c.repr ∧ t.tau = c.tau := by
  induction cs generalizing s with
  | nil => exact ⟨fun _ h => h,nofun,fun _ h => .inl h⟩
  | cons c cs ih =>
    obtain ⟨hrepr,hmem,hsub,hnew⟩ := s.insert_spec c.tau c.repr
    obtain ⟨hsub2,hps,hnew2⟩ := ih (s.insert c.tau c.repr).2
    refine ⟨fun t ht => hsub2 (hsub ht),fun p hp => ?_,fun t ht => ?_⟩
    · rcases List.mem_cons.mp hp with rfl | hp
      · exact ⟨hsub2 hmem,hrepr⟩
      · exact hps p hp
    · rcases hnew2 t ht with ht | ⟨d,hd,h⟩
      · rcases hnew t ht with ht | h
        · exact .inl ht
        · exact .inr ⟨c,List.mem_cons_self,h⟩
      · exact .inr ⟨d,List.mem_cons_of_mem _ hd,h⟩

theorem map_fst_run (s : State R T) (cs : List (Construction R T)) : (s.run cs).1.map Prod.fst = cs := by
  induction cs generalizing s with
  | nil => rfl
  | cons c cs ih => exact congrArg (c :: ·) (ih _)

end State

/-- The type of a term, where `infer` stands for what `typecheck` finds from the representation. -/
def typeof (infer : R → Option T) (t : HTerm R T) : Option T :=
  match t.tau with
  | some tau => some tau
  | none => infer t.repr

/-- Each construction returns its representation with its type, and two of them the same term only where both agree. -/
structure Faithful (s : State R T) (cs : List (Construction R T)) : Prop where
  returned : ∀ p ∈ (s.run cs).1, p.2.repr = p.1.repr ∧ p.2.tau = p.1.tau
  typed : ∀ p ∈ (s.run cs).1, ∀ infer, typeof infer p.2 = p.1.tau.or (infer p.1.repr)
  shared : ∀ p ∈ (s.run cs).1, ∀ q ∈ (s.run cs).1, p.2 = q.2 ↔ p.1.repr = q.1.repr ∧ p.1.tau = q.1.tau

/-- The constructions are faithful exactly when a representation never comes with two types. -/
theorem faithful_iff {R T : Type} [DecidableEq R] (s : State R T) (cs : List (Construction R T)) : Faithful s cs ↔
    (∀ c ∈ cs, ∀ t ∈ s.weak, t.repr = c.repr → t.tau = c.tau) ∧
      ∀ c ∈ cs, ∀ d ∈ cs, c.repr = d.repr → c.tau = d.tau := by
  obtain ⟨hsub,hps,hnew⟩ := s.run_spec cs
  have hterm : ∀ c ∈ cs, ∃ p ∈ (s.run cs).1, p.1 = c := by
    intro c hc
    rw [← s.map_fst_run cs] at hc
    exact List.mem_map.mp hc
  have hmem : ∀ p ∈ (s.run cs).1, p.1 ∈ cs := by
    intro p hp
    have := List.mem_map_of_mem (f := Prod.fst) hp
    rwa [s.map_fst_run cs] at this
  constructor
  · intro h
    refine ⟨fun c hc t ht hr => ?_,fun c hc d hd hr => ?_⟩
    · obtain ⟨p,hp,rfl⟩ := hterm c hc
      obtain ⟨hpm,hpr⟩ := hps p hp
      rw [State.eq_of_repr_eq _ (hsub ht) hpm (hr.trans hpr.symm)]
      exact (h.returned p hp).2
    · obtain ⟨p,hp,rfl⟩ := hterm c hc
      obtain ⟨q,hq,rfl⟩ := hterm d hd
      obtain ⟨hpm,hpr⟩ := hps p hp
      obtain ⟨hqm,hqr⟩ := hps q hq
      have heq := State.eq_of_repr_eq _ hpm hqm (hpr.trans (hr.trans hqr.symm))
      exact ((h.shared p hp q hq).mp heq).2
  · rintro ⟨hold,hfresh⟩
    have htau : ∀ p ∈ (s.run cs).1, p.2.tau = p.1.tau := by
      intro p hp
      obtain ⟨hpm,hpr⟩ := hps p hp
      rcases hnew p.2 hpm with ht | ⟨d,hd,hdr,hdt⟩
      · exact hold p.1 (hmem p hp) p.2 ht hpr
      · rw [hdt]
        exact hfresh d hd p.1 (hmem p hp) (hdr.symm.trans hpr)
    refine ⟨fun p hp => ⟨(hps p hp).2,htau p hp⟩,fun p hp infer => ?_,fun p hp q hq => ?_⟩
    · rw [typeof,htau p hp,(hps p hp).2]
      cases p.1.tau <;> rfl
    · obtain ⟨hpm,hpr⟩ := hps p hp
      obtain ⟨hqm,hqr⟩ := hps q hq
      constructor
      · intro h
        exact ⟨hpr.symm.trans ((congrArg HTerm.repr h).trans hqr),
          (htau p hp).symm.trans ((congrArg HTerm.tau h).trans (htau q hq))⟩
      · rintro ⟨hr,_⟩
        exact State.eq_of_repr_eq _ hpm hqm (hpr.trans (hr.trans hqr.symm))

abbrev Node (ADT Field Fun : Type) := Repr ADT Field Fun × List ℕ

/-- The construction of `c_fun f xs tau`. -/
def cFun {ADT Field Fun : Type} (f : Fun) (xs : List ℕ) (tau : Option (Tau ADT Field)) :
    Construction (Node ADT Field Fun) (Tau ADT Field) := ⟨tau,(.func f,xs)⟩

/-- A constant of type `int` and then of type `real`. -/
def twoTypes : List (Construction (Node Unit Unit Unit) (Tau Unit Unit)) :=
  [cFun () [] (some (.node .int [])),cFun () [] (some (.node .real []))]

theorem faithful_twoTypes : ¬ Faithful State.empty twoTypes := by
  intro h
  have htau := (h.returned (cFun () [] (some (.node .real [])),⟨0,(.func (),[]),some (.node .int [])⟩) (.tail _ (.head _))).2
  simp [cFun] at htau

end FramaC.Qed.Hashcons
