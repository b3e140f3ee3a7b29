import FramaC.Gauges.State

/-! # Soundness of the join of gauges

An environment with one counter for each loop satisfies a state when the counters are among its numbers of iterations and
each variable that is bound has one of its initial values plus, for each loop, that many increments. The join re-bases the
initial values of both states loop by loop, from the outermost; the order of the two maps must be kept on the way.
-/
namespace FramaC.Gauges
open Ival Integer Outcome MapMerge

section Satisfaction
variable {Base Stmt : Type} [DecidableEq Base]

def Counters (l : Loops Base Stmt) (ks : List ℕ) : Prop := List.Forall₂ (fun p k => CounterOk p.2 k) l ks

def Shift (x : Base) : Loops Base Stmt → List ℕ → ℤ → Prop
  | [], [], y => y = 0
  | (_,i) :: l, k :: ks, y => ∃ y1 y2, Bounds.Scaled k (coeff x i) y1 ∧ Shift x l ks y2 ∧ y = y1 + y2
  | _, _, _ => False

def Satisfies (env : Base → ℤ) (ks : List ℕ) (s : State Base Stmt) : Prop :=
  Counters s.loops ks ∧ ∀ x v, s.ct.lookup x = some v → ∃ a ∈ concr v, ∃ y, Shift x s.loops ks y ∧ env x = a + y

/-- Values well-formed and not empty, coefficients in order. -/
structure StateWf (sc : ℕ) (s : State Base Stmt) : Prop where
  values : MapWf sc s.ct
  loops : ∀ p ∈ s.loops, InfoWf p.2

/-- What the iterations of a loop add to a value is added by those of another, to another value. -/
def Side (i nb : IterationInfo Base) (ct ct' : MV Base) : Prop :=
  (∀ k, CounterOk i k → CounterOk nb k) ∧ ∀ x v', ct'.lookup x = some v' → ∃ v, ct.lookup x = some v ∧
    ∀ k, CounterOk i k → ∀ a ∈ concr v, ∀ y, Bounds.Scaled k (coeff x i) y →
      ∃ d ∈ concr v', ∃ y', Bounds.Scaled k (coeff x nb) y' ∧ a + y = d + y'

def Rebased (ct : MV Base) (l : Loops Base Stmt) (ct' : MV Base) (l' : Loops Base Stmt) : Prop :=
  (∀ ks, Counters l ks → Counters l' ks) ∧ ∀ x v', ct'.lookup x = some v' → ∃ v, ct.lookup x = some v ∧
    ∀ ks, Counters l ks → ∀ a ∈ concr v, ∀ y, Shift x l ks y →
      ∃ d ∈ concr v', ∃ y', Shift x l' ks y' ∧ a + y = d + y'

theorem Rebased.cons {ct c c' : MV Base} {l q : Loops Base Stmt} {i nb : IterationInfo Base} {stmt stmt' : Stmt}
    (h : Rebased ct l c q) (hs : Side i nb c c') : Rebased ct ((stmt,i) :: l) c' ((stmt',nb) :: q) := by
  refine ⟨?_,?_⟩
  · intro ks hks
    cases hks with
    | cons hk hks => exact List.Forall₂.cons (hs.1 _ hk) (h.1 _ hks)
  · intro x v' hv'
    obtain ⟨w,hw,hhead⟩ := hs.2 x v' hv'
    obtain ⟨v,hv,htail⟩ := h.2 x w hw
    refine ⟨v,hv,?_⟩
    intro ks hks a ha y hy
    cases hks with
    | @cons _ k _ ks hk hks =>
      obtain ⟨y1,y2,hy1,hy2,rfl⟩ := hy
      obtain ⟨d,hd,z2,hz2,he2⟩ := htail ks hks a ha y2 hy2
      obtain ⟨d',hd',z1,hz1,he1⟩ := hhead k hk d hd y1 hy1
      exact ⟨d',hd',z1 + z2,⟨z1,z2,hz1,hz2,rfl⟩,by linarith⟩

theorem Rebased.weaken {ct c c' : MV Base} {l q : Loops Base Stmt} (h : Rebased ct l c q)
    (hc : ∀ x v', c'.lookup x = some v' → ∃ v, c.lookup x = some v ∧ concr v ⊆ concr v') : Rebased ct l c' q := by
  refine ⟨h.1,?_⟩
  intro x v' hv'
  obtain ⟨w,hw,hsub⟩ := hc x v' hv'
  obtain ⟨v,hv,htail⟩ := h.2 x w hw
  refine ⟨v,hv,?_⟩
  intro ks hks a ha y hy
  obtain ⟨d,hd,z,hz,he⟩ := htail ks hks a ha y hy
  exact ⟨d,hsub hd,z,hz,he⟩

theorem Rebased.satisfies {ct c : MV Base} {l q : Loops Base Stmt} (h : Rebased ct l c q) {env : Base → ℤ} {ks : List ℕ}
    (hs : Satisfies env ks { ct, loops := l }) : Satisfies env ks { ct := c, loops := q } := by
  refine ⟨h.1 ks hs.1,?_⟩
  intro x v' hv'
  obtain ⟨v,hv,hcover⟩ := h.2 x v' hv'
  obtain ⟨a,ha,y,hy,he⟩ := hs.2 x v hv
  obtain ⟨d,hd,z,hz,he'⟩ := hcover ks hs.1 a ha y hy
  exact ⟨d,hd,z,hz,by rw [he,he']⟩

/-- Loops with more counters and, for the variables of a map, more increments. -/
def LoopsCover (ct : MV Base) (l l' : Loops Base Stmt) : Prop :=
  List.Forall₂ (fun p p' : Stmt × IterationInfo Base => (∀ k, CounterOk p.2 k → CounterOk p'.2 k) ∧
    ∀ x v, ct.lookup x = some v → ∀ k y, Bounds.Scaled k (coeff x p.2) y → Bounds.Scaled k (coeff x p'.2) y) l l'

theorem LoopsCover.refl (ct : MV Base) (l : Loops Base Stmt) : LoopsCover ct l l :=
  List.forall₂_same.mpr fun _ _ => ⟨fun _ h => h,fun _ _ _ _ _ h => h⟩

theorem LoopsCover.counters {ct : MV Base} {l l' : Loops Base Stmt} (h : LoopsCover ct l l') {ks : List ℕ}
    (hks : Counters l ks) : Counters l' ks := by
  induction h generalizing ks with
  | nil => exact hks
  | cons hp _ ih =>
    cases hks with
    | cons hk hks => exact List.Forall₂.cons (hp.1 _ hk) (ih hks)

theorem LoopsCover.shift {ct : MV Base} {l l' : Loops Base Stmt} (h : LoopsCover ct l l') {x : Base} {v : Ival}
    (hv : ct.lookup x = some v) {ks : List ℕ} {y : ℤ} (hy : Shift x l ks y) : Shift x l' ks y := by
  induction h generalizing ks y with
  | nil => exact hy
  | cons hp _ ih =>
    cases ks with
    | nil => exact hy.elim
    | cons k ks =>
      obtain ⟨y1,y2,hy1,hy2,rfl⟩ := hy
      exact ⟨y1,y2,hp.2 x v hv k y1 hy1,ih hy2,rfl⟩

theorem LoopsCover.satisfies {ct : MV Base} {l l' : Loops Base Stmt} (h : LoopsCover ct l l') {env : Base → ℤ}
    {ks : List ℕ} (hs : Satisfies env ks { ct, loops := l }) : Satisfies env ks { ct, loops := l' } := by
  refine ⟨h.counters hs.1,?_⟩
  intro x v hv
  obtain ⟨a,ha,y,hy,he⟩ := hs.2 x v hv
  exact ⟨a,ha,y,h.shift hv hy,he⟩

theorem restrict_spec (ct : MV Base) (l : Loops Base Stmt) : ∃ l', restrict ct l = .ok l' ∧ LoopsCover ct l l' := by
  induction l with
  | nil => exact ⟨[],rfl,List.Forall₂.nil⟩
  | cons p l ih =>
    obtain ⟨stmt,i⟩ := p
    obtain ⟨l',hl',hcover⟩ := ih
    obtain ⟨i',hi',hcoeff,hcount⟩ := restrictInfo_spec ct i
    refine ⟨(stmt,i') :: l',?_,List.Forall₂.cons ⟨?_,?_⟩ hcover⟩
    · simp only [restrict,hi',Res.ok_bind,hl']
      rfl
    · exact hcount
    · intro x v hv k y hy
      have he : coeff x i' = coeff x i := hcoeff x v hv
      change Bounds.Scaled k (coeff x i') y
      rw [he]
      exact hy

end Satisfaction

section Iteration
variable {Base Stmt : Type} [DecidableEq Base] {sc : ℕ}

/-- The first state is one precise iteration ahead: the maps are returned in the other order. -/
def ahead : IterationInfo Base → IterationInfo Base → Bool
  | .preciseIteration n1, .preciseIteration n2 => decide (n1 = n2 + 1)
  | _, _ => false

def symmetric : IterationInfo Base → IterationInfo Base → Bool
  | .multipleIterations _ _, .multipleIterations _ _ => true
  | .preciseIteration n1, .preciseIteration n2 => decide (n1 ≠ n2 + 1 ∧ n2 ≠ n1 + 1)
  | .preciseIteration n, .multipleIterations _ _ => decide (n = 0)
  | .multipleIterations _ _, .preciseIteration n => decide (n = 0)

@[grind =] def swapped : Loops Base Stmt → Loops Base Stmt → Bool
  | (_,.preciseIteration n1) :: q1, (_,.preciseIteration n2) :: q2 => if n1 = n2 then swapped q1 q2 else decide (n1 = n2 + 1)
  | _ :: q1, _ :: q2 => swapped q1 q2
  | _, _ => false

/-- No loop compares the iterations of the two states while the maps are in the other order. -/
def InOrder : Loops Base Stmt → Loops Base Stmt → Prop
  | (_,nb1) :: q1, (_,nb2) :: q2 => InOrder q1 q2 ∧ (swapped q1 q2 = true → symmetric nb1 nb2 = true)
  | _, _ => True

theorem side_self {i nb : IterationInfo Base} (hcount : ∀ k, CounterOk i k → CounterOk nb k)
    (hcoeff : ∀ x k y, Bounds.Scaled k (coeff x i) y → Bounds.Scaled k (coeff x nb) y) (ct : MV Base) : Side i nb ct ct := by
  refine ⟨hcount,?_⟩
  intro x v' hv'
  exact ⟨v',hv',fun k _ a ha y hy => ⟨a,ha,y,hcoeff x k y hy,rfl⟩⟩

theorem side_empty {i nb : IterationInfo Base} (hcount : ∀ k, CounterOk i k → CounterOk nb k) (ct : MV Base) :
    Side i nb ct ∅ :=
  ⟨hcount,fun x v' hv' => by cases hv'⟩

theorem side_removed {n : ℕ} {nb : Bounds} {mc : MC Base} {ct ct' : MV Base} (hn : Bounds.Mem nb n)
    (hs : Shifts (fun x y => Bounds.Scaled n (default (mc.lookup x)) y) ct ct') :
    Side (.preciseIteration n) (.multipleIterations nb mc) ct ct' := by
  refine ⟨?_,?_⟩
  · rintro k rfl
    exact hn
  · intro x v' hv'
    obtain ⟨v,hv⟩ := hs.bound x v' hv'
    refine ⟨v,hv,?_⟩
    rintro k rfl a ha y hy
    obtain ⟨d,hd,z,hz,he⟩ := hs.cover x v v' hv hv' a ha
    refine ⟨d,hd,z,hz,?_⟩
    rw [Bounds.scaled_of_zero hy,add_zero]
    exact he

/-- The result of one loop, for maps in the order of the states, and in the other order where that makes no difference. -/
structure IterationSpec (sc : ℕ) (nb1 nb2 nb : IterationInfo Base) (ct1 ct2 c1 c2 : MV Base) : Prop where
  wf1 : MapWf sc c1
  wf2 : MapWf sc c2
  wf : InfoWf nb
  precise : ∀ n, nb = .preciseIteration n → nb1 = .preciseIteration n
  left : Side nb1 nb ct1 (if ahead nb1 nb2 then c2 else c1)
  right : Side nb2 nb ct2 (if ahead nb1 nb2 then c1 else c2)
  crossed : symmetric nb1 nb2 = true → Side nb1 nb ct2 c2 ∧ Side nb2 nb ct1 c1
  gone : ∀ n1 n2, nb1 = .preciseIteration n1 → nb2 = .preciseIteration n2 → n1 ≠ n2 → symmetric nb1 nb2 = true → c1 = c2

theorem joinMultiple_spec {b1 b2 : Bounds} {k1 k2 : MC Base} (h1 : InfoWf (.multipleIterations b1 k1)) {ct1 ct2 : MV Base}
    (hct1 : MapWf sc ct1) (hct2 : MapWf sc ct2) (joinedIter : Bool) : ∃ c1 c2 nb j,
      joinIteration sc (.multipleIterations b1 k1) (.multipleIterations b2 k2) ct1 ct2 joinedIter = .ok (c1,c2,nb,j) ∧
      IterationSpec sc (.multipleIterations b1 k1) (.multipleIterations b2 k2) nb ct1 ct2 c1 c2 := by
  obtain ⟨c,hc,hlook⟩ := joinCoeffs_spec k1 k2
  have hleft : ∀ ct : MV Base, Side (.multipleIterations b1 k1) (.multipleIterations (Bounds.join b1 b2) c) ct ct := by
    intro ct
    refine side_self ?_ ?_ ct
    · intro k hk
      exact Bounds.mem_join_left (b := b1) hk
    · intro x k y hy
      simp only [coeff,hlook x]
      exact hy.join_left
  have hright : ∀ ct : MV Base, Side (.multipleIterations b2 k2) (.multipleIterations (Bounds.join b1 b2) c) ct ct := by
    intro ct
    refine side_self ?_ ?_ ct
    · intro k hk
      exact Bounds.mem_join_right (c := b2) hk
    · intro x k y hy
      simp only [coeff,hlook x]
      exact hy.join_right
  refine ⟨ct1,ct2,.multipleIterations (Bounds.join b1 b2) c,joinedIter,?_,hct1,hct2,?_,by simp,hleft ct1,hright ct2,?_,
    by simp⟩
  · simp only [joinIteration,hc,Res.ok_bind]
    rfl
  · intro x
    simp only [coeff,hlook x]
    exact ordered_join (h1 x)
  · intro _
    exact ⟨hleft ct2,hright ct1⟩

theorem joinPrecise_spec (hsc : 2 ≤ sc) (n1 n2 : ℕ) {ct1 ct2 : MV Base} (hct1 : MapWf sc ct1) (hct2 : MapWf sc ct2)
    (joinedIter : Bool) : ∃ c1 c2 nb j,
      joinIteration sc (.preciseIteration n1) (.preciseIteration n2) ct1 ct2 joinedIter = .ok (c1,c2,nb,j) ∧
      IterationSpec sc (.preciseIteration n1) (.preciseIteration n2) nb ct1 ct2 c1 c2 := by
  have hempty : MapWf sc (∅ : MV Base) := fun x v hv => by cases hv
  have hself : ∀ (n : ℕ) (ct : MV Base), Side (.preciseIteration n) (.preciseIteration n) ct ct :=
    fun n ct => side_self (fun k hk => hk) (fun x k y hy => hy) ct
  by_cases heq : n1 = n2
  · subst heq
    have hfalse : ahead (.preciseIteration n1 : IterationInfo Base) (.preciseIteration n1) = false := by
      simp [ahead]
    refine ⟨ct1,ct2,.preciseIteration n1,false,?_,hct1,hct2,fun x => ordered_zero,fun n hn => hn,?_,?_,?_,?_⟩
    · simp only [joinIteration,if_true]
      rfl
    · rw [hfalse]
      exact hself n1 ct1
    · rw [hfalse]
      exact hself n1 ct2
    · intro _
      exact ⟨hself n1 ct2,hself n1 ct1⟩
    · rintro _ _ ⟨⟩ ⟨⟩ hne
      exact absurd rfl hne
  · by_cases hahead : n1 = n2 + 1
    · subst hahead
      have htrue : ahead (.preciseIteration (n2 + 1) : IterationInfo Base) (.preciseIteration n2) = true := by
        simp [ahead]
      obtain ⟨mc,hmc,hord⟩ := deltaMv_spec hct2 hct1
      obtain ⟨c2,hc2,hwf2,hs2⟩ := removeCoeffs_spec hsc hord n2 hct2
      obtain ⟨c1,hc1,hwf1,hs1⟩ := removeCoeffs_spec hsc hord (n2 + 1) hct1
      refine ⟨c2,c1,.multipleIterations (Bounds.injectRange (n2 + 1) n2) mc,true,?_,hwf2,hwf1,hord,by simp,?_,?_,?_,
        by simp [symmetric]⟩
      · simp only [joinIteration,if_neg heq,joinConsecutiveLambda,hmc,Res.ok_bind,hc2,hc1]
        rfl
      · rw [htrue]
        exact side_removed (Bounds.mem_injectRange_left _ _) hs1
      · rw [htrue]
        exact side_removed (Bounds.mem_injectRange_right _ _) hs2
      · intro h
        simp [symmetric] at h
    · have hfalse : ahead (.preciseIteration n1 : IterationInfo Base) (.preciseIteration n2) = false := by
        simp [ahead,hahead]
      by_cases hbehind : n2 = n1 + 1
      · subst hbehind
        obtain ⟨mc,hmc,hord⟩ := deltaMv_spec hct1 hct2
        obtain ⟨c1,hc1,hwf1,hs1⟩ := removeCoeffs_spec hsc hord n1 hct1
        obtain ⟨c2,hc2,hwf2,hs2⟩ := removeCoeffs_spec hsc hord (n1 + 1) hct2
        refine ⟨c1,c2,.multipleIterations (Bounds.injectRange n1 (n1 + 1)) mc,true,?_,hwf1,hwf2,hord,by simp,?_,?_,?_,
          by simp [symmetric]⟩
        · simp only [joinIteration,if_neg heq,if_neg hahead,joinConsecutiveLambda,hmc,Res.ok_bind,hc2,hc1]
          rfl
        · rw [hfalse]
          exact side_removed (Bounds.mem_injectRange_left _ _) hs1
        · rw [hfalse]
          exact side_removed (Bounds.mem_injectRange_right _ _) hs2
        · intro h
          simp [symmetric] at h
      · have hside1 : ∀ ct : MV Base,
            Side (.preciseIteration n1) (.multipleIterations (Bounds.injectRange n1 n2) ∅) ct ∅ := by
          refine side_empty ?_
          rintro k rfl
          exact Bounds.mem_injectRange_left _ _
        have hside2 : ∀ ct : MV Base,
            Side (.preciseIteration n2) (.multipleIterations (Bounds.injectRange n1 n2) ∅) ct ∅ := by
          refine side_empty ?_
          rintro k rfl
          exact Bounds.mem_injectRange_right _ _
        refine ⟨∅,∅,.multipleIterations (Bounds.injectRange n1 n2) ∅,true,?_,hempty,hempty,fun x => ordered_zero,
          by simp,?_,?_,?_,fun _ _ _ _ _ _ => rfl⟩
        · simp only [joinIteration,if_neg heq,if_neg hahead,if_neg hbehind]
          rfl
        · rw [ite_self]
          exact hside1 ct1
        · rw [ite_self]
          exact hside2 ct2
        · intro _
          exact ⟨hside1 ct2,hside2 ct1⟩

theorem joinIteration_spec (hsc : 2 ≤ sc) {nb1 nb2 : IterationInfo Base} (h1 : InfoWf nb1) (h2 : InfoWf nb2)
    {ct1 ct2 : MV Base} (hct1 : MapWf sc ct1) (hct2 : MapWf sc ct2) (joinedIter : Bool) : ∃ c1 c2 nb j,
      joinIteration sc nb1 nb2 ct1 ct2 joinedIter = .ok (c1,c2,nb,j) ∧ IterationSpec sc nb1 nb2 nb ct1 ct2 c1 c2 := by
  cases nb1 with
  | multipleIterations b1 k1 =>
    cases nb2 with
    | multipleIterations b2 k2 => exact joinMultiple_spec h1 hct1 hct2 joinedIter
    | preciseIteration n2 =>
      obtain ⟨c,hc,hwf,hs⟩ := removeCoeffs_spec hsc h1 n2 hct2
      have hself : ∀ ct : MV Base, Side (.multipleIterations b1 k1) (.multipleIterations (Bounds.enlarge n2 b1) k1) ct ct := by
        intro ct
        refine side_self ?_ ?_ ct
        · intro k hk
          exact Bounds.mem_enlarge (b := b1) n2 hk
        · intro x k y hy
          exact hy
      refine ⟨ct1,c,.multipleIterations (Bounds.enlarge n2 b1) k1,true,?_,hct1,hwf,h1,by simp,hself ct1,?_,?_,by simp⟩
      · simp only [joinIteration,hc,Res.ok_bind]
        rfl
      · exact side_removed (Bounds.mem_enlarge_self n2 b1) hs
      · intro h
        obtain rfl : n2 = 0 := of_decide_eq_true h
        cases hc
        exact ⟨hself ct2,side_removed (Bounds.mem_enlarge_self 0 b1) (shifts_zero k1 ct1)⟩
  | preciseIteration n1 =>
    cases nb2 with
    | preciseIteration n2 => exact joinPrecise_spec hsc n1 n2 hct1 hct2 joinedIter
    | multipleIterations b2 k2 =>
      obtain ⟨c,hc,hwf,hs⟩ := removeCoeffs_spec hsc h2 n1 hct1
      have hself : ∀ ct : MV Base, Side (.multipleIterations b2 k2) (.multipleIterations (Bounds.enlarge n1 b2) k2) ct ct := by
        intro ct
        refine side_self ?_ ?_ ct
        · intro k hk
          exact Bounds.mem_enlarge (b := b2) n1 hk
        · intro x k y hy
          exact hy
      refine ⟨c,ct2,.multipleIterations (Bounds.enlarge n1 b2) k2,true,?_,hwf,hct2,h2,by simp,?_,hself ct2,?_,by simp⟩
      · simp only [joinIteration,hc,Res.ok_bind]
        rfl
      · exact side_removed (Bounds.mem_enlarge_self n1 b2) hs
      · intro h
        obtain rfl : n1 = 0 := of_decide_eq_true h
        cases hc
        exact ⟨side_removed (Bounds.mem_enlarge_self 0 b2) (shifts_zero k2 ct2),hself ct1⟩

end Iteration

section Iterations
variable {Base Stmt : Type} {sc : ℕ}

/-- The maps come in the order of the states, or in the other. -/
structure IterationsSpec [DecidableEq Base] (sc : ℕ) (ct1 ct2 : MV Base) (l1 l2 : Loops Base Stmt) (c1 c2 : MV Base)
    (q : Loops Base Stmt) : Prop where
  wf1 : MapWf sc c1
  wf2 : MapWf sc c2
  loops : ∀ p ∈ q, InfoWf p.2
  shape : List.Forall₂ (fun p p' => p.1 = p'.1 ∧ ∀ n, p'.2 = .preciseIteration n → p.2 = .preciseIteration n) l1 q
  left : Rebased ct1 l1 (if swapped l1 l2 then c2 else c1) q
  right : Rebased ct2 l2 (if swapped l1 l2 then c1 else c2) q

theorem swapped_cons_of_true {nb1 nb2 : IterationInfo Base} {stmt1 stmt2 : Stmt} {q1 q2 : Loops Base Stmt}
    (hq : swapped q1 q2 = true) (hne : ∀ n1 n2, nb1 = .preciseIteration n1 →
      nb2 = .preciseIteration n2 → n1 = n2) : swapped ((stmt1,nb1) :: q1) ((stmt2,nb2) :: q2) = true := by
  cases nb1 with
  | preciseIteration n1 =>
    cases nb2 with
    | preciseIteration n2 =>
      rw [swapped,if_pos (hne n1 n2 rfl rfl)]
      exact hq
    | multipleIterations b2 k2 => exact hq
  | multipleIterations b1 k1 =>
    cases nb2 with
    | preciseIteration n2 => exact hq
    | multipleIterations b2 k2 => exact hq

theorem swapped_cons_of_false {nb1 nb2 : IterationInfo Base} {stmt1 stmt2 : Stmt} {q1 q2 : Loops Base Stmt}
    (hq : swapped q1 q2 = false) : swapped ((stmt1,nb1) :: q1) ((stmt2,nb2) :: q2) = ahead nb1 nb2 := by
  cases nb1 with
  | preciseIteration n1 =>
    cases nb2 with
    | preciseIteration n2 =>
      by_cases he : n1 = n2
      · subst he
        simp [swapped,ahead,hq]
      · simp [swapped,ahead,he]
    | multipleIterations b2 k2 => exact hq
  | multipleIterations b1 k1 =>
    cases nb2 with
    | preciseIteration n2 => exact hq
    | multipleIterations b2 k2 => exact hq

variable [DecidableEq Base] [DecidableEq Stmt]

theorem joinIterations_spec (hsc : 2 ≤ sc) {ct1 ct2 : MV Base} (hct1 : MapWf sc ct1) (hct2 : MapWf sc ct2)
    (l1 l2 : Loops Base Stmt) (h1 : ∀ p ∈ l1, InfoWf p.2) (h2 : ∀ p ∈ l2, InfoWf p.2)
    (hsame : l1.map Prod.fst = l2.map Prod.fst) (hord : InOrder l1 l2) : ∃ c1 c2 q j,
      joinIterations sc ct1 ct2 l1 l2 = .ok (some (c1,c2,q,j)) ∧ IterationsSpec sc ct1 ct2 l1 l2 c1 c2 q := by
  induction l1 generalizing l2 with
  | nil =>
    cases l2 with
    | cons p l2 => cases hsame
    | nil =>
      have hrefl : ∀ ct : MV Base, Rebased ct ([] : Loops Base Stmt) ct [] :=
        fun ct => ⟨fun _ h => h,fun x v hv => ⟨v,hv,fun ks _ a ha y hy => ⟨a,ha,y,hy,rfl⟩⟩⟩
      exact ⟨ct1,ct2,[],false,rfl,hct1,hct2,by simp,List.Forall₂.nil,hrefl ct1,hrefl ct2⟩
  | cons p1 l1 ih =>
    cases l2 with
    | nil => cases hsame
    | cons p2 l2 =>
      obtain ⟨stmt1,nb1⟩ := p1
      obtain ⟨stmt2,nb2⟩ := p2
      rw [List.map_cons,List.map_cons,List.cons.injEq] at hsame
      obtain ⟨hstmt,hsame⟩ := hsame
      have hstmt : stmt1 = stmt2 := hstmt
      obtain ⟨hord,hsym⟩ := hord
      obtain ⟨c1,c2,q,j,hjoin,hspec⟩ := ih l2 (fun p hp => h1 p (List.mem_cons_of_mem _ hp))
        (fun p hp => h2 p (List.mem_cons_of_mem _ hp)) hsame hord
      obtain ⟨d1,d2,nb,j',hiter,hstep⟩ := joinIteration_spec hsc (h1 _ List.mem_cons_self) (h2 _ List.mem_cons_self)
        hspec.wf1 hspec.wf2 j
      have hsides : Rebased ct1 ((stmt1,nb1) :: l1) (if swapped ((stmt1,nb1) :: l1) ((stmt2,nb2) :: l2) then d2 else d1)
          ((stmt1,nb) :: q) ∧ Rebased ct2 ((stmt2,nb2) :: l2)
          (if swapped ((stmt1,nb1) :: l1) ((stmt2,nb2) :: l2) then d1 else d2) ((stmt1,nb) :: q) := by
        have hleft := hspec.left
        have hright := hspec.right
        cases hsw : swapped l1 l2 with
        | false =>
          rw [hsw] at hleft hright
          rw [swapped_cons_of_false hsw]
          exact ⟨hleft.cons hstep.left,hright.cons hstep.right⟩
        | true =>
          rw [hsw] at hleft hright
          have hs := hsym hsw
          obtain ⟨hs1,hs2⟩ := hstep.crossed hs
          by_cases hne : ∃ n1 n2, nb1 = .preciseIteration n1 ∧ nb2 = .preciseIteration n2 ∧ n1 ≠ n2
          · obtain ⟨n1,n2,hn1,hn2,hne⟩ := hne
            have hgone := hstep.gone n1 n2 hn1 hn2 hne hs
            subst hgone
            rw [ite_self]
            exact ⟨hleft.cons hs1,hright.cons hs2⟩
          · rw [swapped_cons_of_true hsw fun n1 n2 hn1 hn2 => by
              by_contra hc
              exact hne ⟨n1,n2,hn1,hn2,hc⟩]
            exact ⟨hleft.cons hs1,hright.cons hs2⟩
      refine ⟨d1,d2,(stmt1,nb) :: q,j',?_,hstep.wf1,hstep.wf2,?_,?_,hsides.1,hsides.2⟩
      · rw [joinIterations,if_neg (not_not_intro hstmt),hjoin]
        simp only [Res.ok_bind,hiter]
        rfl
      · intro p hp
        rcases List.mem_cons.mp hp with rfl | hp
        · exact hstep.wf
        · exact hspec.loops p hp
      · exact List.Forall₂.cons ⟨rfl,hstep.precise⟩ hspec.shape

end Iterations

end FramaC.Gauges
