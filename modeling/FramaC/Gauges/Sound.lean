import FramaC.Gauges.Join

/-! # Soundness of the gauges domain

Join and widening cover both states where the loops leave the maps in order; the other operations follow the counters, and
a gauge that is evaluated or reduced by a value keeps the environments that have it.
-/
namespace FramaC.Gauges
open Ival Integer Outcome MapMerge

section Lattice
variable {Base Stmt : Type} [DecidableEq Base] [DecidableEq Stmt] {sc : ℕ} {s s1 s2 : State Base Stmt}

omit [DecidableEq Stmt] in
theorem IterationsSpec.satisfies {c1 c2 ct : MV Base} {q : Loops Base Stmt}
    (h : IterationsSpec sc s1.ct s2.ct s1.loops s2.loops c1 c2 q)
    (h1 : ∀ x v, ct.lookup x = some v → ∃ v', c1.lookup x = some v' ∧ concr v' ⊆ concr v)
    (h2 : ∀ x v, ct.lookup x = some v → ∃ v', c2.lookup x = some v' ∧ concr v' ⊆ concr v) {env : Base → ℤ} {ks : List ℕ}
    (hs : Satisfies env ks s1 ∨ Satisfies env ks s2) : Satisfies env ks { ct, loops := q } := by
  have hleft := h.left
  have hright := h.right
  cases hsw : swapped s1.loops s2.loops with
  | true =>
    rw [hsw] at hleft hright
    exact hs.elim (hleft.weaken h2).satisfies (hright.weaken h1).satisfies
  | false =>
    rw [hsw] at hleft hright
    exact hs.elim (hleft.weaken h1).satisfies (hright.weaken h2).satisfies

theorem join_sound (hsc : 2 ≤ sc) (h1 : StateWf sc s1) (h2 : StateWf sc s2)
    (hsame : s1.loops.map Prod.fst = s2.loops.map Prod.fst) (hord : InOrder s1.loops s2.loops) :
    ∃ j, join sc s1 s2 = .ok j ∧ ∀ env ks, Satisfies env ks s1 ∨ Satisfies env ks s2 → Satisfies env ks j := by
  obtain ⟨c1,c2,q,b,hjoin,hspec⟩ := joinIterations_spec hsc h1.values h2.values s1.loops s2.loops h1.loops h2.loops hsame hord
  obtain ⟨ct,hct,_,hcover⟩ := joinSameLambda_spec hsc hspec.wf1 hspec.wf2
  obtain ⟨q',hq',hrestrict⟩ := restrict_spec ct q
  refine ⟨{ ct, loops := q' },?_,?_⟩
  · simp only [join,hjoin,Res.ok_bind,hct,hq']
    rfl
  · intro env ks hs
    refine hrestrict.satisfies (hspec.satisfies ?_ ?_ hs)
    · exact fun x v hv => (hcover x v hv).1
    · exact fun x v hv => (hcover x v hv).2

theorem widenIterations_spec (widenNb : Bool) (nb1 : Bounds) (c1 : MC Base) (nb2 : Bounds) (c2 : MC Base) :
    ∃ i, widenIterations widenNb nb1 c1 nb2 c2 = .ok i ∧
      (∀ k, CounterOk (.multipleIterations nb2 c2) k → CounterOk i k) ∧
      ∀ x k y, Bounds.Scaled k (coeff x (.multipleIterations nb2 c2)) y → Bounds.Scaled k (coeff x i) y := by
  obtain ⟨c,hc,hlook⟩ := widenCoeffs_spec c1 c2
  refine ⟨_,by simp only [widenIterations,hc,Res.ok_bind]; rfl,?_,?_⟩
  · intro k hk
    have hk : Bounds.Mem nb2 k := hk
    have hw : Bounds.Mem (Bounds.widen nb1 nb2) k := Bounds.mem_widen hk
    change Bounds.Mem _ k
    cases widenNb with
    | false => exact Bounds.mem_join_right hk
    | true =>
      simp only [if_true]
      split
      · refine ⟨?_,hw.2⟩
        rintro _ ⟨⟩
        exact Int.natCast_nonneg k
      · exact hw
  · intro x k y hy
    simp only [coeff,hlook x]
    exact hy.widen

theorem widenL_spec (stmt : Stmt) (b : Bool) (ct : MV Base) {l1 lj : Loops Base Stmt}
    (h : List.Forall₂ (fun p p' => p.1 = p'.1 ∧ ∀ n, p'.2 = .preciseIteration n → p.2 = .preciseIteration n) l1 lj) :
    ∃ l, widenL stmt b l1 lj = .ok l ∧ LoopsCover ct lj l := by
  induction h with
  | nil => exact ⟨[],rfl,List.Forall₂.nil⟩
  | @cons p1 pj l1 lj hp _ ih =>
    obtain ⟨stmt1,i1⟩ := p1
    obtain ⟨stmtj,ij⟩ := pj
    obtain ⟨hstmt,hshape⟩ := hp
    have hstmt : stmt1 = stmtj := hstmt
    subst hstmt
    obtain ⟨l,hl,hcover⟩ := ih
    -- the iterations that are kept or widened cover those of the join
    have hinfo : ∃ i, widenInfo (decide (stmt = stmt1) || !b) i1 ij = .ok i ∧
        (∀ k, CounterOk ij k → CounterOk i k) ∧
        ∀ x k y, Bounds.Scaled k (coeff x ij) y → Bounds.Scaled k (coeff x i) y := by
      cases i1 with
      | preciseIteration n => exact ⟨ij,rfl,fun _ h => h,fun _ _ _ h => h⟩
      | multipleIterations nb1 c1 =>
        cases ij with
        | preciseIteration n => cases hshape n rfl
        | multipleIterations nbj cj => exact widenIterations_spec _ nb1 c1 nbj cj
    obtain ⟨i,hi,hcount,hcoeff⟩ := hinfo
    have hhead : (∀ k, CounterOk ij k → CounterOk i k) ∧
        ∀ x v, ct.lookup x = some v → ∀ k y, Bounds.Scaled k (coeff x ij) y → Bounds.Scaled k (coeff x i) y :=
      ⟨hcount,fun x _ _ => hcoeff x⟩
    have hstep : widenL stmt b ((stmt1,i1) :: l1) ((stmt1,ij) :: lj) =
        if i.equal ij then .ok ((stmt1,i) :: l) else .ok ((stmt1,i) :: lj) := by
      rw [widenL,if_neg (not_not_intro rfl),hi,Res.ok_bind,hl]
      rfl
    by_cases heq : i.equal ij = true
    · exact ⟨_,by rw [hstep,if_pos heq],List.Forall₂.cons hhead hcover⟩
    · exact ⟨_,by rw [hstep,if_neg heq],List.Forall₂.cons hhead (LoopsCover.refl ct lj)⟩

theorem widen_sound (hsc : 2 ≤ sc) (h1 : StateWf sc s1) (h2 : StateWf sc s2)
    (hsame : s1.loops.map Prod.fst = s2.loops.map Prod.fst) (hord : InOrder s1.loops s2.loops) (stmt : Stmt) :
    ∃ w, widen sc stmt s1 s2 = .ok (some w) ∧
      ∀ env ks, Satisfies env ks s1 ∨ Satisfies env ks s2 → Satisfies env ks w := by
  obtain ⟨c1,c2,q,b,hjoin,hspec⟩ := joinIterations_spec hsc h1.values h2.values s1.loops s2.loops h1.loops h2.loops hsame hord
  obtain ⟨ctj,hctj,hwfj,hcover⟩ := joinSameLambda_spec hsc hspec.wf1 hspec.wf2
  have hct : ∃ ct, (if b then pure ctj else MV.widen sc c1 ctj) = .ok ct ∧
      ∀ x v, ct.lookup x = some v → ∃ v', ctj.lookup x = some v' ∧ concr v' ⊆ concr v := by
    cases b with
    | true => exact ⟨ctj,rfl,fun x v hv => ⟨v,hv,subset_rfl⟩⟩
    | false =>
      refine widenMap_spec hsc hspec.wf1 hwfj ?_
      intro x v1 v2 hv1 hv2
      obtain ⟨⟨v1',hv1',hsub⟩,_⟩ := hcover x v2 hv2
      rw [hv1] at hv1'
      cases hv1'
      exact hsub
  obtain ⟨ct,hct,hgrow⟩ := hct
  have hl : ∃ l, (if ctj.entries.Perm c2.entries then
      widenL stmt (q.any fun p => decide (stmt = p.1)) s1.loops q else pure q) = .ok l ∧ LoopsCover ct q l := by
    split
    · exact widenL_spec stmt _ ct hspec.shape
    · exact ⟨q,rfl,LoopsCover.refl ct q⟩
  obtain ⟨l,hl,hloops⟩ := hl
  obtain ⟨l',hl',hrestrict⟩ := restrict_spec ct l
  refine ⟨{ ct, loops := l' },?_,?_⟩
  · simp only [widen,hjoin,Res.ok_bind,hctj,hct,hl,hl']
    rfl
  · intro env ks hs
    refine hrestrict.satisfies (hloops.satisfies (hspec.satisfies ?_ ?_ hs))
    · intro x v hv
      obtain ⟨w,hw,hsub⟩ := hgrow x v hv
      obtain ⟨⟨v1,hv1,hsub1⟩,_⟩ := hcover x w hw
      exact ⟨v1,hv1,hsub1.trans hsub⟩
    · intro x v hv
      obtain ⟨w,hw,hsub⟩ := hgrow x v hv
      obtain ⟨_,v2,hv2,hsub2⟩ := hcover x w hw
      exact ⟨v2,hv2,hsub2.trans hsub⟩

end Lattice

section LoopOperations
variable {Base Stmt : Type} [DecidableEq Base] {sc : ℕ} {s : State Base Stmt}

theorem inc_sound (hsc : 2 ≤ sc) (h : StateWf sc s) {stmt : Stmt} {i : IterationInfo Base} {q : Loops Base Stmt}
    (hl : s.loops = (stmt,i) :: q) : ∃ s', inc sc s = .ok s' ∧
      ∀ env k ks, Satisfies env (k :: ks) s → Satisfies env ((k + 1) :: ks) s' := by
  obtain ⟨ct,l⟩ := s
  have hl : l = (stmt,i) :: q := hl
  subst hl
  cases i with
  | preciseIteration n =>
    refine ⟨_,rfl,?_⟩
    rintro env k ks ⟨hcount,hval⟩
    cases hcount with
    | cons hk hks =>
      have hk : k = n := hk
      refine ⟨List.Forall₂.cons (congrArg (· + 1) hk) hks,?_⟩
      intro x v hv
      obtain ⟨a,ha,_,⟨y1,y2,hy1,hy2,rfl⟩,he⟩ := hval x v hv
      refine ⟨a,ha,_,⟨y1,y2,?_,hy2,rfl⟩,he⟩
      rw [Bounds.scaled_of_zero hy1]
      exact Bounds.zero_scaled
  | multipleIterations nb c =>
    obtain ⟨ct',hct',_,hs⟩ := mvMinusMc_spec hsc h.values (h.loops _ List.mem_cons_self)
    refine ⟨{ ct := ct', loops := (stmt,.multipleIterations nb.succ c) :: q },?_,?_⟩
    · simp only [inc,hct',Res.ok_bind]
      rfl
    · rintro env k ks ⟨hcount,hval⟩
      cases hcount with
      | cons hk hks =>
        have hk : Bounds.Mem nb k := hk
        refine ⟨List.Forall₂.cons ?_ hks,?_⟩
        · change Bounds.Mem nb.succ ((k + 1 : ℕ) : ℤ)
          exact_mod_cast Bounds.mem_succ hk
        · intro x v' hv'
          obtain ⟨v,hv⟩ := hs.bound x v' hv'
          obtain ⟨a,ha,_,⟨y1,y2,hy1,hy2,rfl⟩,he⟩ := hval x v hv
          obtain ⟨d,hd,y,hy,rfl⟩ := hs.cover x v v' hv hv' a ha
          exact ⟨d,hd,_,⟨y1 + y,y2,hy1.succ hy,hy2,rfl⟩,by rw [he]; ring⟩

theorem enterLoop_sound (stmt : Stmt) {env : Base → ℤ} {ks : List ℕ} (h : Satisfies env ks s) :
    Satisfies env (0 :: ks) (enterLoop stmt s) := by
  refine ⟨List.Forall₂.cons rfl h.1,?_⟩
  intro x v hv
  obtain ⟨a,ha,y,hy,he⟩ := h.2 x v hv
  exact ⟨a,ha,0 + y,⟨0,y,Bounds.scaled_zero,hy,rfl⟩,by rw [he,zero_add]⟩

theorem leaveLoop_sound [DecidableEq Stmt] (hsc : 2 ≤ sc) (h : StateWf sc s) {stmt : Stmt} {i : IterationInfo Base}
    {q : Loops Base Stmt} (hl : s.loops = (stmt,i) :: q) : ∃ s', leaveLoop sc stmt s = .ok s' ∧
      ∀ env k ks, Satisfies env (k :: ks) s → Satisfies env ks s' := by
  obtain ⟨ct,l⟩ := s
  have hl : l = (stmt,i) :: q := hl
  subst hl
  cases i with
  | preciseIteration n =>
    refine ⟨{ ct, loops := q },?_,?_⟩
    · simp only [leaveLoop,if_neg (not_not_intro rfl)]
      rfl
    · rintro env k ks ⟨hcount,hval⟩
      cases hcount with
      | cons hk hks =>
        refine ⟨hks,?_⟩
        intro x v hv
        obtain ⟨a,ha,_,⟨y1,y2,hy1,hy2,rfl⟩,he⟩ := hval x v hv
        rw [Bounds.scaled_of_zero hy1,zero_add] at he
        exact ⟨a,ha,y2,hy2,he⟩
  | multipleIterations nb c =>
    obtain ⟨ct',hct',hspec⟩ := forget_spec hsc nb h.values (h.loops _ List.mem_cons_self)
    refine ⟨{ ct := ct', loops := q },?_,?_⟩
    · simp only [leaveLoop,if_neg (not_not_intro rfl),hct',Res.ok_bind]
      rfl
    · rintro env k ks ⟨hcount,hval⟩
      cases hcount with
      | cons hk hks =>
        refine ⟨hks,?_⟩
        intro x v' hv'
        obtain ⟨v,hv,hadd⟩ := hspec x v' hv'
        obtain ⟨a,ha,_,⟨y1,y2,hy1,hy2,rfl⟩,he⟩ := hval x v hv
        exact ⟨a + y1,hadd a ha k y1 hk hy1,y2,hy2,by rw [he]; ring⟩

end LoopOperations

section Reduction
variable {Base Stmt : Type} [DecidableEq Base] {sc : ℕ} {s : State Base Stmt}

theorem shift_spec {x : Base} {l : Loops Base Stmt} {ks : List ℕ} (hks : Counters l ks) {y : ℤ} (hy : Shift x l ks y) :
    ∃ b, shift l (l.map fun p => coeff x p.2) = .ok b ∧ Bounds.Mem b y := by
  induction hks generalizing y with
  | nil =>
    have hy : y = 0 := hy
    subst hy
    exact ⟨Bounds.zero,rfl,mem_zero⟩
  | @cons p k l ks hk _ ih =>
    obtain ⟨stmt,i⟩ := p
    obtain ⟨y1,y2,hy1,hy2,rfl⟩ := hy
    obtain ⟨b,hb,hmem⟩ := ih hy2
    cases i with
    | preciseIteration n =>
      refine ⟨b,?_,?_⟩
      · have hzero : ¬ coeff x (.preciseIteration n) ≠ Bounds.zero := not_not_intro rfl
        rw [List.map_cons,shift,if_neg hzero]
        exact hb
      · rw [Bounds.scaled_of_zero hy1,zero_add]
        exact hmem
    | multipleIterations nb c =>
      refine ⟨_,?_,Bounds.mem_add (Bounds.mem_mul_scaled hk hy1) hmem⟩
      rw [List.map_cons,shift,hb,Res.ok_bind]
      rfl

theorem evalGauge_sound (hsc : 2 ≤ sc) (h : StateWf sc s) {x : Base} {g : Ival × List Bounds}
    (hg : extractGauge s x = some g) {env : Base → ℤ} {ks : List ℕ} (hs : Satisfies env ks s) :
    ∃ v, evalGauge sc s g = .ok v ∧ env x ∈ concr v := by
  unfold extractGauge at hg
  cases hv : s.ct.lookup x with
  | none =>
    rw [hv] at hg
    cases hg
  | some ctb =>
    rw [hv] at hg
    cases hg
    obtain ⟨a,ha,y,hy,he⟩ := hs.2 x ctb hv
    obtain ⟨b,hb,hmem⟩ := shift_spec hs.1 hy
    obtain ⟨p,hp,hwp,hmemp⟩ := injectRange_mem hsc b
    obtain ⟨v,hv',_⟩ := addInt_wf hsc hwp (h.values x ctb hv).1
    refine ⟨v,?_,?_⟩
    · simp only [evalGauge,hb,Res.ok_bind,hp,hv']
    · rw [he,add_comm]
      exact addInt_sound hsc hwp (h.values x ctb hv).1 hv' (hmemp y hmem) ha

theorem gather_cons (x : Base) (stmt : Stmt) (i : IterationInfo Base) (q : Loops Base Stmt) :
    (coeff x i = Bounds.zero ∧ gather x ((stmt,i) :: q) = gather x q) ∨
      ∃ nb c, i = .multipleIterations nb c ∧ gather x ((stmt,i) :: q) = (stmt,coeff x i,nb) :: gather x q := by
  cases i with
  | preciseIteration n => exact Or.inl ⟨rfl,rfl⟩
  | multipleIterations nb c =>
    simp only [coeff,gather]
    cases c.lookup x with
    | none => exact Or.inl ⟨rfl,rfl⟩
    | some b =>
      by_cases hb : b = Bounds.zero
      · exact Or.inl ⟨hb,if_pos hb⟩
      · exact Or.inr ⟨nb,c,rfl,if_neg hb⟩

theorem mem_of_gather {x : Base} {l : Loops Base Stmt} {p : Stmt × Bounds × Bounds} (h : p ∈ gather x l) :
    p.1 ∈ l.map Prod.fst := by
  induction l with
  | nil => cases h
  | cons p' l ih =>
    obtain ⟨stmt,i⟩ := p'
    rw [List.map_cons]
    rcases gather_cons x stmt i l with ⟨_,hg⟩ | ⟨nb,c,_,hg⟩
    · rw [hg] at h
      exact List.mem_cons_of_mem _ (ih h)
    · rw [hg] at h
      rcases List.mem_cons.mp h with rfl | h
      · exact List.mem_cons_self
      · exact List.mem_cons_of_mem _ (ih h)

theorem shift_of_gather_nil {x : Base} {l : Loops Base Stmt} (hg : gather x l = []) {ks : List ℕ} {y : ℤ}
    (hy : Shift x l ks y) : y = 0 := by
  induction l generalizing ks y with
  | nil =>
    cases ks with
    | nil => exact hy
    | cons k ks => exact hy.elim
  | cons p l ih =>
    obtain ⟨stmt,i⟩ := p
    cases ks with
    | nil => exact hy.elim
    | cons k ks =>
      obtain ⟨y1,y2,hy1,hy2,rfl⟩ := hy
      rcases gather_cons x stmt i l with ⟨hzero,hq⟩ | ⟨nb,c,_,hq⟩
      · rw [hzero] at hy1
        rw [Bounds.scaled_of_zero hy1,ih (hq ▸ hg) hy2,add_zero]
      · rw [hq] at hg
        cases hg

theorem gather_single [DecidableEq Stmt] {x : Base} {l : Loops Base Stmt} (hnodup : (l.map Prod.fst).Nodup) {stmt : Stmt}
    {c nb : Bounds} (hg : gather x l = [(stmt,c,nb)]) {ks : List ℕ} (hks : Counters l ks) {y : ℤ} (hy : Shift x l ks y) :
    ∃ k : ℕ, Bounds.Mem nb k ∧ Bounds.Scaled k c y ∧ ∀ n, Bounds.Mem n k → ∃ l', replace stmt n l = .ok l' ∧
      Counters l' ks ∧ ∀ z w, Shift z l ks w → Shift z l' ks w := by
  induction hks generalizing y with
  | nil => cases hg
  | @cons p k l ks hk hks ih =>
    obtain ⟨stmt',i⟩ := p
    obtain ⟨y1,y2,hy1,hy2,rfl⟩ := hy
    rw [List.map_cons,List.nodup_cons] at hnodup
    rcases gather_cons x stmt' i l with ⟨hzero,hq⟩ | ⟨nb',c',rfl,hq⟩
    · rw [hq] at hg
      obtain ⟨k',hmem,hscaled,hreplace⟩ := ih hnodup.2 hg hy2
      rw [hzero] at hy1
      refine ⟨k',hmem,?_,?_⟩
      · rw [Bounds.scaled_of_zero hy1,zero_add]
        exact hscaled
      · intro n hn
        obtain ⟨l',hl',hcount,hshift⟩ := hreplace n hn
        have hne : stmt ≠ stmt' := by
          rintro rfl
          exact hnodup.1 (mem_of_gather (hg ▸ List.mem_singleton_self (stmt,c,nb)))
        refine ⟨(stmt',i) :: l',?_,List.Forall₂.cons hk hcount,?_⟩
        · cases i with
          | preciseIteration m =>
            rw [replace,hl',Res.ok_bind]
            rfl
          | multipleIterations m c' =>
            rw [replace,if_neg hne,hl',Res.ok_bind]
            rfl
        · rintro z _ ⟨w1,w2,hw1,hw2,rfl⟩
          exact ⟨w1,w2,hw1,hshift z w2 hw2,rfl⟩
    · rw [hq] at hg
      rw [List.cons.injEq,Prod.mk.injEq,Prod.mk.injEq] at hg
      obtain ⟨⟨rfl,rfl,rfl⟩,hnil⟩ := hg
      refine ⟨k,hk,?_,?_⟩
      · rw [shift_of_gather_nil hnil hy2,add_zero]
        exact hy1
      · intro n hn
        refine ⟨(stmt',.multipleIterations n c') :: l,?_,List.Forall₂.cons hn hks,fun z w hw => hw⟩
        rw [replace,if_pos rfl]
        rfl

theorem backwardLoop_sound [DecidableEq Stmt] (hsc : 2 ≤ sc) (h : StateWf sc s) (hnodup : (s.loops.map Prod.fst).Nodup)
    {x : Base} {v : Ival} (hv : Wf sc v) {env : Base → ℤ} {ks : List ℕ} (hs : Satisfies env ks s) (hx : env x ∈ concr v) :
    ∃ r, backwardLoop sc s x v = .ok r ∧ r ≠ some none ∧ ∀ s', r = some (some s') → Satisfies env ks s' := by
  have hkeep : ∃ r : Option (Option (State Base Stmt)), (.ok none : Res (Option (Option (State Base Stmt)))) = .ok r ∧
      r ≠ some none ∧ ∀ s', r = some (some s') → Satisfies env ks s' :=
    ⟨none,rfl,by simp,fun s' hs' => by cases hs'⟩
  unfold backwardLoop
  cases hct : s.ct.lookup x with
  | none => exact hkeep
  | some ctb =>
    have hwb := (h.values x ctb hct).1
    obtain ⟨a,ha,y,hy,he⟩ := hs.2 x ctb hct
    obtain ⟨d,hd,hwd⟩ := addInt_wf hsc hv (scale_wf hsc hwb (-1))
    have hyd : y ∈ concr d := by
      have hsum := addInt_sound hsc hv (scale_wf hsc hwb (-1)) hd hx (scale_sound hwb (-1) ha)
      rwa [he,mul_neg_one,add_neg_cancel_comm] at hsum
    simp only [hd,Res.ok_bind]
    obtain ⟨r,hr,hmem⟩ := minAndMax_mem hwd (ne_bottom_of_mem hyd)
    split
    · rename_i stmt c nb hg
      obtain ⟨k,hk,hscaled,hreplace⟩ := gather_single hnodup hg hs.1 hy
      obtain ⟨n,hn,hkn⟩ := Bounds.mem_narrow (Bounds.mem_backwardNb (hmem y hyd) hscaled) hk
      simp only [hr,Res.ok_bind,hn]
      split
      · obtain ⟨l',hl',hcount,hshift⟩ := hreplace n hkn
        refine ⟨some (some { s with loops := l' }),?_,by simp,?_⟩
        · rw [hl',Res.ok_bind]
          rfl
        · rintro _ ⟨⟩
          refine ⟨hcount,?_⟩
          intro z w hw
          obtain ⟨b,hb,u,hu,hz⟩ := hs.2 z w hw
          exact ⟨b,hb,u,hshift z u hu,hz⟩
      · exact hkeep
    · exact hkeep

end Reduction

section Domain

/-- Where no loop compares iterations with the maps in the other order, join and widening cover both states; in all states
a new iteration, leaving and entering a loop follow the counters, and gauges are evaluated and reduced soundly. -/
theorem gauges_sound (Base Stmt : Type) [DecidableEq Base] [DecidableEq Stmt] {sc : ℕ} (hsc : 2 ≤ sc) :
    (∀ s1 s2 : State Base Stmt, StateWf sc s1 → StateWf sc s2 → s1.loops.map Prod.fst = s2.loops.map Prod.fst →
      InOrder s1.loops s2.loops →
        (∃ j, join sc s1 s2 = .ok j ∧ ∀ env ks, Satisfies env ks s1 ∨ Satisfies env ks s2 → Satisfies env ks j) ∧
        ∀ stmt, ∃ w, widen sc stmt s1 s2 = .ok (some w) ∧
          ∀ env ks, Satisfies env ks s1 ∨ Satisfies env ks s2 → Satisfies env ks w) ∧
    ∀ s : State Base Stmt, StateWf sc s →
      (∀ stmt i q, s.loops = (stmt,i) :: q →
        (∃ s', inc sc s = .ok s' ∧ ∀ env k ks, Satisfies env (k :: ks) s → Satisfies env ((k + 1) :: ks) s') ∧
        ∃ s', leaveLoop sc stmt s = .ok s' ∧ ∀ env k ks, Satisfies env (k :: ks) s → Satisfies env ks s') ∧
      ∀ env ks, Satisfies env ks s →
        (∀ stmt, Satisfies env (0 :: ks) (enterLoop stmt s)) ∧
        (∀ x g, extractGauge s x = some g → ∃ v, evalGauge sc s g = .ok v ∧ env x ∈ concr v) ∧
        ((s.loops.map Prod.fst).Nodup → ∀ x v, Wf sc v → env x ∈ concr v →
          ∃ r, backwardLoop sc s x v = .ok r ∧ r ≠ some none ∧ ∀ s', r = some (some s') → Satisfies env ks s') := by
  refine ⟨?_,?_⟩
  · intro s1 s2 h1 h2 hsame hord
    exact ⟨join_sound hsc h1 h2 hsame hord,widen_sound hsc h1 h2 hsame hord⟩
  · intro s h
    refine ⟨?_,?_⟩
    · intro stmt i q hl
      exact ⟨inc_sound hsc h hl,leaveLoop_sound hsc h hl⟩
    · intro env ks hs
      refine ⟨fun stmt => enterLoop_sound stmt hs,fun x g hg => evalGauge_sound hsc h hg hs,?_⟩
      intro hnodup x v hv hx
      exact backwardLoop_sound hsc h hnodup hv hs hx

def nested (n : ℕ) (v : Ival) : State ℕ ℕ :=
  { ct := AList.singleton 0 v, loops := [(1,.preciseIteration n),(2,.preciseIteration n)] }

theorem lookup_singleton {v w : Ival} {x : ℕ} (h : (AList.singleton 0 v : MV ℕ).lookup x = some w) : x = 0 ∧ v = w := by
  have hx : x ∈ (AList.singleton 0 v : MV ℕ) := AList.lookup_isSome.mp (by rw [h]; rfl)
  have hx : x = 0 := by simpa [AList.singleton,AList.mem_keys,AList.keys] using hx
  subst hx
  exact ⟨rfl,by simpa [AList.singleton,AList.lookup] using h⟩

theorem nested_wf {sc n : ℕ} {v : Ival} (hv : Wf sc v) (hne : v ≠ bottom) : StateWf sc (nested n v) := by
  refine ⟨?_,?_⟩
  · intro x w hw
    obtain ⟨_,rfl⟩ := lookup_singleton hw
    exact ⟨hv,hne⟩
  · intro p hp x
    rcases List.mem_cons.mp hp with rfl | hp
    · exact ordered_zero
    · rw [List.mem_singleton.mp hp]
      exact ordered_zero

theorem nested_satisfies {n : ℕ} {v : Ival} {env : ℕ → ℤ} (h : env 0 ∈ concr v) : Satisfies env [n,n] (nested n v) := by
  refine ⟨List.Forall₂.cons rfl (List.Forall₂.cons rfl List.Forall₂.nil),?_⟩
  intro x w hw
  obtain ⟨rfl,rfl⟩ := lookup_singleton hw
  exact ⟨env 0,h,0,⟨0,0,Bounds.zero_scaled,⟨0,0,Bounds.zero_scaled,rfl,rfl⟩,rfl⟩,(add_zero _).symm⟩

theorem gauges_sound_nested : InOrder (nested 0 (.set [0])).loops (nested 1 (.set [4])).loops ∧
    ∃ j, join 8 (nested 0 (.set [0])) (nested 1 (.set [4])) = .ok j ∧ Satisfies (fun _ => 4) [1,1] j := by
  have hord : InOrder (nested 0 (.set [0])).loops (nested 1 (.set [4])).loops := ⟨⟨trivial,by decide⟩,by decide⟩
  refine ⟨hord,?_⟩
  obtain ⟨⟨j,hj,hcover⟩,_⟩ := (gauges_sound ℕ ℕ (by decide : 2 ≤ 8)).1 (nested 0 _) (nested 1 _)
    (nested_wf (wf_singleton (by decide) 0) (by decide)) (nested_wf (wf_singleton (by decide) 4) (by decide)) rfl hord
  exact ⟨j,hj,hcover _ _ (Or.inr (nested_satisfies (List.mem_singleton.mpr rfl)))⟩

theorem shift_zeros {Base Stmt : Type} [DecidableEq Base] {x : Base} {l : Loops Base Stmt} {ks : List ℕ}
    (hks : ∀ k ∈ ks, k = 0) {y : ℤ} (hy : Shift x l ks y) : y = 0 := by
  induction l generalizing ks y with
  | nil =>
    cases ks with
    | nil => exact hy
    | cons k ks => exact hy.elim
  | cons p l ih =>
    cases ks with
    | nil => exact hy.elim
    | cons k ks =>
      obtain ⟨y1,y2,hy1,hy2,rfl⟩ := hy
      rw [hy1.2.2 (hks k List.mem_cons_self),ih (fun k' hk' => hks k' (List.mem_cons_of_mem _ hk')) hy2,add_zero]

/-- The first state is ahead in both loops: the inner one re-bases the wrong map. -/
theorem join_swapped_unsound : StateWf 8 (nested 1 (.set [0,1,2,3,4,5])) ∧
    StateWf 8 (nested 0 (.topItv (some 0) (some 10) 0 1)) ∧
    Satisfies (fun _ => 0) [0,0] (nested 0 (.topItv (some 0) (some 10) 0 1)) ∧
    ∃ j, join 8 (nested 1 (.set [0,1,2,3,4,5])) (nested 0 (.topItv (some 0) (some 10) 0 1)) = .ok j ∧
      ¬ Satisfies (fun _ => 0) [0,0] j := by
  have hset : Wf 8 (.set [0,1,2,3,4,5]) := ⟨by decide,by decide⟩
  have hitv : Wf 8 (.topItv (some 0) (some 10) 0 1) := by simp [Wf]
  refine ⟨nested_wf hset (by decide),nested_wf hitv (by decide),nested_satisfies (by simp [Progression.prog]),?_⟩
  have hct : (join 8 (nested 1 (.set [0,1,2,3,4,5])) (nested 0 (.topItv (some 0) (some 10) 0 1))).toOption.bind
      (fun j => j.ct.lookup 0) = some (.set [5]) := by
    decide
  cases hj : join 8 (nested 1 (.set [0,1,2,3,4,5])) (nested 0 (.topItv (some 0) (some 10) 0 1)) with
  | error e =>
    rw [hj] at hct
    cases hct
  | ok j =>
    rw [hj] at hct
    refine ⟨j,rfl,?_⟩
    intro hs
    obtain ⟨a,ha,y,hy,he⟩ := hs.2 0 _ hct
    have hy0 := shift_zeros (by decide) hy
    rw [List.mem_singleton.mp ha,hy0] at he
    cases he

end Domain

end FramaC.Gauges
