import FramaC.Conditions.Bundle

/-! # Assumptions, branches and disjunctions

`assume` adds a conjunct and `branch` builds a conditional. `either` builds the disjunction of its cases exactly when the
cases it keeps hold wherever it drops a trivially true one, before and after the common trunk is taken out.
-/
namespace FramaC.Conditions

variable {P S V : Type} {F : Logic P V}

theorem holdsSeq_freeze (j : Option S) (b : Bundle P S) (v : V) :
    holdsSeq F v (Bundle.freeze F (join j) b) ↔ holds F b v := by
  have hall : holdsAll F v (b.map Prod.snd) ↔ holds F b v := by
    rw [holdsAll_iff]
    simp only [List.forall_mem_map,holds]
  cases j with
  | none => exact hall
  | some s =>
    have hseq : holdsSeq F v (Bundle.freeze F (join (some s)) b) ↔
        holdsAll F v (b.map Prod.snd ++ [Condition.state s]) := Iff.rfl
    rw [hseq,← hall,holdsAll_iff,holdsAll_iff,List.forall_mem_append]
    constructor
    · intro h
      exact h.1
    · intro h
      refine ⟨h,?_⟩
      intro c hc
      obtain rfl := List.mem_singleton.1 hc
      trivial

theorem Ok.seqSound_freeze {w : World P S} {b : Bundle P S} (h : Ok F w b) (j : Option S) :
    SeqSound F (Bundle.freeze F (join j) b) := by
  have hsound : Sound (catgList F (b.map Prod.snd)) fun v => ∀ c ∈ b.map Prod.snd, holdsCond F v c := by
    apply Sound.cConj
    intro c hc
    obtain ⟨e,he,rfl⟩ := List.mem_map.1 hc
    exact sound_catgCond F (h.cond e he)
  apply hsound.congr
  intro v
  rw [holdsSeq_freeze]
  simp only [List.forall_mem_map,holds]

theorem Ok.holds_diff {w : World P S} {a b : Bundle P S} (ha : Ok F w a) (hb : Ok F w b) (hsub : ∀ e ∈ b, e ∈ a) (v : V) :
    holds F a v ↔ holds F (Bundle.diff a b) v ∧ holds F b v := by
  have hmem (e : Entry P S) : e ∈ Bundle.diff a b ↔ e ∈ a ∧ e ∉ b :=
    ListSet.mem_diff ha.sorted hb.sorted (ha.coherent hb)
  simp only [holds,hmem]
  constructor
  · intro h
    exact ⟨fun e he => h e he.1,fun e he => h e (hsub e he)⟩
  · rintro ⟨hdiff,hin⟩ e he
    by_cases heb : e ∈ b
    · exact hin e heb
    · exact hdiff e ⟨he,heb⟩

theorem Ok.diff {w : World P S} {a : Bundle P S} (ha : Ok F w a) (b : Bundle P S) : Ok F w (Bundle.diff a b) :=
  ha.sublist (ListSet.diff_sublist a b)

theorem Ok.factorize {w : World P S} {a b : Bundle P S} (ha : Ok F w a) (hb : Ok F w b) :
    ∃ l m r, Bundle.factorize a b = (l,m,r) ∧ Ok F w l ∧ Ok F w m ∧ Ok F w r ∧
      (∀ v, holds F a v ↔ holds F l v ∧ holds F m v) ∧ ∀ v, holds F b v ↔ holds F r v ∧ holds F m v := by
  have hm : Ok F w (ListSet.inter key a b) := ha.sublist (ListSet.inter_sublist a b)
  have hmem (e : Entry P S) : e ∈ ListSet.inter key a b ↔ e ∈ a ∧ e ∈ b :=
    ListSet.mem_inter ha.sorted hb.sorted (ha.coherent hb)
  have hl (e : Entry P S) : e ∈ ListSet.diff key a b ↔ e ∈ a ∧ e ∉ b :=
    ListSet.mem_diff ha.sorted hb.sorted (ha.coherent hb)
  have hr (e : Entry P S) : e ∈ ListSet.diff key b a ↔ e ∈ b ∧ e ∉ a :=
    ListSet.mem_diff hb.sorted ha.sorted (hb.coherent ha)
  refine ⟨_,_,_,ListSet.factorize_eq a b,ha.diff b,hm,hb.diff a,?_,?_⟩
  · intro v
    simp only [holds,hl,hmem]
    constructor
    · intro h
      exact ⟨fun e he => h e he.1,fun e he => h e he.1⟩
    · rintro ⟨h₁,h₂⟩ e he
      by_cases heb : e ∈ b
      · exact h₂ e ⟨he,heb⟩
      · exact h₁ e ⟨he,heb⟩
  · intro v
    simp only [holds,hr,hmem]
    constructor
    · intro h
      exact ⟨fun e he => h e he.1,fun e he => h e he.2⟩
    · rintro ⟨h₁,h₂⟩ e he
      by_cases hea : e ∈ a
      · exact h₂ e ⟨hea,he⟩
      · exact h₁ e ⟨he,hea⟩

theorem means_assume {w : World P S} {hs : Bundle P S} (h : Ok F w hs) (init : Bool) {p : P} (hp : F.NoExists p) :
    Means F w (assume F w.cid init p hs) fun v => holds F hs v ∧ F.eval p v := by
  have hstep (q : P) (v : V) : holdsCond F v (if init then Condition.init q else .have q : Condition P S) ↔ F.eval q v := by
    cases init <;> rfl
  have hok (q : P) : CondOk F (if init then Condition.init q else .have q : Condition P S) := by
    cases init <;> trivial
  unfold assume
  cases hq : F.isPtrue p with
  | yes =>
    apply (Means.same h).congr
    intro v
    exact ⟨fun hv => ⟨hv,F.eval_of_yes p v hq⟩,fun hv => hv.1⟩
  | no =>
    apply (Means.add (Ok.nil w) (hok p)).congr
    intro v
    rw [hstep]
    have hno := F.not_eval_of_no p v hq
    exact ⟨fun hv => absurd hv.2 hno,fun hv => absurd hv.2 hno⟩
  | maybe =>
    have hadd : Means F w (Bundle.add w.cid (if init then .init (F.existIntro p) else .have (F.existIntro p)) hs)
        fun v => holds F hs v ∧ F.eval p v := by
      apply (Means.add h (hok _)).congr
      intro v
      rw [hstep,F.eval_existIntro p v hp]
    cases hc : Bundle.category F hs with
    | FALSE =>
      apply (Means.same h).congr
      intro v
      have hno := h.sound_category.isFalse hc v
      exact ⟨fun hv => absurd hv hno,fun hv => absurd hv.1 hno⟩
    | EMPTY => exact hadd
    | TRUE => exact hadd
    | MAYBE => exact hadd

theorem means_branchSteps {w : World P S} {ha hb : Bundle P S} (h : Ok F w ha) (h' : Ok F w hb) (p : P) :
    Means F w (branchSteps F w.cid p ha hb)
      fun v => (F.eval p v → holds F ha v) ∧ (¬F.eval p v → holds F hb v) := by
  obtain ⟨l,m,r,hf,hl,hm,hr,hleft,hright⟩ := h.factorize h'
  simp only [branchSteps,hf]
  by_cases hempty : (l.isEmpty && r.isEmpty) = true
  · rw [if_pos hempty]
    obtain ⟨h₁,h₂⟩ := Bool.and_eq_true_iff.1 hempty
    rw [List.isEmpty_iff.1 h₁] at hleft
    rw [List.isEmpty_iff.1 h₂] at hright
    have hnil (v : V) : holds F ([] : Bundle P S) v := fun e he => (List.not_mem_nil he).elim
    apply (Means.same hm).congr
    intro v
    simp only [hleft v,hright v,hnil v,true_and]
    tauto
  · rw [if_neg hempty]
    have hcond : CondOk F (.branch p (Bundle.freeze F (join (Bundle.head m)) l)
        (Bundle.freeze F (join (Bundle.head m)) r) : Condition P S) :=
      ⟨hl.seqSound_freeze _,hr.seqSound_freeze _⟩
    apply (Means.add hm hcond).congr
    intro v
    simp only [holdsCond,holdsSeq_freeze,hleft v,hright v]
    tauto

theorem means_branch {w : World P S} {ha hb : Bundle P S} (h : Ok F w ha) (h' : Ok F w hb) {p : P} (hp : F.NoExists p)
    (hn : Bundle.category F ha = .FALSE → F.NoExists (F.pNot p)) :
    Means F w (branch F w.cid p ha hb) fun v => (F.eval p v → holds F ha v) ∧ (¬F.eval p v → holds F hb v) := by
  unfold branch
  cases hq : F.isPtrue p with
  | yes =>
    apply (Means.same h).congr
    intro v
    have hv := F.eval_of_yes p v hq
    tauto
  | no =>
    apply (Means.same h').congr
    intro v
    have hv := F.not_eval_of_no p v hq
    tauto
  | maybe =>
    have hgeneral := means_branchSteps h h' p
    have hleft : Bundle.category F hb = .FALSE → Means F w (assume F w.cid false p ha)
        fun v => (F.eval p v → holds F ha v) ∧ (¬F.eval p v → holds F hb v) := by
      intro hc
      apply (means_assume h false hp).congr
      intro v
      have hno := h'.sound_category.isFalse hc v
      tauto
    have hright : Bundle.category F ha = .FALSE → Means F w (assume F w.cid false (F.pNot p) hb)
        fun v => (F.eval p v → holds F ha v) ∧ (¬F.eval p v → holds F hb v) := by
      intro hc
      apply (means_assume h' false (hn hc)).congr
      intro v
      have hno := h.sound_category.isFalse hc v
      rw [F.eval_pNot]
      tauto
    cases hca : Bundle.category F ha with
    | TRUE =>
      cases hcb : Bundle.category F hb with
      | TRUE =>
        apply (Means.same (Ok.nil w)).congr
        intro v
        have h₁ := h.sound_category.isTrue (Or.inl hca) v
        have h₂ := h'.sound_category.isTrue (Or.inl hcb) v
        have h₃ : holds F ([] : Bundle P S) v := fun e he => (List.not_mem_nil he).elim
        tauto
      | FALSE => exact hleft hcb
      | EMPTY => exact hgeneral
      | MAYBE => exact hgeneral
    | FALSE =>
      cases hcb : Bundle.category F hb with
      | TRUE => exact hright hca
      | FALSE => exact hleft hcb
      | EMPTY => exact hright hca
      | MAYBE => exact hright hca
    | EMPTY =>
      cases hcb : Bundle.category F hb with
      | TRUE => exact hgeneral
      | FALSE => exact hleft hcb
      | EMPTY => exact hgeneral
      | MAYBE => exact hgeneral
    | MAYBE =>
      cases hcb : Bundle.category F hb with
      | TRUE => exact hgeneral
      | FALSE => exact hleft hcb
      | EMPTY => exact hgeneral
      | MAYBE => exact hgeneral

/-- The cases that `disjunction` keeps when it keeps some. -/
def maybeCases (F : Logic P V) (cases : List (Bundle P S)) : List (Bundle P S) :=
  cases.filter fun c => Bundle.category F c == .MAYBE

theorem mem_maybeCases {cases : List (Bundle P S)} {c : Bundle P S} :
    c ∈ maybeCases F cases ↔ c ∈ cases ∧ Bundle.category F c = .MAYBE := by
  simp [maybeCases]

theorem disjunction_of_nil {α : Type} {phi : α → Category} {es : List α} (h : es.filter (fun e => phi e == .MAYBE) = []) :
    disjunction phi es = if es.any fun e => phi e == .TRUE || phi e == .EMPTY then .dTrue else .dFalse := by
  simp only [disjunction,h]

theorem disjunction_of_ne_nil {α : Type} {phi : α → Category} {es : List α}
    (h : es.filter (fun e => phi e == .MAYBE) ≠ []) :
    disjunction phi es = .dEither (es.filter fun e => phi e == .MAYBE) := by
  obtain ⟨c,cs,hc⟩ := List.exists_cons_of_ne_nil h
  simp only [disjunction,hc]

theorem disjunction_cases (F : Logic P V) (cases : List (Bundle P S)) :
    (disjunction (Bundle.category F) cases = .dTrue ∧ maybeCases F cases = [] ∧
      ∃ c ∈ cases, IsTrue (Bundle.category F c)) ∨
    (disjunction (Bundle.category F) cases = .dFalse ∧ ∀ c ∈ cases, Bundle.category F c = .FALSE) ∨
    (disjunction (Bundle.category F) cases = .dEither (maybeCases F cases) ∧ maybeCases F cases ≠ []) := by
  by_cases hm : maybeCases F cases = []
  · rw [disjunction_of_nil hm]
    by_cases hpos : cases.any (fun e => Bundle.category F e == .TRUE || Bundle.category F e == .EMPTY) = true
    · obtain ⟨c,hc,htrue⟩ := List.any_eq_true.1 hpos
      refine Or.inl ⟨if_pos hpos,hm,c,hc,?_⟩
      simpa [IsTrue] using htrue
    · refine Or.inr (Or.inl ⟨if_neg hpos,?_⟩)
      intro c hc
      have hmaybe : Bundle.category F c ≠ .MAYBE := by
        intro e
        have hin : c ∈ maybeCases F cases := (mem_maybeCases).2 ⟨hc,e⟩
        rw [hm] at hin
        exact List.not_mem_nil hin
      have hno : ¬(Bundle.category F c == .TRUE || Bundle.category F c == .EMPTY) = true :=
        fun e => hpos (List.any_eq_true.2 ⟨c,hc,e⟩)
      cases hcat : Bundle.category F c with
      | FALSE => rfl
      | MAYBE => exact absurd hcat hmaybe
      | TRUE => simp [hcat] at hno
      | EMPTY => simp [hcat] at hno
  · exact Or.inr (Or.inr ⟨disjunction_of_ne_nil hm,hm⟩)

/-- Where a trivially true case stands beside cases that are neither true nor false, one of these holds. -/
def KeepsTrue (F : Logic P V) (cases : List (Bundle P S)) (under : V → Prop) : Prop :=
  ∀ v, under v → (∃ c ∈ cases, IsTrue (Bundle.category F c)) → maybeCases F cases ≠ [] →
    ∃ c ∈ maybeCases F cases, holds F c v

def factored (cases : List (Bundle P S)) : List (Bundle P S) :=
  cases.map fun case => Bundle.diff case (Bundle.bigInter cases)

section Either

variable {w : World P S} {cases : List (Bundle P S)}

theorem Ok.bigInter (h : ∀ c ∈ cases, Ok F w c) : Ok F w (Bundle.bigInter cases) := by
  cases cases with
  | nil => exact Ok.nil w
  | cons c cs => exact (h c (List.mem_cons_self ..)).sublist ListSet.bigInter_sublist

theorem Ok.holds_factored (h : ∀ c ∈ cases, Ok F w c) {c : Bundle P S} (hc : c ∈ cases) (v : V) :
    holds F c v ↔ holds F (Bundle.diff c (Bundle.bigInter cases)) v ∧ holds F (Bundle.bigInter cases) v := by
  apply (h c hc).holds_diff (Ok.bigInter h)
  intro e he
  have hmem := ListSet.mem_bigInter (List.ne_nil_of_mem hc) (fun c hc => (h c hc).sorted)
    (fun c hc d hd => (h c hc).coherent (h d hd)) (a := e)
  exact hmem.1 he c hc

theorem ok_factored (h : ∀ c ∈ cases, Ok F w c) : ∀ d ∈ factored cases, Ok F w d := by
  intro d hd
  obtain ⟨c,hc,rfl⟩ := List.mem_map.1 hd
  exact (h c hc).diff _

theorem exists_holds_factored (h : ∀ c ∈ cases, Ok F w c) (v : V) (htrunk : holds F (Bundle.bigInter cases) v) :
    (∃ c ∈ cases, holds F c v) ↔ ∃ d ∈ factored cases, holds F d v := by
  constructor
  · rintro ⟨c,hc,hv⟩
    exact ⟨_,List.mem_map.2 ⟨c,hc,rfl⟩,((Ok.holds_factored h hc v).1 hv).1⟩
  · rintro ⟨d,hd,hv⟩
    obtain ⟨c,hc,rfl⟩ := List.mem_map.1 hd
    exact ⟨c,hc,(Ok.holds_factored h hc v).2 ⟨hv,htrunk⟩⟩

theorem holds_trunk (h : ∀ c ∈ cases, Ok F w c) {c : Bundle P S} (hc : c ∈ cases) {v : V} (hv : holds F c v) :
    holds F (Bundle.bigInter cases) v := ((Ok.holds_factored h hc v).1 hv).2

theorem means_either_step {cs : List (Bundle P S)} (hw : Ok F w (Bundle.bigInter cases)) (hcs : ∀ c ∈ cs, Ok F w c) :
    Means F w (Bundle.add w.cid (.either (cs.map (Bundle.freeze F none))) (Bundle.bigInter cases))
      fun v => holds F (Bundle.bigInter cases) v ∧ ∃ c ∈ cs, holds F c v := by
  have hcond : CondOk F (.either (cs.map (Bundle.freeze F none)) : Condition P S) := by
    intro s hs
    obtain ⟨c,hc,rfl⟩ := List.mem_map.1 hs
    exact (hcs c hc).seqSound_freeze none
  apply (Means.add hw hcond).congr
  intro v
  have hany : holdsCond F v (.either (cs.map (Bundle.freeze F none)) : Condition P S) ↔ ∃ c ∈ cs, holds F c v := by
    rw [holdsCond,holdsAny_iff]
    constructor
    · rintro ⟨s,hs,hv⟩
      obtain ⟨c,hc,rfl⟩ := List.mem_map.1 hs
      exact ⟨c,hc,(holdsSeq_freeze none c v).1 hv⟩
    · rintro ⟨c,hc,hv⟩
      exact ⟨_,List.mem_map.2 ⟨c,hc,rfl⟩,(holdsSeq_freeze none c v).2 hv⟩
  rw [hany]

theorem means_false (w : World P S) : Means F w (Bundle.add w.cid (.have F.pFalse) []) fun _ => False := by
  have hcond : CondOk F (.have F.pFalse : Condition P S) := trivial
  apply (Means.add (Ok.nil w) hcond).congr
  intro v
  exact ⟨fun hv => F.not_eval_pFalse v hv.2,fun hv => hv.elim⟩

theorem means_eitherSteps {cs : List (Bundle P S)} (hcs : ∀ c ∈ cs, Ok F w c) :
    ∃ φ : V → Prop, Means F w (eitherSteps F w.cid cs) φ ∧
      (∀ v, φ v → ∃ c ∈ cs, holds F c v) ∧
      ((∀ v, (∃ c ∈ cs, holds F c v) → φ v) ↔ KeepsTrue F (factored cs) (holds F (Bundle.bigInter cs))) := by
  have hf := ok_factored hcs
  have htrunk := Ok.bigInter hcs
  rcases disjunction_cases F (factored cs) with ⟨hd,hm,d,hdm,htrue⟩ | ⟨hd,hall⟩ | ⟨hd,hm⟩
  · have hs : eitherSteps F w.cid cs = (w.cid,Bundle.bigInter cs) := by
      simp only [factored] at hd
      simp only [eitherSteps,hd]
    rw [hs]
    refine ⟨_,Means.same htrunk,?_,?_⟩
    · intro v hv
      apply (exists_holds_factored hcs v hv).2
      exact ⟨d,hdm,(hf d hdm).sound_category.isTrue htrue v⟩
    · refine ⟨fun _ v _ _ hne => absurd hm hne,?_⟩
      rintro _ v ⟨c,hc,hv⟩
      exact holds_trunk hcs hc hv
  · have hs : eitherSteps F w.cid cs = Bundle.add w.cid (.have F.pFalse) [] := by
      simp only [factored] at hd
      simp only [eitherSteps,hd]
    rw [hs]
    have hnone (v : V) : ¬∃ c ∈ cs, holds F c v := by
      rintro ⟨c,hc,hv⟩
      obtain ⟨d,hdm,hdv⟩ := (exists_holds_factored hcs v (holds_trunk hcs hc hv)).1 ⟨c,hc,hv⟩
      exact (hf d hdm).sound_category.isFalse (hall d hdm) v hdv
    refine ⟨_,means_false w,fun _ hv => hv.elim,?_⟩
    refine ⟨?_,fun _ v hv => hnone v hv⟩
    rintro _ v _ ⟨d,hdm,htrue⟩
    rw [hall d hdm] at htrue
    rcases htrue with h | h <;> cases h
  · have hs : eitherSteps F w.cid cs =
        Bundle.add w.cid (.either ((maybeCases F (factored cs)).map (Bundle.freeze F none))) (Bundle.bigInter cs) := by
      simp only [factored] at hd ⊢
      simp only [eitherSteps,hd]
    rw [hs]
    have hkeep : ∀ d ∈ maybeCases F (factored cs), Ok F w d := fun d h => hf d (mem_maybeCases.1 h).1
    refine ⟨_,means_either_step htrunk hkeep,?_,?_⟩
    · rintro v ⟨ht,d,hdm,hv⟩
      exact (exists_holds_factored hcs v ht).2 ⟨d,(mem_maybeCases.1 hdm).1,hv⟩
    · constructor
      · rintro hall v ht ⟨d,hdm,htrue⟩ _
        exact (hall v ((exists_holds_factored hcs v ht).2 ⟨d,hdm,(hf d hdm).sound_category.isTrue htrue v⟩)).2
      · rintro hkeeps v ⟨c,hc,hv⟩
        have ht := holds_trunk hcs hc hv
        refine ⟨ht,?_⟩
        obtain ⟨d,hdm,hdv⟩ := (exists_holds_factored hcs v ht).1 ⟨c,hc,hv⟩
        cases hcat : Bundle.category F d with
        | MAYBE => exact ⟨d,(mem_maybeCases).2 ⟨hdm,hcat⟩,hdv⟩
        | FALSE => exact absurd hdv ((hf d hdm).sound_category.isFalse hcat v)
        | TRUE => exact hkeeps v ht ⟨d,hdm,Or.inl hcat⟩ hm
        | EMPTY => exact hkeeps v ht ⟨d,hdm,Or.inr hcat⟩ hm

/-- `either` builds a bundle, and it means the disjunction of the cases exactly when no trivially true case is dropped
beside others that do not make up for it, before and after factoring. -/
theorem means_either (h : ∀ c ∈ cases, Ok F w c) :
    ∃ φ : V → Prop, Means F w (either F w.cid cases) φ ∧
      ((∀ v, φ v ↔ ∃ c ∈ cases, holds F c v) ↔ KeepsTrue F cases (fun _ => True) ∧
        KeepsTrue F (factored (maybeCases F cases)) (holds F (Bundle.bigInter (maybeCases F cases)))) := by
  rcases disjunction_cases F cases with ⟨hd,hm,c,hc,htrue⟩ | ⟨hd,hall⟩ | ⟨hd,hm⟩
  · have hs : either F w.cid cases = (w.cid,[]) := by simp only [either,hd]
    have hnil (v : V) : holds F ([] : Bundle P S) v := fun e he => (List.not_mem_nil he).elim
    rw [hs]
    refine ⟨_,Means.same (Ok.nil w),?_⟩
    have hright : ∀ v, holds F ([] : Bundle P S) v ↔ ∃ c ∈ cases, holds F c v := fun v =>
      ⟨fun _ => ⟨c,hc,(h c hc).sound_category.isTrue htrue v⟩,fun _ => hnil v⟩
    have hfact : factored (maybeCases F cases) = [] := by rw [hm]; rfl
    refine ⟨fun _ => ⟨fun _ _ _ hne => absurd hm hne,fun _ _ _ hne => ?_⟩,fun _ => hright⟩
    rw [hfact] at hne
    exact absurd rfl hne
  · have hs : either F w.cid cases = Bundle.add w.cid (.have F.pFalse) [] := by simp only [either,hd]
    rw [hs]
    have hm : maybeCases F cases = [] := by
      apply List.eq_nil_iff_forall_not_mem.2
      intro c hc
      obtain ⟨hc,hcat⟩ := (mem_maybeCases).1 hc
      rw [hall c hc] at hcat
      cases hcat
    have hfact : factored (maybeCases F cases) = [] := by rw [hm]; rfl
    refine ⟨_,means_false w,?_⟩
    refine ⟨fun _ => ⟨fun _ _ _ hne => absurd hm hne,fun _ _ _ hne => ?_⟩,fun _ v => ⟨fun hv => hv.elim,?_⟩⟩
    · rw [hfact] at hne
      exact absurd rfl hne
    · rintro ⟨c,hc,hv⟩
      exact (h c hc).sound_category.isFalse (hall c hc) v hv
  · have hs : either F w.cid cases = eitherSteps F w.cid (maybeCases F cases) := by simp only [either,hd]
    have hok : ∀ c ∈ maybeCases F cases, Ok F w c := fun c hc => h c (mem_maybeCases.1 hc).1
    obtain ⟨φ,hmeans,hsome,hiff⟩ := means_eitherSteps hok
    rw [hs]
    refine ⟨φ,hmeans,?_⟩
    rw [← hiff]
    constructor
    · intro hall
      refine ⟨?_,?_⟩
      · rintro v _ ⟨c,hc,htrue⟩ _
        exact hsome v ((hall v).2 ⟨c,hc,(h c hc).sound_category.isTrue htrue v⟩)
      · rintro v ⟨c,hc,hv⟩
        exact (hall v).2 ⟨c,(mem_maybeCases.1 hc).1,hv⟩
    · rintro ⟨hkeep,hall⟩ v
      constructor
      · intro hv
        obtain ⟨c,hc,hv⟩ := hsome v hv
        exact ⟨c,(mem_maybeCases.1 hc).1,hv⟩
      · rintro ⟨c,hc,hv⟩
        apply hall v
        cases hcat : Bundle.category F c with
        | MAYBE => exact ⟨c,(mem_maybeCases).2 ⟨hc,hcat⟩,hv⟩
        | FALSE => exact absurd hv ((h c hc).sound_category.isFalse hcat v)
        | TRUE => exact hkeep v trivial ⟨c,hc,Or.inl hcat⟩ hm
        | EMPTY => exact hkeep v trivial ⟨c,hc,Or.inr hcat⟩ hm

end Either

/-- Hypotheses keep their meaning under `assume`, `branch` and `either`, the last up to the trivially true cases that it
drops. -/
theorem bundles_keep_meaning (F : Logic P V) (w : World P S) :
    (∀ init p hs, F.NoExists p → Ok F w hs →
      Means F w (assume F w.cid init p hs) fun v => holds F hs v ∧ F.eval p v) ∧
    (∀ p ha hb, F.NoExists p → (Bundle.category F ha = .FALSE → F.NoExists (F.pNot p)) → Ok F w ha → Ok F w hb →
      Means F w (branch F w.cid p ha hb) fun v => (F.eval p v → holds F ha v) ∧ (¬F.eval p v → holds F hb v)) ∧
    (∀ cases, (∀ c ∈ cases, Ok F w c) →
      ((Means F w (either F w.cid cases) fun v => ∃ c ∈ cases, holds F c v) ↔
        KeepsTrue F cases (fun _ => True) ∧
          KeepsTrue F (factored (maybeCases F cases)) (holds F (Bundle.bigInter (maybeCases F cases))))) := by
  refine ⟨fun init p hs hp h => means_assume h init hp,fun p ha hb hp hn h h' => means_branch h h' hp hn,?_⟩
  intro cases h
  obtain ⟨φ,⟨w',hext,hcid,hok,hφ⟩,hiff⟩ := means_either h
  rw [← hiff]
  constructor
  · rintro ⟨_,_,_,_,hmeans⟩ v
    exact (hφ v).symm.trans (hmeans v)
  · intro hall
    exact ⟨w',hext,hcid,hok,fun v => (hφ v).trans (hall v)⟩

inductive Literal where
  | true
  | false
  | var
  | notVar

def literals : Logic Literal Bool where
  eval
    | .true,_ => True
    | .false,_ => False
    | .var,v => v = Bool.true
    | .notVar,v => v = Bool.false
  isPtrue
    | .true => .yes
    | .false => .no
    | .var => .maybe
    | .notVar => .maybe
  pFalse := .false
  pNot
    | .true => .false
    | .false => .true
    | .var => .notVar
    | .notVar => .var
  existIntro := id
  NoExists _ := True
  eval_of_yes p v h := by
    cases p with
    | true => trivial
    | false => cases h
    | var => cases h
    | notVar => cases h
  not_eval_of_no p v h := by
    cases p with
    | true => cases h
    | false => exact id
    | var => cases h
    | notVar => cases h
  not_eval_pFalse _ := id
  eval_pNot p v := by cases p <;> cases v <;> decide
  eval_existIntro _ _ _ := Iff.rfl

def oneStep : World Literal Unit where
  cid := 1
  steps := Function.update (fun _ => none) 1 (some (.have .var))
  bound := by
    intro k c h
    rw [Function.update_apply] at h
    by_cases hk : k = 1
    · exact le_of_eq hk
    · rw [if_neg hk] at h
      cases h

theorem ok_oneStep : Ok literals oneStep [(1,.have .var)] := by
  refine ⟨List.pairwise_singleton _ _,?_,?_⟩
  · intro e he
    obtain rfl := List.mem_singleton.1 he
    rfl
  · intro e he
    obtain rfl := List.mem_singleton.1 he
    trivial

/-- A disjunction of the empty bundle, which is true, and of a variable comes out as the variable. -/
theorem either_drops_true :
    (∀ c ∈ [([] : Bundle Literal Unit),[(1,.have .var)]], Ok literals oneStep c) ∧
    ¬Means literals oneStep (either literals oneStep.cid [([] : Bundle Literal Unit),[(1,.have .var)]])
      fun v => ∃ c ∈ [([] : Bundle Literal Unit),[(1,.have .var)]], holds literals c v := by
  constructor
  · intro c hc
    rcases List.mem_cons.1 hc with rfl | hc
    · exact Ok.nil _
    · obtain rfl := List.mem_singleton.1 hc
      exact ok_oneStep
  · rintro ⟨_,_,_,_,hmeans⟩
    have hvar : (either literals oneStep.cid [([] : Bundle Literal Unit),[(1,.have .var)]]).2 = [(1,.have .var)] := by
      simp [either,disjunction,Bundle.category,cConj,cfoldAnd,catgCond,catgPred,literals,cAnd,eitherSteps,Bundle.bigInter,
        ListSet.bigInter,Bundle.diff,ListSet.diff]
    rw [hvar] at hmeans
    have hfalse := (hmeans Bool.false).2 ⟨[],List.mem_cons_self ..,fun e he => (List.not_mem_nil he).elim⟩
    have hv : Bool.false = Bool.true := hfalse _ (List.mem_cons_self ..)
    cases hv

theorem bundles_keep_meaning_var :
    (Means literals oneStep (assume literals oneStep.cid Bool.false .notVar [(1,.have .var)])
      fun v => holds literals [((1 : ℕ),(.have .var : Condition Literal Unit))] v ∧ literals.eval .notVar v) ∧
    (Means literals oneStep (branch literals oneStep.cid .var [] [(1,.have .var)])
      fun v => (literals.eval .var v → holds literals ([] : Bundle Literal Unit) v) ∧
        (¬literals.eval .var v → holds literals [((1 : ℕ),(.have .var : Condition Literal Unit))] v)) := by
  obtain ⟨hassume,hbranch,_⟩ := bundles_keep_meaning literals oneStep
  exact ⟨hassume Bool.false .notVar _ trivial ok_oneStep,
    hbranch .var [] _ trivial (fun _ => trivial) (Ok.nil _) ok_oneStep⟩

end FramaC.Conditions
