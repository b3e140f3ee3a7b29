import FramaC.Qed.Intmap.Diff

/-! # The shared split

`partition_split` returns the whole tree as one part when this part of each child is the child, and the other part of
the left child only: the other part of the right child is lost.
-/
namespace FramaC.Qed.Intmap

namespace Tree

variable {α : Type}

def partitionSplit (sh : Sharing α) (p : Key → α → Option α × Option α) : Tree α → Tree α × Tree α
  | empty => (empty,empty)
  | lf k x => (lf0 sh k x (lf k x) (p k x).1,lf0 sh k x (lf k x) (p k x).2)
  | br q t0 t1 =>
    let tu0 := partitionSplit sh p t0
    let tu1 := partitionSplit sh p t1
    if sh.tree tu0.1 t0 && sh.tree tu1.1 t1 then (br q t0 t1,tu0.2)
    else if sh.tree tu0.2 t0 && sh.tree tu1.2 t1 then (tu0.1,br q t0 t1)
    else (glue tu0.1 tu1.1,glue tu0.2 tu1.2)

def KeepsAll (f : Key → α → Option α) (t : Tree α) : Prop := ∀ k x, find k t = some x → f k x = some x

def DropsAll (f : Key → α → Option α) (t : Tree α) : Prop := ∀ k x, find k t = some x → f k x = none

/-- A part keeps both children of a branch, and they are seen to be the same. -/
def KeepsBranch (sh : Sharing α) (f : Key → α → Option α) (t0 t1 : Tree α) : Prop :=
  (sh.tree t0 t0 = true ∧ KeepsAll f t0) ∧ sh.tree t1 t1 = true ∧ KeepsAll f t1

/-- At every branch that one part keeps, the other part drops the right child. -/
def LosesNothing (sh : Sharing α) (p : Key → α → Option α × Option α) : Tree α → Prop
  | empty => True
  | lf _ _ => True
  | br _ t0 t1 => (LosesNothing sh p t0 ∧ LosesNothing sh p t1) ∧
      (KeepsBranch sh (fun k x => (p k x).1) t0 t1 → DropsAll (fun k x => (p k x).2) t1) ∧
      (¬ KeepsBranch sh (fun k x => (p k x).1) t0 t1 → KeepsBranch sh (fun k x => (p k x).2) t0 t1 →
        DropsAll (fun k x => (p k x).1) t1)

/-- One part of a tree, as far as it goes. -/
structure PartOf (f : Key → α → Option α) (t r : Tree α) : Prop where
  canonical : r.Canonical
  part : ∀ k x, find k r = some x → (find k t).bind (f k) = some x

def IsPart (f : Key → α → Option α) (t r : Tree α) : Prop := ∀ k, find k r = (find k t).bind (f k)

def unshared : Sharing α where
  value _ _ := false
  tree _ _ := false
  value_eq h := by cases h
  tree_eq h := by cases h

theorem eq_of_find {s t : Tree α} (hs : s.Canonical) (ht : t.Canonical) (h : ∀ k, find k s = find k t) : s = t := by
  classical
  have hsame : SameBindings (fun x y => decide (x = y)) (find · s) (find · t) := by
    intro k
    simp only [h k]
    cases find k t with
    | none => exact Or.inl ⟨rfl,rfl⟩
    | some x => exact Or.inr ⟨x,x,rfl,rfl,decide_eq_true rfl⟩
  have hequal := equal_of_sameBindings unshared _ hs ht hsame
  clear h hs ht hsame
  induction s generalizing t with
  | empty =>
    cases t with
    | empty => rfl
    | lf j y => simp [equal,unshared] at hequal
    | br q t0 t1 => simp [equal,unshared] at hequal
  | lf i x =>
    cases t with
    | empty => simp [equal,unshared] at hequal
    | lf j y =>
      simp only [equal,unshared,Bool.false_or,Bool.and_eq_true,beq_iff_eq,decide_eq_true_eq] at hequal
      rw [hequal.1,hequal.2]
    | br q t0 t1 => simp [equal,unshared] at hequal
  | br p s0 s1 ih0 ih1 =>
    cases t with
    | empty => simp [equal,unshared] at hequal
    | lf j y => simp [equal,unshared] at hequal
    | br q t0 t1 =>
      simp only [equal,unshared,Bool.false_or,Bool.and_eq_true,beq_iff_eq] at hequal
      rw [hequal.1.1,ih0 hequal.1.2,ih1 hequal.2]

theorem keepsAll_iff_isPart {f : Key → α → Option α} {t : Tree α} : KeepsAll f t ↔ IsPart f t t := by
  constructor
  · intro h k
    cases hk : find k t with
    | none => rfl
    | some x => exact (h k x hk).symm
  · intro h k x hk
    have hf := h k
    rw [hk] at hf
    exact hf.symm

theorem dropsAll_iff_isPart {f : Key → α → Option α} {t : Tree α} : DropsAll f t ↔ IsPart f t empty := by
  constructor
  · intro h k
    cases hk : find k t with
    | none => rfl
    | some x => exact (h k x hk).symm
  · intro h k x hk
    have hf := h k
    rw [hk] at hf
    exact hf.symm

theorem PartOf.eq_none {f : Key → α → Option α} {t r : Tree α} (h : PartOf f t r) {k : Key} (hk : find k t = none) :
    find k r = none := by
  cases hr : find k r with
  | none => rfl
  | some x =>
    have hp := h.part k x hr
    rw [hk] at hp
    cases hp

theorem PartOf.keepsAll {f : Key → α → Option α} {t : Tree α} (h : PartOf f t t) : KeepsAll f t := by
  intro k x hk
  have hp := h.part k x hk
  rw [hk] at hp
  exact hp

theorem PartOf.isPart_of_dropsAll {f : Key → α → Option α} {t r : Tree α} (h : PartOf f t r) (hd : DropsAll f t) :
    IsPart f t r := by
  intro k
  have hk : none = (find k t).bind (f k) := (dropsAll_iff_isPart).1 hd k
  cases hr : find k r with
  | none => exact hk
  | some y => exact absurd (hk.trans (h.part k y hr)) (by simp)

theorem IsPart.partOf {f : Key → α → Option α} {t r : Tree α} (h : IsPart f t r) (hc : r.Canonical) : PartOf f t r :=
  ⟨hc,fun k _ hk => (h k).symm.trans hk⟩

section branch

variable {p : Key} {i : ℕ} {t0 t1 : Tree α} (ht : Children p i t0 t1) {f : Key → α → Option α} {r0 r1 : Tree α}

include ht

theorem Children.keepsAll_iff : KeepsAll f (br p t0 t1) ↔ KeepsAll f t0 ∧ KeepsAll f t1 := by
  constructor
  · intro h
    refine ⟨fun k x hk => h k x ?_,fun k x hk => h k x ?_⟩
    · rw [ht.find_eq,hk]
      rfl
    · rw [ht.find_eq,(ht.apart.none_or k).resolve_right (by simp only [hk]; simp),hk]
      rfl
  · rintro ⟨h0,h1⟩ k x hk
    rw [ht.find_eq] at hk
    obtain hk | hk := Option.or_eq_some_iff.1 hk
    · exact h0 k x hk
    · exact h1 k x hk.2

theorem glue_isPart (h0 : PartOf f t0 r0) (h1 : PartOf f t1 r1) : PartOf f (br p t0 t1) (glue r0 r1) ∧
    (IsPart f (br p t0 t1) (glue r0 r1) ↔ IsPart f t0 r0 ∧ IsPart f t1 r1) := by
  obtain ⟨hc,hf⟩ := glue_spec h0.canonical h1.canonical (ht.apart.of_none (fun k hk => h0.eq_none hk)
    (fun k hk => h1.eq_none hk))
  have hbind : ∀ k, (find k (br p t0 t1)).bind (f k) = ((find k t0).bind (f k)).or ((find k t1).bind (f k)) := by
    intro k
    rw [ht.find_eq,or_bind (ht.apart.none_or k)]
  refine ⟨⟨hc,?_⟩,?_,?_⟩
  · intro k x hk
    rw [hf] at hk
    rw [hbind]
    obtain hk | ⟨hn,hk⟩ := Option.or_eq_some_iff.1 hk
    · rw [h0.part k x hk]
      rfl
    · have hb := h1.part k x hk
      have hn0 : find k t0 = none := by
        refine (ht.apart.none_or k).resolve_right ?_
        intro hn1
        rw [hn1] at hb
        cases hb
      rw [hn0,hb]
      rfl
  · intro h
    refine ⟨fun k => ?_,fun k => ?_⟩
    · obtain hn | hn := ht.apart.none_or k
      · rw [h0.eq_none hn,hn]
        rfl
      · have hk := h k
        rw [hf,hbind,h1.eq_none hn,hn,Option.or_none,Option.bind_none,Option.or_none] at hk
        exact hk
    · obtain hn | hn := ht.apart.none_or k
      · have hk := h k
        rw [hf,hbind,h0.eq_none hn,hn,Option.none_or,Option.bind_none,Option.none_or] at hk
        exact hk
      · rw [h1.eq_none hn,hn]
        rfl
  · rintro ⟨hp0,hp1⟩ k
    rw [hf,hbind,hp0 k,hp1 k]

theorem left_isPart (h0 : PartOf f t0 r0) : PartOf f (br p t0 t1) r0 ∧
    (IsPart f (br p t0 t1) r0 ↔ IsPart f t0 r0 ∧ DropsAll f t1) := by
  have hempty : PartOf f t1 empty := ⟨trivial,fun _ _ hk => by cases hk⟩
  obtain ⟨hp,hiff⟩ := glue_isPart ht h0 hempty
  have hglue : glue r0 empty = r0 := by
    cases r0 <;> rfl
  rw [hglue] at hp hiff
  rw [dropsAll_iff_isPart]
  exact ⟨hp,hiff⟩

theorem keepsBranch_of_test {sh : Sharing α} (h0 : PartOf f t0 r0) (h1 : PartOf f t1 r1)
    (htest : (sh.tree r0 t0 && sh.tree r1 t1) = true) : KeepsBranch sh f t0 t1 ∧ r0 = t0 ∧ r1 = t1 := by
  obtain ⟨hs0,hs1⟩ := Bool.and_eq_true_iff.1 htest
  obtain rfl := sh.tree_eq hs0
  obtain rfl := sh.tree_eq hs1
  exact ⟨⟨⟨hs0,h0.keepsAll⟩,hs1,h1.keepsAll⟩,rfl,rfl⟩

theorem test_of_keepsBranch {sh : Sharing α} (h0 : PartOf f t0 r0) (h1 : PartOf f t1 r1) (hp0 : IsPart f t0 r0)
    (hp1 : IsPart f t1 r1) (h : KeepsBranch sh f t0 t1) : (sh.tree r0 t0 && sh.tree r1 t1) = true := by
  obtain ⟨⟨hs0,hk0⟩,hs1,hk1⟩ := h
  have heq0 : r0 = t0 := eq_of_find h0.canonical ht.canonical0 fun k =>
    (hp0 k).trans (keepsAll_iff_isPart.1 hk0 k).symm
  have heq1 : r1 = t1 := eq_of_find h1.canonical ht.canonical1 fun k =>
    (hp1 k).trans (keepsAll_iff_isPart.1 hk1 k).symm
  rw [heq0,heq1,hs0,hs1]
  rfl

theorem not_dropsAll_of_keepsAll (hk : KeepsAll f t1) : ¬ DropsAll f t1 := by
  intro hd
  obtain ⟨k,x,hx⟩ := exists_find ht.canonical1 ht.ne1
  have hnone := (hk k x hx).symm.trans (hd k x hx)
  cases hnone

end branch

theorem partitionSplit_spec (sh : Sharing α) (p : Key → α → Option α × Option α) {t : Tree α} (ht : t.Canonical) :
    (PartOf (fun k x => (p k x).1) t (partitionSplit sh p t).1 ∧
      PartOf (fun k x => (p k x).2) t (partitionSplit sh p t).2) ∧
      ((IsPart (fun k x => (p k x).1) t (partitionSplit sh p t).1 ∧
        IsPart (fun k x => (p k x).2) t (partitionSplit sh p t).2) ↔ LosesNothing sh p t) := by
  induction t with
  | empty =>
    have hpart : ∀ f : Key → α → Option α, IsPart f empty empty := fun f k => rfl
    exact ⟨⟨(hpart _).partOf trivial,(hpart _).partOf trivial⟩,iff_of_true ⟨hpart _,hpart _⟩ trivial⟩
  | lf i x =>
    have hpart : ∀ f : Key → α → Option α, IsPart f (lf i x) (lf0 sh i x (lf i x) (f i x)) := by
      intro f k
      rw [lf0_eq,(lfOpt_represents i _).2,find_lf]
      by_cases hk : k = i <;> simp [hk]
    have hcan : ∀ o : Option α, (lf0 sh i x (lf i x) o).Canonical := by
      intro o
      rw [lf0_eq]
      exact (lfOpt_represents i o).1
    rw [partitionSplit]
    exact ⟨⟨(hpart _).partOf (hcan _),(hpart _).partOf (hcan _)⟩,
      iff_of_true ⟨hpart fun k x => (p k x).1,hpart fun k x => (p k x).2⟩ trivial⟩
  | br q t0 t1 ih0 ih1 =>
    obtain ⟨i,hc⟩ := children_of_canonical ht
    obtain ⟨⟨ha0,hb0⟩,hiff0⟩ := ih0 hc.canonical0
    obtain ⟨⟨ha1,hb1⟩,hiff1⟩ := ih1 hc.canonical1
    obtain ⟨hga,hgaiff⟩ := glue_isPart hc ha0 ha1
    obtain ⟨hgb,hgbiff⟩ := glue_isPart hc hb0 hb1
    obtain ⟨hla,hlaiff⟩ := left_isPart hc ha0
    obtain ⟨hlb,hlbiff⟩ := left_isPart hc hb0
    have hwhole : ∀ {f : Key → α → Option α}, KeepsBranch sh f t0 t1 → IsPart f (br q t0 t1) (br q t0 t1) :=
      fun h => keepsAll_iff_isPart.1 (hc.keepsAll_iff.2 ⟨h.1.2,h.2.2⟩)
    rw [partitionSplit,LosesNothing,← hiff0,← hiff1]
    by_cases htest : (sh.tree (partitionSplit sh p t0).1 t0 && sh.tree (partitionSplit sh p t1).1 t1) = true
    · obtain ⟨hkeep,heq0,heq1⟩ := keepsBranch_of_test hc ha0 ha1 htest
      have hw := hwhole hkeep
      simp only [htest,if_true]
      refine ⟨⟨hw.partOf ht,hlb⟩,?_⟩
      rw [hlbiff]
      constructor
      · rintro ⟨_,hp0,hdrop⟩
        refine ⟨⟨⟨?_,hp0⟩,?_,hb1.isPart_of_dropsAll hdrop⟩,fun _ => hdrop,fun hn => absurd hkeep hn⟩
        · rw [heq0]
          exact keepsAll_iff_isPart.1 hkeep.1.2
        · rw [heq1]
          exact keepsAll_iff_isPart.1 hkeep.2.2
      · rintro ⟨⟨⟨_,hp0⟩,_⟩,hdrop,_⟩
        exact ⟨hw,hp0,hdrop hkeep⟩
    · by_cases htest' : (sh.tree (partitionSplit sh p t0).2 t0 && sh.tree (partitionSplit sh p t1).2 t1) = true
      · obtain ⟨hkeep,heq0,heq1⟩ := keepsBranch_of_test hc hb0 hb1 htest'
        have hw := hwhole hkeep
        simp only [htest,htest',if_true]
        refine ⟨⟨hla,hw.partOf ht⟩,?_⟩
        constructor
        · rintro ⟨hp,_⟩
          obtain ⟨hp0,hdrop⟩ := hlaiff.1 hp
          refine ⟨⟨⟨hp0,?_⟩,ha1.isPart_of_dropsAll hdrop,?_⟩,
            fun hk => absurd hdrop (not_dropsAll_of_keepsAll hc hk.2.2),fun _ _ => hdrop⟩
          · rw [heq0]
            exact keepsAll_iff_isPart.1 hkeep.1.2
          · rw [heq1]
            exact keepsAll_iff_isPart.1 hkeep.2.2
        · rintro ⟨⟨⟨hp0,_⟩,hp1,_⟩,_,hdrop⟩
          have hn : ¬ KeepsBranch sh (fun k x => (p k x).1) t0 t1 :=
            fun hk => htest (test_of_keepsBranch hc ha0 ha1 hp0 hp1 hk)
          exact ⟨hlaiff.2 ⟨hp0,hdrop hn hkeep⟩,hw⟩
      · simp only [htest,htest']
        refine ⟨⟨hga,hgb⟩,?_⟩
        constructor
        · rintro ⟨hpa,hpb⟩
          obtain ⟨hpa0,hpa1⟩ := hgaiff.1 hpa
          obtain ⟨hpb0,hpb1⟩ := hgbiff.1 hpb
          exact ⟨⟨⟨hpa0,hpb0⟩,hpa1,hpb1⟩,
            fun hk => absurd (test_of_keepsBranch hc ha0 ha1 hpa0 hpa1 hk) htest,
            fun _ hk => absurd (test_of_keepsBranch hc hb0 hb1 hpb0 hpb1 hk) htest'⟩
        · rintro ⟨⟨⟨hpa0,hpb0⟩,hpa1,hpb1⟩,_⟩
          exact ⟨hgaiff.2 ⟨hpa0,hpa1⟩,hgbiff.2 ⟨hpb0,hpb1⟩⟩

/-- The shared difference and the shared split, against their pointwise definitions. -/
theorem diffq_partitionSplit_iff (sh : Sharing α) (phi : Key → α → α → Option α) (p : Key → α → Option α × Option α)
    {s t u : Tree α} (hs : s.Canonical) (ht : t.Canonical) (hu : u.Canonical) :
    ((∀ k, find k (diffq sh phi s t) = diffMap (phi k) (find k s) (find k t)) ↔
      NoExtra sh phi (find · s) (find · t)) ∧
    (((∀ k, find k (partitionSplit sh p u).1 = (find k u).bind fun x => (p k x).1) ∧
      ∀ k, find k (partitionSplit sh p u).2 = (find k u).bind fun x => (p k x).2) ↔ LosesNothing sh p u) :=
  ⟨diffq_eq_iff sh phi hs ht,(partitionSplit_spec sh p hu).2⟩

deriving instance DecidableEq for Tree

/-- Physical equality when equal values and equal trees are the same object. -/
def hashConsed [DecidableEq α] : Sharing α where
  value x y := decide (x = y)
  tree s t := decide (s = t)
  value_eq h := of_decide_eq_true h
  tree_eq h := of_decide_eq_true h

/-- Two bindings, of the keys `0` and `1`. -/
def twoBindings : Tree ℕ := br 0 (lf 0 7) (lf 1 8)

theorem twoBindings_canonical : twoBindings.Canonical := by
  refine ⟨by simp,by simp,trivial,trivial,0,⟨by decide,by decide,?_⟩,?_,?_⟩
  · intro j hj
    omega
  · intro b hb
    rw [List.mem_singleton.1 hb]
    decide
  · intro b hb
    rw [List.mem_singleton.1 hb]
    decide

theorem diffq_partitionSplit_agree : find 0 (diffq hashConsed (fun _ x _ => some x) (lf 0 5) twoBindings) = some 5 ∧
    find 1 (partitionSplit hashConsed (fun _ x => (some x,none)) twoBindings).1 = some 8 := by
  obtain ⟨hdiff,hsplit⟩ := diffq_partitionSplit_iff hashConsed (fun _ x _ => some x) (fun _ x => (some x,none))
    (represents_lf 0 5).1 twoBindings_canonical twoBindings_canonical
  refine ⟨?_,?_⟩
  · rw [hdiff.2]
    · rfl
    · rintro k hk hkt ⟨i,⟨x,y,w,_,_,hw,hwx,_⟩,_⟩
      cases hw
      simp [hashConsed] at hwx
  · rw [(hsplit.2 ⟨⟨trivial,trivial⟩,fun _ k x _ => rfl,fun hn _ => absurd ?_ hn⟩).1]
    · rfl
    · exact ⟨⟨rfl,fun k x _ => rfl⟩,rfl,fun k x _ => rfl⟩

/-- The difference binds a key that the first map does not bind; the split loses the second part of the key `1`. -/
theorem diffq_partitionSplit_differ :
    (find 1 (lf 0 5) = none ∧ find 1 (diffq hashConsed (fun _ _ y => some y) (lf 0 5) twoBindings) = some 8) ∧
      find 1 twoBindings = some 8 ∧
      find 1 (partitionSplit hashConsed (fun _ x => (some x,some x)) twoBindings).2 = none := by
  refine ⟨⟨rfl,?_⟩,rfl,by decide⟩
  rw [twoBindings,diffq]
  rfl

end Tree

end FramaC.Qed.Intmap
