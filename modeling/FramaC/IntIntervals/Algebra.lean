import FramaC.IntIntervals.Map

/-! # Sets of integer intervals

A set is `Top`, `Bottom`, or a boolean map with its first and last bits bound to true. Both maps
of a binary operation are brought to a common range first, and the result is normalised when its
ends may be bound to false. Represented sets are those of the bits bound to true.
-/
namespace FramaC
open Offsetmap IntIntervalsMap

/-- `Intervals (curr_off, m, min, max)`. -/
inductive IntIntervals
  | top
  | intervals (currOff : ℤ) (m : Offsetmap Bool) (min max : ℤ)
  | bottom
  deriving DecidableEq, Repr

namespace IntIntervals

def auxCreateInterval (min max : ℤ) (v : Bool) : Itvs := addItv min max v min .empty

def injectBounds (min max : ℤ) : IntIntervals :=
  if min > max then .bottom
  else
    let (currOff,i) := auxCreateInterval min max true
    .intervals currOff i min max

def isIncluded : IntIntervals → IntIntervals → Bool
  | .bottom,_ => true
  | .top,.top => true
  | .intervals ..,.top => true
  | .intervals co1 i1 min1 max1,.intervals co2 i2 min2 max2 =>
    decide (min1 ≥ min2) && decide (max1 ≤ max2) && isIncludedAux co1 i1 co2 i2
  | _,_ => false

def join : IntIntervals → IntIntervals → Option IntIntervals
  | .top,_ => some .top
  | _,.top => some .top
  | .bottom,i => some i
  | i,.bottom => some i
  | .intervals co1 i1 min1 max1,.intervals co2 i2 min2 max2 => do
    let newMin := min min1 min2
    let newMax := max max1 max2
    let coi1' := enlargeItv co1 i1 min1 newMin max1 newMax
    let coi2' := enlargeItv co2 i2 min2 newMin max2 newMax
    let (co,i) ← IntIntervalsMap.join coi1' coi2'
    some (.intervals co i newMin newMax)

def normalizeItv (currOff : ℤ) (m : Offsetmap Bool) : Option IntIntervals :=
  if m = .empty ∨ singleIntervalValue m = some false then some .bottom
  else do
    let (currOff,m,rightBit) ← dropRighmostFalse currOff m
    let (currOff,m,leftBit) ← dropLeftmostFalse currOff m
    if m = .empty then some .bottom else some (.intervals currOff m leftBit rightBit)

def narrow : IntIntervals → IntIntervals → Option IntIntervals
  | .bottom,_ => some .bottom
  | _,.bottom => some .bottom
  | .top,i => some i
  | i,.top => some i
  | .intervals co1 i1 min1 max1,.intervals co2 i2 min2 max2 =>
    if min1 > max2 ∨ min2 > max1 then some .bottom
    else do
      let newMin := max min1 min2
      let newMax := min max1 max2
      let coi1' := shrinkItv co1 i1 min1 newMin max1 newMax
      let coi2' := shrinkItv co2 i2 min2 newMin max2 newMax
      let (co,i) ← IntIntervalsMap.narrow coi1' coi2'
      normalizeItv co i

/-- `meet` is `narrow`. -/
def meet : IntIntervals → IntIntervals → Option IntIntervals := narrow

def intersectsMap : ℤ → Offsetmap Bool → ℤ → Offsetmap Bool → Bool
  | _,.empty,_,_ => false
  | _,_,_,.empty => false
  | o1,.node max1 offl1 subl1 offr1 subr1 r1 m1 v1,o2,.node max2 offl2 subl2 offr2 subr2 r2 m2 v2 =>
    let t1 : Offsetmap Bool := .node max1 offl1 subl1 offr1 subr1 r1 m1 v1
    let t2 : Offsetmap Bool := .node max2 offl2 subl2 offr2 subr2 r2 m2 v2
    if v1 = false then intersectsMap (o1 + offl1) subl1 o2 t2 || intersectsMap (o1 + offr1) subr1 o2 t2
    else if v2 = false then intersectsMap o1 t1 (o2 + offl2) subl2 || intersectsMap o1 t1 (o2 + offr2) subr2
    else if max1 + o1 < o2 then intersectsMap o1 t1 (o2 + offl2) subl2 || intersectsMap (o1 + offr1) subr1 o2 t2
    else if o1 > max2 + o2 then intersectsMap o1 t1 (o2 + offr2) subr2 || intersectsMap (o1 + offl1) subl1 o2 t2
    else true
termination_by _ t1 _ t2 => count t1 + count t2
decreasing_by all_goals simp +zetaDelta only [count]; omega

def intersects : IntIntervals → IntIntervals → Bool
  | .bottom,_ => false
  | _,.bottom => false
  | .intervals co1 i1 min1 max1,.intervals co2 i2 min2 max2 =>
    decide (min1 ≤ max2) && decide (min2 ≤ max1) && intersectsMap co1 i1 co2 i2
  | _,_ => true

def diff : IntIntervals → IntIntervals → Option IntIntervals
  | .bottom,_ => some .bottom
  | .top,_ => some .top
  | .intervals ..,.top => some .bottom
  | m1,.bottom => some m1
  | .intervals co1 i1 min1 max1,.intervals co2 i2 min2 max2 =>
    if max1 > max2 ∧ min1 < min2 then do
      let coi2' := enlargeItv co2 i2 min2 min1 max2 max1
      let (co,i) ← IntIntervalsMap.diff (co1,i1) coi2'
      some (.intervals co i min1 max1)
    else do
      let coi2' := resizeItv co2 i2 min2 min1 max2 max1
      let (co,i) ← IntIntervalsMap.diff (co1,i1) coi2'
      normalizeItv co i

def inject (l : List (ℤ × ℤ)) : Option IntIntervals :=
  l.foldlM (fun acc (b,e) => join (injectBounds b e) acc) .bottom

def concr : IntIntervals → Set ℤ
  | .top => Set.univ
  | .bottom => ∅
  | .intervals co m _ _ => bits (co,m)

/-- The map spans `[min..max]` and is bound to true at both ends. -/
def Wf : IntIntervals → Prop
  | .top => True
  | .bottom => True
  | .intervals co m min max => Canon min max co m ∧ min ∈ bits (co,m) ∧ max ∈ bits (co,m)

section Operations
variable {i1 i2 : IntIntervals}

theorem injectBounds_spec (min max : ℤ) : Wf (injectBounds min max) ∧ injectBounds min max ≠ .top ∧
    concr (injectBounds min max) = Set.Icc min max := by
  unfold injectBounds
  split
  · rename_i hgt
    exact ⟨trivial,by simp,(Set.Icc_eq_empty (by omega)).symm⟩
  · rename_i hle
    obtain ⟨hc,hs⟩ := intervalAux_spec (show min ≤ max by omega)
      (.inl rfl : OffsetmapLattice.isIsotropic true = true ∨ (0 : ℤ) ≤ 0 ∧ (0 : ℤ) < 1)
    have hbits : bits (min,intervalAux (max - min) 0 1 true) = Set.Icc min max := by
      ext b
      rw [bits,Set.mem_ofPred_eq,hs,hasVal_cons,newSeg_lo,newSeg_hi,newSeg_v]
      simp [hasVal_nil]
    refine ⟨⟨hc,?_,?_⟩,by simp,hbits⟩
    · rw [hbits]
      exact ⟨le_rfl,by omega⟩
    · rw [hbits]
      exact ⟨by omega,le_rfl⟩

theorem join_spec (h1 : Wf i1) (h2 : Wf i2) :
    ∃ r, join i1 i2 = some r ∧ Wf r ∧ concr r = concr i1 ∪ concr i2 := by
  cases i1 with
  | top => exact ⟨.top,rfl,trivial,(Set.univ_union _).symm⟩
  | bottom =>
    cases i2 with
    | top => exact ⟨.top,rfl,trivial,(Set.union_univ _).symm⟩
    | bottom => exact ⟨_,rfl,trivial,(Set.union_self _).symm⟩
    | intervals => exact ⟨_,rfl,h2,(Set.empty_union _).symm⟩
  | intervals co1 m1 min1 max1 =>
    cases i2 with
    | top => exact ⟨.top,rfl,trivial,(Set.union_univ _).symm⟩
    | bottom => exact ⟨_,rfl,h1,(Set.union_empty _).symm⟩
    | intervals co2 m2 min2 max2 =>
      obtain ⟨hc1,hmin1,hmax1⟩ := h1
      obtain ⟨hc2,hmin2,hmax2⟩ := h2
      obtain ⟨e1,e2⟩ := enlargeItv_spec hc1 (min_le_left min1 min2) (le_max_left max1 max2)
      obtain ⟨f1,f2⟩ := enlargeItv_spec hc2 (min_le_right min1 min2) (le_max_right max1 max2)
      obtain ⟨⟨co,m⟩,g1,g2,g3⟩ := IntIntervalsMap.join_spec e1 f1
      rw [e2,f2] at g3
      refine ⟨.intervals co m (min min1 min2) (max max1 max2),?_,⟨g2,?_,?_⟩,g3⟩
      · rw [join]
        simp only [g1,Option.bind_eq_bind,Option.bind_some]
      · rw [g3]
        rcases min_choice min1 min2 with he | he
        · rw [he]
          exact .inl hmin1
        · rw [he]
          exact .inr hmin2
      · rw [g3]
        rcases max_choice max1 max2 with he | he
        · rw [he]
          exact .inl hmax1
        · rw [he]
          exact .inr hmax2

theorem single_false_of_bits {lo hi o : ℤ} {m : Offsetmap Bool} (h : Canon lo hi o m) (hne : m ≠ .empty)
    (hb : bits (o,m) = ∅) : singleIntervalValue m = some false := by
  cases m with
  | empty => exact absurd rfl hne
  | node max offl subl offr subr rem modu v =>
    have hgood := h.2
    obtain ⟨hmax,hl,hr,-⟩ := h.node_parts
    rw [segs] at hgood
    rw [bits_node,Set.union_empty_iff,Set.union_empty_iff] at hb
    obtain ⟨⟨hbl,hbv⟩,hbr⟩ := hb
    have hv : v = false := by
      by_contra hv
      have : o ∈ ({b | o ≤ b ∧ b ≤ o + max ∧ v = true} : Set ℤ) := ⟨le_rfl,by omega,by simpa using hv⟩
      rw [hbv] at this
      exact this.elim
    subst hv
    have hsl : subl = .empty := by
      by_contra hsl
      have hne' : segs (o + offl) subl ≠ [] := by
        cases subl with
        | empty => exact absurd rfl hsl
        | node => simp [segs]
      have : o - 1 ∈ bits (o + offl,subl) := hasVal_before hgood hl.1.tiles hne'
      rw [hbl] at this
      exact this.elim
    have hsr : subr = .empty := by
      by_contra hsr
      have hne' : segs (o + offr) subr ≠ [] := by
        cases subr with
        | empty => exact absurd rfl hsr
        | node => simp [segs]
      have : o + max + 1 ∈ bits (o + offr,subr) := hasVal_after hgood.right hr.1.tiles hne'
      rw [hbr] at this
      exact this.elim
    subst hsl hsr
    rfl

theorem normalizeItv_spec {lo hi o : ℤ} {m : Offsetmap Bool} (h : Canon lo hi o m) :
    ∃ r, normalizeItv o m = some r ∧ Wf r ∧ r ≠ .top ∧ concr r = bits (o,m) := by
  unfold normalizeItv
  split
  · rename_i hm
    refine ⟨.bottom,rfl,trivial,by simp,?_⟩
    rcases hm with rfl | hs
    · exact (bits_empty o).symm
    · refine (Set.eq_empty_iff_forall_notMem.mpr fun b hb => ?_).symm
      exact absurd (hasVal_single hs hb) (by simp)
  · rename_i hm
    push Not at hm
    obtain ⟨o1,m1,rbit,e1,e2,e3,e4⟩ := dropRighmostFalse_spec h hm.1
    have hne1 : m1 ≠ .empty := by
      rintro rfl
      rw [bits_empty] at e3
      exact hm.2 (single_false_of_bits h hm.1 e3.symm)
    obtain ⟨o2,m2,lbit,f1,f2,f3,f4⟩ := dropLeftmostFalse_spec e2 hne1
    simp only [e1,f1,Option.bind_eq_bind,Option.bind_some]
    split
    · rename_i hne2
      refine ⟨.bottom,rfl,trivial,by simp,?_⟩
      rw [hne2,bits_empty,e3] at f3
      exact f3
    · rename_i hne2
      refine ⟨_,rfl,⟨f2,?_,?_⟩,by simp,f3.trans e3⟩
      · rw [f3]
        exact f4 hne2
      · rw [f3,e3]
        exact e4 hne1

theorem narrow_spec (h1 : Wf i1) (h2 : Wf i2) :
    ∃ r, narrow i1 i2 = some r ∧ Wf r ∧ concr r = concr i1 ∩ concr i2 := by
  cases i1 with
  | bottom =>
    cases i2 with
    | top => exact ⟨_,rfl,trivial,(Set.empty_inter _).symm⟩
    | bottom => exact ⟨_,rfl,trivial,(Set.empty_inter _).symm⟩
    | intervals => exact ⟨_,rfl,trivial,(Set.empty_inter _).symm⟩
  | top =>
    cases i2 with
    | top => exact ⟨_,rfl,trivial,(Set.univ_inter _).symm⟩
    | bottom => exact ⟨_,rfl,trivial,(Set.univ_inter _).symm⟩
    | intervals => exact ⟨_,rfl,h2,(Set.univ_inter _).symm⟩
  | intervals co1 m1 min1 max1 =>
    cases i2 with
    | top => exact ⟨_,rfl,h1,(Set.inter_univ _).symm⟩
    | bottom => exact ⟨_,rfl,trivial,(Set.inter_empty _).symm⟩
    | intervals co2 m2 min2 max2 =>
      obtain ⟨hc1,hmin1,hmax1⟩ := h1
      obtain ⟨hc2,hmin2,hmax2⟩ := h2
      have hr1 := bits_subset (t := (co1,m1)) hc1
      have hr2 := bits_subset (t := (co2,m2)) hc2
      have hle1 : min1 ≤ max1 := (hr1 hmin1).2
      have hle2 : min2 ≤ max2 := (hr2 hmin2).2
      rw [narrow]
      split
      · rename_i hdisj
        refine ⟨.bottom,rfl,trivial,(Set.eq_empty_iff_forall_notMem.mpr ?_).symm⟩
        rintro b ⟨hb1,hb2⟩
        have h1 := hr1 hb1
        have h2 := hr2 hb2
        simp only [Set.mem_Icc] at h1 h2
        omega
      · obtain ⟨e1,e2⟩ := shrinkItv_spec hc1 (le_max_left min1 min2) (min_le_left max1 max2) (by omega)
        obtain ⟨f1,f2⟩ := shrinkItv_spec hc2 (le_max_right min1 min2) (min_le_right max1 max2) (by omega)
        obtain ⟨⟨co,m⟩,g1,g2,g3⟩ := IntIntervalsMap.narrow_spec e1 f1
        obtain ⟨r,k1,k2,-,k4⟩ := normalizeItv_spec g2
        refine ⟨r,?_,k2,?_⟩
        · simp only [g1,Option.bind_eq_bind,Option.bind_some]
          exact k1
        · rw [k4,g3,e2,f2]
          ext b
          constructor
          · rintro ⟨⟨hb1,-⟩,hb2,-⟩
            exact ⟨hb1,hb2⟩
          · rintro ⟨hb1,hb2⟩
            have h1 := hr1 hb1
            have h2 := hr2 hb2
            have hin : b ∈ Set.Icc (max min1 min2) (min max1 max2) := ⟨max_le h1.1 h2.1,le_min h1.2 h2.2⟩
            exact ⟨⟨hb1,hin⟩,hb2,hin⟩

theorem diff_spec (h1 : Wf i1) (h2 : Wf i2) (hne : i1 ≠ .top) :
    ∃ r, diff i1 i2 = some r ∧ Wf r ∧ concr r = concr i1 \ concr i2 := by
  cases i1 with
  | top => exact absurd rfl hne
  | bottom => exact ⟨.bottom,rfl,trivial,(Set.empty_sdiff _).symm⟩
  | intervals co1 m1 min1 max1 =>
    cases i2 with
    | top => exact ⟨_,rfl,trivial,(Set.sdiff_univ _).symm⟩
    | bottom => exact ⟨_,rfl,h1,Set.sdiff_empty.symm⟩
    | intervals co2 m2 min2 max2 =>
      obtain ⟨hc1,hmin1,hmax1⟩ := h1
      obtain ⟨hc2,hmin2,hmax2⟩ := h2
      have hr1 := bits_subset (t := (co1,m1)) hc1
      have hr2 := bits_subset (t := (co2,m2)) hc2
      have hle1 : min1 ≤ max1 := (hr1 hmin1).2
      have hle2 : min2 ≤ max2 := (hr2 hmin2).2
      have hpair : Canon min1 max1 ((co1,m1) : Itvs).1 ((co1,m1) : Itvs).2 := hc1
      rw [diff]
      split
      · rename_i hin
        obtain ⟨e1,e2⟩ := enlargeItv_spec hc2 hin.2.le hin.1.le
        obtain ⟨⟨co,m⟩,g1,g2,g3⟩ := IntIntervalsMap.diff_spec hpair e1
        rw [e2] at g3
        have hout : ∀ b, b ∈ bits (co1,m1) → ¬ (min2 ≤ b ∧ b ≤ max2) → b ∈ bits (co,m) := by
          intro b hb hb'
          rw [g3]
          exact ⟨hb,fun hb2 => hb' (hr2 hb2)⟩
        refine ⟨.intervals co m min1 max1,?_,⟨g2,hout _ hmin1 (by omega),hout _ hmax1 (by omega)⟩,g3⟩
        simp only [g1,Option.bind_eq_bind,Option.bind_some]
      · by_cases hfar : max1 + 1 < min2
        · have hsingle := resizeItv_far hc2 hle2 hle1 hfar
          have hdiff := diff_single_false hsingle ⟨min1,hmin1⟩
          obtain ⟨r,k1,k2,-,k4⟩ := normalizeItv_spec hc1
          refine ⟨r,?_,k2,?_⟩
          · simp only [hdiff,Option.bind_eq_bind,Option.bind_some]
            exact k1
          · rw [k4]
            refine (sdiff_eq_left.mpr (Set.disjoint_left.mpr fun b hb1 hb2 => ?_)).symm
            have h1 := (hr1 hb1).2
            have h2 := (hr2 hb2).1
            omega
        · obtain ⟨e1,e2⟩ := resizeItv_spec hc2 hle2 hle1 (by omega)
          obtain ⟨⟨co,m⟩,g1,g2,g3⟩ := IntIntervalsMap.diff_spec hpair e1
          obtain ⟨r,k1,k2,-,k4⟩ := normalizeItv_spec g2
          refine ⟨r,?_,k2,?_⟩
          · simp only [g1,Option.bind_eq_bind,Option.bind_some]
            exact k1
          · rw [k4,g3,e2]
            ext b
            constructor
            · rintro ⟨hb1,hb2⟩
              exact ⟨hb1,fun hb => hb2 ⟨hb,hr1 hb1⟩⟩
            · rintro ⟨hb1,hb2⟩
              exact ⟨hb1,fun hb => hb2 hb.1⟩

theorem isIncluded_spec (h1 : Wf i1) (h2 : Wf i2) : isIncluded i1 i2 = true ↔ concr i1 ⊆ concr i2 := by
  cases i1 with
  | bottom =>
    rw [isIncluded]
    exact ⟨fun _ => Set.empty_subset _,fun _ => rfl⟩
  | top =>
    cases i2 with
    | top => exact ⟨fun _ => le_rfl,fun _ => rfl⟩
    | bottom => exact ⟨fun h => absurd h (by simp [isIncluded]),fun h => (h (Set.mem_univ 0)).elim⟩
    | intervals co2 m2 min2 max2 =>
      refine ⟨fun h => absurd h (by simp [isIncluded]),fun h => ?_⟩
      have := (bits_subset (t := (co2,m2)) h2.1 (h (Set.mem_univ (max2 + 1)))).2
      omega
  | intervals co1 m1 min1 max1 =>
    cases i2 with
    | top => exact ⟨fun _ => Set.subset_univ _,fun _ => rfl⟩
    | bottom => exact ⟨fun h => absurd h (by simp [isIncluded]),fun h => (h h1.2.1).elim⟩
    | intervals co2 m2 min2 max2 =>
      obtain ⟨hc1,hmin1,hmax1⟩ := h1
      obtain ⟨hc2,hmin2,hmax2⟩ := h2
      have hr1 := bits_subset (t := (co1,m1)) hc1
      have hr2 := bits_subset (t := (co2,m2)) hc2
      have haux := isIncludedAux_iff (V := Bool) (fun _ => rfl) (fun v => by cases v <;> rfl) hc1.1 hc2.1
      rw [isIncluded,Bool.and_eq_true,Bool.and_eq_true,haux,decide_eq_true_iff,decide_eq_true_iff]
      constructor
      · rintro ⟨⟨hmin,hmax⟩,hsub⟩ b hb
        obtain ⟨hb1,hb2⟩ := hr1 hb
        obtain ⟨v2,hv2⟩ := hc2.1.tiles.exists_hasVal (show min2 ≤ b by omega) (show b ≤ max2 by omega)
        have hv : OffsetmapLattice.isIncluded true v2 = true := hsub b trivial true v2 hb hv2
        cases v2 with
        | true => exact hv2
        | false => exact absurd hv (by decide)
      · intro hsub
        refine ⟨⟨(hr2 (hsub hmin1)).1,(hr2 (hsub hmax1)).2⟩,?_⟩
        intro b _ v1 v2 hv1 hv2
        cases v1 with
        | false => cases v2 <;> rfl
        | true =>
          have hb2 : b ∈ bits (co2,m2) := hsub hv1
          rw [(mem_bits_iff (t := (co2,m2)) hc2 hv2).mp hb2]
          rfl

theorem mem_bits_sub {lo hi o max offl offr rem modu b : ℤ} {subl subr : Offsetmap Bool} {v : Bool}
    (h : Shape lo hi o (.node max offl subl offr subr rem modu v))
    (hb : b ∈ bits (o,.node max offl subl offr subr rem modu v)) :
    (b < o → b ∈ bits (o + offl,subl)) ∧ (o + max < b → b ∈ bits (o + offr,subr)) := by
  rw [bits_node] at hb
  rcases hb with (hb | ⟨hb1,hb2,-⟩) | hb
  · have hmem : lo ≤ b ∧ b ≤ o - 1 := HasVal.mem hb h.2.1.tiles
    have := h.1
    exact ⟨fun _ => hb,fun hlt => by omega⟩
  · exact ⟨fun hlt => by omega,fun hlt => by omega⟩
  · have hmem : o + max + 1 ≤ b ∧ b ≤ hi := HasVal.mem hb h.2.2.1.tiles
    have := h.1
    exact ⟨fun hlt => by omega,fun _ => hb⟩

theorem intersectsMap_iff {lo1 hi1 o1 lo2 hi2 o2 : ℤ} {t1 t2 : Offsetmap Bool} (h1 : Shape lo1 hi1 o1 t1)
    (h2 : Shape lo2 hi2 o2 t2) :
    intersectsMap o1 t1 o2 t2 = true ↔ (bits (o1,t1) ∩ bits (o2,t2)).Nonempty := by
  induction hn : count t1 + count t2 using Nat.strong_induction_on generalizing lo1 hi1 o1 t1 lo2 hi2 o2 t2 with
  | _ n ih =>
    cases t1 with
    | empty =>
      rw [intersectsMap,bits_empty,Set.empty_inter]
      simp
    | node max1 offl1 subl1 offr1 subr1 r1 m1 v1 =>
      cases t2 with
      | empty =>
        rw [intersectsMap,bits_empty,Set.inter_empty]
        · simp
        · simp
      | node max2 offl2 subl2 offr2 subr2 r2 m2 v2 =>
        simp only [count] at hn
        have hl1 := h1.2.1
        have hr1 := h1.2.2.1
        have hl2 := h2.2.1
        have hr2 := h2.2.2.1
        have ilt := ih (count subl1 + count (.node max2 offl2 subl2 offr2 subr2 r2 m2 v2))
          (by simp only [count]; omega) hl1 h2 rfl
        have irt := ih (count subr1 + count (.node max2 offl2 subl2 offr2 subr2 r2 m2 v2))
          (by simp only [count]; omega) hr1 h2 rfl
        have itl := ih (count (.node max1 offl1 subl1 offr1 subr1 r1 m1 v1) + count subl2)
          (by simp only [count]; omega) h1 hl2 rfl
        have itr := ih (count (.node max1 offl1 subl1 offr1 subr1 r1 m1 v1) + count subr2)
          (by simp only [count]; omega) h1 hr2 rfl
        have hsub1 : bits (o1 + offl1,subl1) ⊆ bits (o1,.node max1 offl1 subl1 offr1 subr1 r1 m1 v1) ∧
            bits (o1 + offr1,subr1) ⊆ bits (o1,.node max1 offl1 subl1 offr1 subr1 r1 m1 v1) := by
          rw [bits_node]
          exact ⟨fun b hb => .inl (.inl hb),fun b hb => .inr hb⟩
        have hsub2 : bits (o2 + offl2,subl2) ⊆ bits (o2,.node max2 offl2 subl2 offr2 subr2 r2 m2 v2) ∧
            bits (o2 + offr2,subr2) ⊆ bits (o2,.node max2 offl2 subl2 offr2 subr2 r2 m2 v2) := by
          rw [bits_node]
          exact ⟨fun b hb => .inl (.inl hb),fun b hb => .inr hb⟩
        rw [intersectsMap]
        by_cases hv1 : v1 = false
        · have hbits : bits (o1,.node max1 offl1 subl1 offr1 subr1 r1 m1 v1) =
              bits (o1 + offl1,subl1) ∪ bits (o1 + offr1,subr1) := by
            rw [bits_node,hv1]
            simp
          rw [if_pos hv1,Bool.or_eq_true,ilt,irt,hbits,Set.union_inter_distrib_right,Set.union_nonempty]
        rw [if_neg hv1]
        by_cases hv2 : v2 = false
        · have hbits : bits (o2,.node max2 offl2 subl2 offr2 subr2 r2 m2 v2) =
              bits (o2 + offl2,subl2) ∪ bits (o2 + offr2,subr2) := by
            rw [bits_node,hv2]
            simp
          rw [if_pos hv2,Bool.or_eq_true,itl,itr,hbits,Set.inter_union_distrib_left,Set.union_nonempty]
        rw [if_neg hv2]
        by_cases hlt : max1 + o1 < o2
        · rw [if_pos hlt,Bool.or_eq_true,itl,irt]
          constructor
          · rintro (⟨b,hb1,hb2⟩ | ⟨b,hb1,hb2⟩)
            · exact ⟨b,hb1,hsub2.1 hb2⟩
            · exact ⟨b,hsub1.2 hb1,hb2⟩
          · rintro ⟨b,hb1,hb2⟩
            by_cases hb : b < o2
            · exact .inl ⟨b,hb1,(mem_bits_sub h2 hb2).1 hb⟩
            · exact .inr ⟨b,(mem_bits_sub h1 hb1).2 (by omega),hb2⟩
        rw [if_neg hlt]
        by_cases hgt : o1 > max2 + o2
        · rw [if_pos hgt,Bool.or_eq_true,itr,ilt]
          constructor
          · rintro (⟨b,hb1,hb2⟩ | ⟨b,hb1,hb2⟩)
            · exact ⟨b,hb1,hsub2.2 hb2⟩
            · exact ⟨b,hsub1.1 hb1,hb2⟩
          · rintro ⟨b,hb1,hb2⟩
            by_cases hb : o2 + max2 < b
            · exact .inl ⟨b,hb1,(mem_bits_sub h2 hb2).2 hb⟩
            · exact .inr ⟨b,(mem_bits_sub h1 hb1).1 (by omega),hb2⟩
        rw [if_neg hgt]
        -- both roots are bound to true at the later of their first bits
        refine iff_of_true rfl ⟨max o1 o2,?_,?_⟩
        · have hmax := h1.1
          rw [bits_node]
          exact .inl (.inr ⟨le_max_left _ _,by omega,by simpa using hv1⟩)
        · have hmax := h2.1
          rw [bits_node]
          exact .inl (.inr ⟨le_max_right _ _,by omega,by simpa using hv2⟩)

theorem intersects_spec (h1 : Wf i1) (h2 : Wf i2) :
    intersects i1 i2 = true ↔ (concr i1 ∩ concr i2).Nonempty := by
  cases i1 with
  | bottom =>
    rw [intersects,concr,Set.empty_inter]
    simp
  | top =>
    cases i2 with
    | bottom => simp [intersects,concr]
    | top => exact iff_of_true rfl ⟨0,trivial,trivial⟩
    | intervals co2 m2 min2 max2 => exact iff_of_true rfl ⟨min2,trivial,h2.2.1⟩
  | intervals co1 m1 min1 max1 =>
    cases i2 with
    | bottom => simp [intersects,concr]
    | top => exact iff_of_true rfl ⟨min1,h1.2.1,trivial⟩
    | intervals co2 m2 min2 max2 =>
      rw [intersects,Bool.and_eq_true,Bool.and_eq_true,intersectsMap_iff h1.1.1 h2.1.1,decide_eq_true_iff,
        decide_eq_true_iff]
      refine ⟨fun h => h.2,fun h => ⟨?_,h⟩⟩
      obtain ⟨b,hb1,hb2⟩ := h
      obtain ⟨hmin1,hmax1⟩ := bits_subset (t := (co1,m1)) h1.1 hb1
      obtain ⟨hmin2,hmax2⟩ := bits_subset (t := (co2,m2)) h2.1 hb2
      omega

theorem Wf.isLeast_isGreatest {co min max : ℤ} {m : Offsetmap Bool} (h : Wf (.intervals co m min max)) :
    IsLeast (bits (co,m)) min ∧ IsGreatest (bits (co,m)) max :=
  ⟨⟨h.2.1,fun _ hb => (bits_subset (t := (co,m)) h.1 hb).1⟩,h.2.2,fun _ hb => (bits_subset (t := (co,m)) h.1 hb).2⟩

theorem eq_of_concr_eq (h1 : Wf i1) (h2 : Wf i2) (he : concr i1 = concr i2) : i1 = i2 := by
  cases i1 with
  | bottom =>
    cases i2 with
    | bottom => rfl
    | top => exact absurd (he ▸ Set.mem_univ 0 : (0 : ℤ) ∈ concr .bottom) (Set.notMem_empty 0)
    | intervals co2 m2 min2 max2 => exact absurd (he ▸ h2.2.1 : min2 ∈ concr .bottom) (Set.notMem_empty _)
  | top =>
    cases i2 with
    | top => rfl
    | bottom => exact absurd (he ▸ Set.mem_univ 0 : (0 : ℤ) ∈ concr .bottom) (Set.notMem_empty 0)
    | intervals co2 m2 min2 max2 =>
      have hb : max2 + 1 ∈ concr (.intervals co2 m2 min2 max2) := he ▸ Set.mem_univ _
      have := h2.isLeast_isGreatest.2.2 hb
      omega
  | intervals co1 m1 min1 max1 =>
    cases i2 with
    | bottom => exact absurd (he ▸ h1.2.1 : min1 ∈ concr .bottom) (Set.notMem_empty _)
    | top =>
      have hb : max1 + 1 ∈ concr (.intervals co1 m1 min1 max1) := he ▸ Set.mem_univ _
      have := h1.isLeast_isGreatest.2.2 hb
      omega
    | intervals co2 m2 min2 max2 =>
      have hb : bits (co1,m1) = bits (co2,m2) := he
      obtain ⟨hmin1,hmax1⟩ := h1.isLeast_isGreatest
      obtain ⟨hmin2,hmax2⟩ := h2.isLeast_isGreatest
      rw [hb] at hmin1 hmax1
      obtain rfl := hmin1.unique hmin2
      obtain rfl := hmax1.unique hmax2
      have hmap : ((co1,m1) : Itvs) = (co2,m2) := IntIntervalsMap.eq_of_bits_eq h1.1 h2.1 hb
      obtain ⟨rfl,rfl⟩ := Prod.mk.inj hmap
      rfl

theorem join_ne_top (h1 : i1 ≠ .top) (h2 : i2 ≠ .top) {r : IntIntervals} (h : join i1 i2 = some r) : r ≠ .top := by
  cases i1 with
  | top => exact absurd rfl h1
  | bottom =>
    cases i2 with
    | top => exact absurd rfl h2
    | bottom => exact Option.some.inj h ▸ h1
    | intervals => exact Option.some.inj h ▸ h2
  | intervals =>
    cases i2 with
    | top => exact absurd rfl h2
    | bottom => exact Option.some.inj h ▸ h1
    | intervals =>
      rw [join] at h
      simp only [Option.bind_eq_bind,Option.bind_eq_some_iff] at h
      obtain ⟨⟨co,i⟩,-,h⟩ := h
      rw [← Option.some.inj h]
      simp

theorem inject_spec (l : List (ℤ × ℤ)) :
    ∃ r, inject l = some r ∧ Wf r ∧ r ≠ .top ∧ concr r = {b | ∃ itv ∈ l, itv.1 ≤ b ∧ b ≤ itv.2} := by
  have hfold : ∀ acc, Wf acc → acc ≠ .top →
      ∃ r, l.foldlM (fun acc (itv : ℤ × ℤ) => join (injectBounds itv.1 itv.2) acc) acc = some r ∧ Wf r ∧ r ≠ .top ∧
        concr r = concr acc ∪ {b | ∃ itv ∈ l, itv.1 ≤ b ∧ b ≤ itv.2} := by
    induction l with
    | nil => exact fun acc hacc hne => ⟨acc,rfl,hacc,hne,by simp⟩
    | cons itv l ih =>
      intro acc hacc hne
      obtain ⟨h1,h2,h3⟩ := injectBounds_spec itv.1 itv.2
      obtain ⟨acc',k1,k2,k3⟩ := join_spec h1 hacc
      obtain ⟨r,g1,g2,g3,g4⟩ := ih acc' k2 (join_ne_top h2 hne k1)
      refine ⟨r,?_,g2,g3,?_⟩
      · rw [List.foldlM_cons,k1]
        exact g1
      · rw [g4,k3,h3]
        ext b
        simp only [Set.mem_union,Set.mem_Icc,Set.mem_ofPred_eq,List.mem_cons,exists_eq_or_imp]
        tauto
  obtain ⟨r,h1,h2,h3,h4⟩ := hfold .bottom trivial (by simp)
  exact ⟨r,h1,h2,h3,h4.trans (Set.empty_union _)⟩

end Operations

end IntIntervals
end FramaC
