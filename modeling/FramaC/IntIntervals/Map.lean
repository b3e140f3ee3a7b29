import FramaC.Offsetmap.Find
import FramaC.Offsetmap.Inclusion

/-! # Boolean offsetmaps

The maps under the sets of intervals: a bit belongs to the set when it is bound to true. Every
operation is described by the range of its result and by the set of bits that it represents.
-/
namespace FramaC.IntIntervalsMap
open Offsetmap

abbrev Itvs := ℤ × Offsetmap Bool

def singleIntervalValue : Offsetmap Bool → Option Bool
  | .node _ _ .empty _ .empty _ _ v => some v
  | _ => none

/-- Stops on equal maps and on single intervals, bound to the absorbing value or to the other one. -/
def stopAbsorbing (absorbing : Bool) (m1 m2 : Offsetmap Bool) : Map2Decide Bool :=
  if m1 = m2 then .returnLeft
  else
    match singleIntervalValue m1 with
    | some b => if b = absorbing then .returnLeft else .returnRight
    | none =>
      match singleIntervalValue m2 with
      | some b => if b = absorbing then .returnRight else .returnLeft
      | none => .recurse

def stopJoin : Offsetmap Bool → Offsetmap Bool → Map2Decide Bool := stopAbsorbing true

def stopNarrow : Offsetmap Bool → Offsetmap Bool → Map2Decide Bool := stopAbsorbing false

def stopDiff (m1 m2 : Offsetmap Bool) : Map2Decide Bool :=
  if m1 = m2 then .returnConstant false
  else
    match singleIntervalValue m2 with
    | some false => .returnLeft
    | _ => .recurse

def join : Itvs → Itvs → Option Itvs := map2OnValuesOffset stopJoin or

def narrow : Itvs → Itvs → Option Itvs := map2OnValuesOffset stopNarrow and

def diff : Itvs → Itvs → Option Itvs := map2OnValuesOffset stopDiff fun b1 b2 => if b2 then false else b1

/-- Binds `[min..max]`, which is not bound in the map. -/
def addItv (min max : ℤ) (b : Bool) (co : ℤ) (m : Offsetmap Bool) : Itvs := addNode min max 0 1 b co m

def enlargeItv (co : ℤ) (m : Offsetmap Bool) (prevMin newMin prevMax newMax : ℤ) : Itvs :=
  let (co,m) := if newMax > prevMax then addItv (prevMax + 1) newMax false co m else (co,m)
  if newMin < prevMin then addItv newMin (prevMin - 1) false co m else (co,m)

def shrinkItv (co : ℤ) (m : Offsetmap Bool) (prevMin newMin prevMax newMax : ℤ) : Itvs :=
  let (co,m) := if newMax < prevMax then keepBelow (newMax + 1) co m else (co,m)
  if newMin > prevMin then keepAbove (newMin - 1) co m else (co,m)

def resizeItv (co : ℤ) (m : Offsetmap Bool) (prevMin newMin prevMax newMax : ℤ) : Itvs :=
  let (co,m) :=
    if newMax = prevMax then (co,m)
    else if newMax > prevMax then addItv (prevMax + 1) newMax false co m
    else keepBelow (newMax + 1) co m
  if newMin = prevMin then (co,m)
  else if newMin < prevMin then addItv newMin (prevMin - 1) false co m
  else keepAbove (newMin - 1) co m

/-- Removes a rightmost interval bound to false; also returns the new rightmost bit. -/
def dropRighmostFalse (currOff : ℤ) : Offsetmap Bool → Option (ℤ × Offsetmap Bool × ℤ)
  | .empty => none
  | .node max offl subl offr subr rem modu v =>
    match subr with
    | .empty =>
      if v then some (currOff,.node max offl subl offr subr rem modu v,currOff + max)
      else some (currOff + offl,subl,currOff - 1)
    | .node .. => do
      let (newRcurrOff,newRtree,rbit) ← dropRighmostFalse (currOff + offr) subr
      if newRtree = subr then some (currOff,.node max offl subl offr subr rem modu v,rbit)
      else
        let (currOff',node') := makeNode currOff max offl subl (newRcurrOff - currOff) newRtree 0 1 v
        some (currOff',node',rbit)

/-- Removes a leftmost interval bound to false; also returns the new leftmost bit. -/
def dropLeftmostFalse (currOff : ℤ) : Offsetmap Bool → Option (ℤ × Offsetmap Bool × ℤ)
  | .empty => none
  | .node max offl subl offr subr rem modu v =>
    match subl with
    | .empty =>
      if v then some (currOff,.node max offl subl offr subr rem modu v,currOff)
      else some (currOff + offr,subr,currOff + max + 1)
    | .node .. => do
      let (newLcurrOff,newLtree,lbit) ← dropLeftmostFalse (currOff + offl) subl
      if newLtree = subl then some (currOff,.node max offl subl offr subr rem modu v,lbit)
      else
        let (currOff',node') := makeNode currOff max (newLcurrOff - currOff) newLtree offr subr 0 1 v
        some (currOff',node',lbit)

def bits (r : Itvs) : Set ℤ := {b | HasVal (segs r.1 r.2) b true}

section Bits
variable {lo hi : ℤ} {t t1 t2 r : Itvs}

theorem bits_subset (h : Canon lo hi t.1 t.2) : bits t ⊆ Set.Icc lo hi := fun _ hb => hb.mem h.1.tiles

theorem mem_bits_iff (h : Canon lo hi t.1 t.2) {b : ℤ} {v : Bool} (hv : HasVal (segs t.1 t.2) b v) :
    b ∈ bits t ↔ v = true := by
  constructor
  · intro hb
    exact h.1.tiles.hasVal_unique hv hb
  · rintro rfl
    exact hv

theorem bits_empty (o : ℤ) : bits (o,.empty) = ∅ := by
  ext b
  exact ⟨fun h => absurd h hasVal_nil,fun h => h.elim⟩

theorem eq_of_tree_eq (h1 : Canon lo hi t1.1 t1.2) (h2 : Canon lo hi t2.1 t2.2) (he : t1.2 = t2.2) : t1 = t2 := by
  rw [he] at h1
  exact Prod.ext (h1.1.root_unique h2.1) he

theorem hasVal_single {m : Offsetmap Bool} {o b : ℤ} {v w : Bool} (h : singleIntervalValue m = some v)
    (hw : HasVal (segs o m) b w) : w = v := by
  unfold singleIntervalValue at h
  split at h
  · rw [segs,segs,List.nil_append,hasVal_cons] at hw
    rcases hw with ⟨-,-,hw⟩ | hw
    · exact hw.symm.trans (Option.some.inj h)
    · exact absurd hw hasVal_nil
  · exact absurd h (by simp)

theorem bits_eq (h : Canon lo hi t.1 t.2) {S : Set ℤ} (hS : S ⊆ Set.Icc lo hi)
    (hv : ∀ b, lo ≤ b → b ≤ hi → ∃ v, HasVal (segs t.1 t.2) b v ∧ (v = true ↔ b ∈ S)) : bits t = S := by
  ext b
  constructor
  · intro hb
    obtain ⟨hb1,hb2⟩ := bits_subset h hb
    obtain ⟨v,hv,hiff⟩ := hv b hb1 hb2
    exact hiff.mp ((mem_bits_iff h hv).mp hb)
  · intro hb
    obtain ⟨hb1,hb2⟩ := hS hb
    obtain ⟨v,hv,hiff⟩ := hv b hb1 hb2
    exact (mem_bits_iff h hv).mpr (hiff.mpr hb)

variable {f : Bool → Bool → Bool}

theorem merged_left (h1 : Canon lo hi t1.1 t1.2) (h : ∀ b v1 v2, HasVal (segs t1.1 t1.2) b v1 →
    HasVal (segs t2.1 t2.2) b v2 → v1 = f v1 v2) : Merged (fun v1 v2 v => v = f v1 v2) lo hi t1 t2 t1 :=
  ⟨h1,fun b v1 v2 hv1 hv2 => ⟨v1,hv1,h b v1 v2 hv1 hv2⟩⟩

theorem merged_right (h2 : Canon lo hi t2.1 t2.2) (h : ∀ b v1 v2, HasVal (segs t1.1 t1.2) b v1 →
    HasVal (segs t2.1 t2.2) b v2 → v2 = f v1 v2) : Merged (fun v1 v2 v => v = f v1 v2) lo hi t1 t2 t2 :=
  ⟨h2,fun b v1 v2 hv1 hv2 => ⟨v2,hv2,h b v1 v2 hv1 hv2⟩⟩

theorem mem_bits_merged (h1 : Canon lo hi t1.1 t1.2) (h2 : Canon lo hi t2.1 t2.2)
    (hm : Merged (fun v1 v2 v => v = f v1 v2) lo hi t1 t2 r) {b : ℤ} : b ∈ bits r ↔
      ∃ v1 v2, HasVal (segs t1.1 t1.2) b v1 ∧ HasVal (segs t2.1 t2.2) b v2 ∧ f v1 v2 = true := by
  constructor
  · intro hb
    obtain ⟨hb1,hb2⟩ := bits_subset hm.1 hb
    obtain ⟨v1,hv1⟩ := h1.1.tiles.exists_hasVal hb1 hb2
    obtain ⟨v2,hv2⟩ := h2.1.tiles.exists_hasVal hb1 hb2
    obtain ⟨v,hv,rfl⟩ := hm.2 b v1 v2 hv1 hv2
    exact ⟨v1,v2,hv1,hv2,(mem_bits_iff hm.1 hv).mp hb⟩
  · rintro ⟨v1,v2,hv1,hv2,hf⟩
    obtain ⟨v,hv,rfl⟩ := hm.2 b v1 v2 hv1 hv2
    exact (mem_bits_iff hm.1 hv).mpr hf

end Bits

section Pointwise
variable {lo hi : ℤ} {t1 t2 : Itvs}

theorem stopAbsorbing_sound {a : Bool} {f : Bool → Bool → Bool} (hidem : ∀ v, f v v = v) (hal : ∀ v, f a v = a)
    (har : ∀ v, f v a = a) (hnl : ∀ v, f (!a) v = v) (hnr : ∀ v, f v (!a) = v) :
    StopSound (fun v1 v2 v => v = f v1 v2) (stopMap2 (stopAbsorbing a)) := by
  intro lo hi t1 t2 r h1 h2 hs
  unfold stopMap2 stopAbsorbing at hs
  by_cases he : t1.2 = t2.2
  · rw [if_pos he] at hs
    obtain rfl := Option.some.inj hs
    refine merged_left h1 fun b v1 v2 hv1 hv2 => ?_
    rw [← eq_of_tree_eq h1 h2 he] at hv2
    rw [h1.1.tiles.hasVal_unique hv2 hv1,hidem]
  rw [if_neg he] at hs
  cases hs1 : singleIntervalValue t1.2 with
  | some w1 =>
    rw [hs1] at hs
    by_cases hw : w1 = a
    · simp only [if_pos hw] at hs
      obtain rfl := Option.some.inj hs
      refine merged_left h1 fun b v1 v2 hv1 hv2 => ?_
      rw [hasVal_single hs1 hv1,hw,hal]
    · simp only [if_neg hw] at hs
      obtain rfl := Option.some.inj hs
      refine merged_right h2 fun b v1 v2 hv1 hv2 => ?_
      rw [hasVal_single hs1 hv1,Bool.eq_not_of_ne hw,hnl]
  | none =>
    rw [hs1] at hs
    cases hs2 : singleIntervalValue t2.2 with
    | some w2 =>
      rw [hs2] at hs
      by_cases hw : w2 = a
      · simp only [if_pos hw] at hs
        obtain rfl := Option.some.inj hs
        refine merged_right h2 fun b v1 v2 hv1 hv2 => ?_
        rw [hasVal_single hs2 hv2,hw,har]
      · simp only [if_neg hw] at hs
        obtain rfl := Option.some.inj hs
        refine merged_left h1 fun b v1 v2 hv1 hv2 => ?_
        rw [hasVal_single hs2 hv2,Bool.eq_not_of_ne hw,hnr]
    | none =>
      rw [hs2] at hs
      exact absurd hs (by simp)

theorem stopJoin_sound : StopSound (fun v1 v2 v => v = or v1 v2) (stopMap2 stopJoin) :=
  stopAbsorbing_sound Bool.or_self Bool.true_or Bool.or_true Bool.false_or Bool.or_false

theorem stopNarrow_sound : StopSound (fun v1 v2 v => v = and v1 v2) (stopMap2 stopNarrow) :=
  stopAbsorbing_sound Bool.and_self Bool.false_and Bool.and_false Bool.true_and Bool.and_true

theorem stopDiff_sound :
    StopSound (fun v1 v2 v => v = if v2 then false else v1) (stopMap2 stopDiff) := by
  intro lo hi t1 t2 r h1 h2 hs
  unfold stopMap2 stopDiff at hs
  by_cases he : t1.2 = t2.2
  · rw [if_pos he] at hs
    have hv : ∀ {b v1 v2}, HasVal (segs t1.1 t1.2) b v1 → HasVal (segs t2.1 t2.2) b v2 → v2 = v1 := by
      intro b v1 v2 hv1 hv2
      rw [← eq_of_tree_eq h1 h2 he] at hv2
      exact h1.1.tiles.hasVal_unique hv2 hv1
    dsimp only at hs
    split at hs
    · rename_i hempty
      obtain rfl := Option.some.inj hs
      refine merged_left h1 fun b v1 v2 hv1 _ => ?_
      rw [hempty] at hv1
      exact absurd hv1 hasVal_nil
    · rename_i hne
      obtain ⟨hb,hle,hc⟩ := canon_constant h1 hne false
      rw [hb] at hs
      obtain rfl := Option.some.inj hs
      refine ⟨hc,fun b v1 v2 hv1 hv2 => ⟨false,?_,?_⟩⟩
      · obtain ⟨hb1,hb2⟩ := hv1.mem h1.1.tiles
        rw [(intervalAux_spec hle (.inl rfl)).2,hasVal_cons,newSeg_lo,newSeg_hi,newSeg_v]
        exact .inl ⟨hb1,hb2,rfl⟩
      · rw [hv hv1 hv2]
        cases v1 <;> rfl
  rw [if_neg he] at hs
  cases hs2 : singleIntervalValue t2.2 with
  | some w2 =>
    rw [hs2] at hs
    cases w2 with
    | true => exact absurd hs (by simp)
    | false =>
      obtain rfl := Option.some.inj hs
      refine merged_left h1 fun b v1 v2 hv1 hv2 => ?_
      rw [hasVal_single hs2 hv2]
      rfl
  | none =>
    rw [hs2] at hs
    exact absurd hs (by simp)

theorem join_spec (h1 : Canon lo hi t1.1 t1.2) (h2 : Canon lo hi t2.1 t2.2) :
    ∃ r, join t1 t2 = some r ∧ Canon lo hi r.1 r.2 ∧ bits r = bits t1 ∪ bits t2 := by
  obtain ⟨r,hr,hm⟩ := mergeFrom_spec (fAuxMap2_sound or) stopJoin_sound h1 h2
  refine ⟨r,hr,hm.1,?_⟩
  ext b
  rw [mem_bits_merged h1 h2 hm,Set.mem_union]
  constructor
  · rintro ⟨v1,v2,hv1,hv2,hf⟩
    rw [mem_bits_iff h1 hv1,mem_bits_iff h2 hv2]
    exact Bool.or_eq_true_iff.mp hf
  · intro hb
    obtain ⟨hb1,hb2⟩ : lo ≤ b ∧ b ≤ hi := hb.elim (fun hb => bits_subset h1 hb) fun hb => bits_subset h2 hb
    obtain ⟨v1,hv1⟩ := h1.1.tiles.exists_hasVal hb1 hb2
    obtain ⟨v2,hv2⟩ := h2.1.tiles.exists_hasVal hb1 hb2
    rw [mem_bits_iff h1 hv1,mem_bits_iff h2 hv2] at hb
    exact ⟨v1,v2,hv1,hv2,Bool.or_eq_true_iff.mpr hb⟩

theorem narrow_spec (h1 : Canon lo hi t1.1 t1.2) (h2 : Canon lo hi t2.1 t2.2) :
    ∃ r, narrow t1 t2 = some r ∧ Canon lo hi r.1 r.2 ∧ bits r = bits t1 ∩ bits t2 := by
  obtain ⟨r,hr,hm⟩ := mergeFrom_spec (fAuxMap2_sound and) stopNarrow_sound h1 h2
  refine ⟨r,hr,hm.1,?_⟩
  ext b
  rw [mem_bits_merged h1 h2 hm,Set.mem_inter_iff]
  constructor
  · rintro ⟨v1,v2,hv1,hv2,hf⟩
    rw [mem_bits_iff h1 hv1,mem_bits_iff h2 hv2]
    exact Bool.and_eq_true_iff.mp hf
  · rintro ⟨hb1,hb2⟩
    exact ⟨true,true,hb1,hb2,rfl⟩

theorem diff_spec (h1 : Canon lo hi t1.1 t1.2) (h2 : Canon lo hi t2.1 t2.2) :
    ∃ r, diff t1 t2 = some r ∧ Canon lo hi r.1 r.2 ∧ bits r = bits t1 \ bits t2 := by
  obtain ⟨r,hr,hm⟩ := mergeFrom_spec (fAuxMap2_sound fun b1 b2 => if b2 then false else b1) stopDiff_sound h1 h2
  refine ⟨r,hr,hm.1,?_⟩
  ext b
  rw [mem_bits_merged h1 h2 hm,Set.mem_sdiff]
  constructor
  · rintro ⟨v1,v2,hv1,hv2,hf⟩
    rw [mem_bits_iff h1 hv1,mem_bits_iff h2 hv2]
    cases v1 <;> cases v2 <;> simp at hf ⊢
  · rintro ⟨hb1,hb2⟩
    obtain ⟨hr1,hr2⟩ := bits_subset h1 hb1
    obtain ⟨v2,hv2⟩ := h2.1.tiles.exists_hasVal hr1 hr2
    refine ⟨true,v2,hb1,hv2,?_⟩
    cases v2 with
    | true => exact absurd hv2 hb2
    | false => rfl

theorem diff_single_false (h2 : singleIntervalValue t2.2 = some false) (h1 : (bits t1).Nonempty) :
    diff t1 t2 = some t1 := by
  have hne : t1.2 ≠ t2.2 := by
    intro he
    obtain ⟨b,hb⟩ := h1
    rw [← he] at h2
    exact absurd (hasVal_single h2 hb) (by simp)
  unfold diff map2OnValuesOffset mergeFrom
  obtain ⟨l,h⟩ := boundsOffset t1.1 t1.2
  dsimp only
  rw [mergeRec,stopMap2,stopDiff,if_neg hne,h2]

end Pointwise

section Ranges
variable {lo hi o : ℤ} {m : Offsetmap Bool}

theorem falseAligned : OffsetmapLattice.isIsotropic false = true ∨ (0 : ℤ) ≤ 0 ∧ (0 : ℤ) < 1 := .inl rfl

theorem addItv_right (min max : ℤ) (h : Canon lo (min - 1) o m) (hle : min ≤ max) :
    Canon lo max (addItv min max false o m).1 (addItv min max false o m).2 ∧
      bits (addItv min max false o m) = bits (o,m) := by
  obtain ⟨o',m',g1,g2,-⟩ := addNode_right h hle falseAligned
  have hc : Canon lo max (addItv min max false o m).1 (addItv min max false o m).2 := by
    rw [addItv,g1]
    exact g2
  refine ⟨hc,bits_eq hc ((bits_subset (t := (o,m)) h).trans (Set.Icc_subset_Icc_right (by omega))) ?_⟩
  intro b hb1 hb2
  by_cases hb : b < min
  · obtain ⟨v,hv⟩ := h.1.tiles.exists_hasVal hb1 (by omega)
    exact ⟨v,hasVal_addNode_right h hle falseAligned rfl (.inl hv),(mem_bits_iff (t := (o,m)) h hv).symm⟩
  · refine ⟨false,hasVal_addNode_right h hle falseAligned rfl (.inr ⟨by omega,hb2,rfl⟩),by simp,fun hmem => ?_⟩
    have := (bits_subset (t := (o,m)) h hmem).2
    omega

theorem addItv_left (min max : ℤ) (h : Canon (max + 1) hi o m) (hle : min ≤ max) :
    Canon min hi (addItv min max false o m).1 (addItv min max false o m).2 ∧
      bits (addItv min max false o m) = bits (o,m) := by
  obtain ⟨o',m',g1,g2,-⟩ := addNode_left h hle falseAligned
  have hc : Canon min hi (addItv min max false o m).1 (addItv min max false o m).2 := by
    rw [addItv,g1]
    exact g2
  refine ⟨hc,bits_eq hc ((bits_subset (t := (o,m)) h).trans (Set.Icc_subset_Icc_left (by omega))) ?_⟩
  intro b hb1 hb2
  by_cases hb : max < b
  · obtain ⟨v,hv⟩ := h.1.tiles.exists_hasVal (by omega) hb2
    exact ⟨v,hasVal_addNode_left h hle falseAligned rfl (.inl hv),(mem_bits_iff (t := (o,m)) h hv).symm⟩
  · refine ⟨false,hasVal_addNode_left h hle falseAligned rfl (.inr ⟨hb1,by omega,rfl⟩),by simp,fun hmem => ?_⟩
    have := (bits_subset (t := (o,m)) h hmem).1
    omega

theorem keepBelow_bits {x : ℤ} (h : Canon lo hi o m) (hlo : lo ≤ x) (hhi : x ≤ hi + 1) :
    Canon lo (x - 1) (keepBelow x o m).1 (keepBelow x o m).2 ∧
      bits (keepBelow x o m) = bits (o,m) ∩ Set.Icc lo (x - 1) := by
  obtain ⟨o',m',g1,g2,g3⟩ := keepBelow_spec h hlo hhi
  rw [g1]
  refine ⟨g2,?_⟩
  ext b
  show HasVal (segs o' m') b true ↔ _
  rw [g3,hasVal_clip]
  exact ⟨fun hb => ⟨hb.2.2,hb.1,hb.2.1⟩,fun hb => ⟨hb.2.1,hb.2.2,hb.1⟩⟩

theorem keepAbove_bits {x : ℤ} (h : Canon lo hi o m) (hlo : lo - 1 ≤ x) (hhi : x ≤ hi) :
    Canon (x + 1) hi (keepAbove x o m).1 (keepAbove x o m).2 ∧
      bits (keepAbove x o m) = bits (o,m) ∩ Set.Icc (x + 1) hi := by
  obtain ⟨o',m',g1,g2,g3⟩ := keepAbove_spec h hlo hhi
  rw [g1]
  refine ⟨g2,?_⟩
  ext b
  show HasVal (segs o' m') b true ↔ _
  rw [g3,hasVal_clip]
  exact ⟨fun hb => ⟨hb.2.2,hb.1,hb.2.1⟩,fun hb => ⟨hb.2.1,hb.2.2,hb.1⟩⟩

variable {prevMin newMin prevMax newMax : ℤ}

theorem enlargeItv_spec (h : Canon prevMin prevMax o m) (hmin : newMin ≤ prevMin) (hmax : prevMax ≤ newMax) :
    Canon newMin newMax (enlargeItv o m prevMin newMin prevMax newMax).1
      (enlargeItv o m prevMin newMin prevMax newMax).2 ∧
      bits (enlargeItv o m prevMin newMin prevMax newMax) = bits (o,m) := by
  have hright : ∃ r : Itvs, (if newMax > prevMax then addItv (prevMax + 1) newMax false o m else (o,m)) = r ∧
      Canon prevMin newMax r.1 r.2 ∧ bits r = bits (o,m) := by
    split
    · obtain ⟨h1,h2⟩ := addItv_right (prevMax + 1) newMax
        (by rwa [add_sub_cancel_right]) (by omega)
      exact ⟨_,rfl,h1,h2⟩
    · obtain rfl : newMax = prevMax := by omega
      exact ⟨_,rfl,h,rfl⟩
  obtain ⟨⟨o',m'⟩,h1,h2,h3⟩ := hright
  rw [enlargeItv,h1]
  dsimp only
  split
  · obtain ⟨h4,h5⟩ := addItv_left newMin (prevMin - 1) (by rwa [sub_add_cancel]) (by omega)
    exact ⟨h4,h5.trans h3⟩
  · obtain rfl : newMin = prevMin := by omega
    exact ⟨h2,h3⟩

theorem shrinkItv_spec (h : Canon prevMin prevMax o m) (hmin : prevMin ≤ newMin) (hmax : newMax ≤ prevMax)
    (hle : newMin ≤ newMax) :
    Canon newMin newMax (shrinkItv o m prevMin newMin prevMax newMax).1
      (shrinkItv o m prevMin newMin prevMax newMax).2 ∧
      bits (shrinkItv o m prevMin newMin prevMax newMax) = bits (o,m) ∩ Set.Icc newMin newMax := by
  have hright : ∃ r : Itvs, (if newMax < prevMax then keepBelow (newMax + 1) o m else (o,m)) = r ∧
      Canon prevMin newMax r.1 r.2 ∧ bits r = bits (o,m) ∩ Set.Icc prevMin newMax := by
    split
    · obtain ⟨h1,h2⟩ := keepBelow_bits (x := newMax + 1) h (by omega) (by omega)
      rw [add_sub_cancel_right] at h1 h2
      exact ⟨_,rfl,h1,h2⟩
    · obtain rfl : newMax = prevMax := by omega
      exact ⟨_,rfl,h,(Set.inter_eq_left.mpr (bits_subset (t := (o,m)) h)).symm⟩
  obtain ⟨⟨o',m'⟩,h1,h2,h3⟩ := hright
  rw [shrinkItv,h1]
  dsimp only
  split
  · obtain ⟨h4,h5⟩ := keepAbove_bits (x := newMin - 1) h2 (by omega) (by omega)
    rw [sub_add_cancel] at h4 h5
    refine ⟨h4,?_⟩
    rw [h5,h3,Set.inter_assoc,Set.Icc_inter_Icc,sup_eq_right.mpr hmin,inf_idem]
  · obtain rfl : newMin = prevMin := by omega
    exact ⟨h2,h3⟩

theorem resizeItv_spec (h : Canon prevMin prevMax o m) (hprev : prevMin ≤ prevMax) (hle : newMin ≤ newMax)
    (hreach : prevMin ≤ newMax + 1) :
    Canon newMin newMax (resizeItv o m prevMin newMin prevMax newMax).1
      (resizeItv o m prevMin newMin prevMax newMax).2 ∧
      bits (resizeItv o m prevMin newMin prevMax newMax) = bits (o,m) ∩ Set.Icc newMin newMax := by
  have hright : ∃ r : Itvs, (if newMax = prevMax then (o,m)
      else if newMax > prevMax then addItv (prevMax + 1) newMax false o m
      else keepBelow (newMax + 1) o m) = r ∧
      Canon prevMin newMax r.1 r.2 ∧ bits r = bits (o,m) ∩ Set.Icc prevMin newMax := by
    split
    · rename_i he
      subst he
      exact ⟨_,rfl,h,(Set.inter_eq_left.mpr (bits_subset (t := (o,m)) h)).symm⟩
    split
    · obtain ⟨h1,h2⟩ := addItv_right (prevMax + 1) newMax
        (by rwa [add_sub_cancel_right]) (by omega)
      refine ⟨_,rfl,h1,h2.trans (Set.inter_eq_left.mpr ?_).symm⟩
      exact (bits_subset (t := (o,m)) h).trans (Set.Icc_subset_Icc_right (by omega))
    · obtain ⟨h1,h2⟩ := keepBelow_bits (x := newMax + 1) h (by omega) (by omega)
      rw [add_sub_cancel_right] at h1 h2
      exact ⟨_,rfl,h1,h2⟩
  obtain ⟨⟨o',m'⟩,h1,h2,h3⟩ := hright
  rw [resizeItv,h1]
  dsimp only
  split
  · rename_i he
    subst he
    exact ⟨h2,h3⟩
  split
  · obtain ⟨h4,h5⟩ := addItv_left newMin (prevMin - 1) (by rwa [sub_add_cancel]) (by omega)
    refine ⟨h4,h5.trans ?_⟩
    rw [h3]
    ext b
    constructor
    · rintro ⟨hb1,hb2,hb3⟩
      exact ⟨hb1,by omega,hb3⟩
    · rintro ⟨hb1,hb2,hb3⟩
      exact ⟨hb1,(bits_subset (t := (o,m)) h hb1).1,hb3⟩
  · obtain ⟨h4,h5⟩ := keepAbove_bits (x := newMin - 1) h2 (by omega) (by omega)
    rw [sub_add_cancel] at h4 h5
    refine ⟨h4,?_⟩
    rw [h5,h3,Set.inter_assoc,Set.Icc_inter_Icc,sup_eq_right.mpr (show prevMin ≤ newMin by omega),inf_idem]

theorem resizeItv_far (h : Canon prevMin prevMax o m) (hprev : prevMin ≤ prevMax) (hle : newMin ≤ newMax)
    (hfar : newMax + 1 < prevMin) :
    singleIntervalValue (resizeItv o m prevMin newMin prevMax newMax).2 = some false := by
  rw [resizeItv,if_neg (by omega),if_neg (by omega),keepBelow_of_lt h.1 hfar]
  dsimp only
  rw [if_neg (by omega),if_pos (by omega)]
  rfl

end Ranges

section Normalisation
variable {lo hi o : ℤ} {m : Offsetmap Bool}

theorem mergeable_bool {s t : Seg Bool} (hs : s.Ok) (ht : t.Ok) : s.mergeable t = decide (s.v = t.v) := by
  have hiff : s.mergeable t = true ↔ decide (s.v = t.v) = true := by
    obtain ⟨hs1,hs2⟩ := hs.2.2 rfl
    obtain ⟨ht1,ht2⟩ := ht.2.2 rfl
    rw [Seg.mergeable_iff hs,decide_eq_true_iff]
    constructor
    · exact fun h => h.1
    · exact fun h => ⟨h,hs2.trans ht2.symm,hs2 ▸ one_dvd _,.inl ht1⟩
  exact Bool.eq_iff_iff.mpr hiff

theorem hasVal_after {s : Seg Bool} {l : List (Seg Bool)} (h : Good (s :: l)) (ht : Tiles (s.hi + 1) hi l)
    (hne : l ≠ []) : HasVal l (s.hi + 1) (!s.v) := by
  obtain ⟨t,l,rfl⟩ := List.exists_cons_of_ne_nil hne
  have hm : s.mergeable t = false := (List.isChain_cons_cons.mp h.2).1
  rw [mergeable_bool (h.1 s (by simp)) (h.1 t (by simp)),decide_eq_false_iff_not] at hm
  obtain ⟨h1,h2,-⟩ := ht
  exact hasVal_cons.mpr (.inl ⟨by omega,by omega,Bool.eq_not_of_ne (Ne.symm hm)⟩)

theorem hasVal_before {s : Seg Bool} {l r : List (Seg Bool)} (h : Good (l ++ s :: r)) (ht : Tiles lo hi l)
    (hne : l ≠ []) : HasVal l hi (!s.v) := by
  obtain ⟨k,t,rfl⟩ := (List.eq_nil_or_concat l).resolve_left hne
  rw [List.concat_eq_append] at *
  have hm : t.mergeable s = false := by
    have hc := (List.isChain_append.mp h.2).2.2 t (by simp) s (by simp)
    exact hc
  rw [mergeable_bool (h.1 t (by simp)) (h.1 s (by simp)),decide_eq_false_iff_not] at hm
  obtain ⟨j,-,hj1,hj2,hj3⟩ := ht.split
  have hj3 : hi = t.hi + 1 - 1 := hj3
  exact hasVal_append.mpr (.inr (hasVal_cons.mpr (.inl ⟨by omega,by omega,Bool.eq_not_of_ne hm⟩)))

theorem segs_unique {l k : List (Seg Bool)} (hl : Good l) (hk : Good k) (tl : Tiles lo hi l) (tk : Tiles lo hi k)
    (h : ∀ b v, HasVal l b v → HasVal k b v) : l = k := by
  induction l generalizing lo k with
  | nil =>
    have hlo : hi = lo - 1 := tl
    cases k with
    | nil => rfl
    | cons t k =>
      have := tk.mem (List.mem_cons_self)
      omega
  | cons s l ih =>
    have hs := tl.mem List.mem_cons_self
    cases k with
    | nil =>
      have hlo : hi = lo - 1 := tk
      omega
    | cons t k =>
      have ht := tk.mem List.mem_cons_self
      obtain ⟨hs1,hs2,hs3⟩ := tl
      have tk' := tk
      obtain ⟨ht1,ht2,ht3⟩ := tk
      have hv : s.v = t.v := by
        have hsv : HasVal (t :: k) lo s.v := h lo s.v (hasVal_cons.mpr (.inl ⟨by omega,by omega,rfl⟩))
        exact tk'.hasVal_unique hsv (hasVal_cons.mpr (.inl ⟨by omega,by omega,rfl⟩))
      -- a segment that ended first would be followed by the other value
      have hend : s.hi = t.hi := by
        rcases lt_trichotomy s.hi t.hi with hlt | he | hlt
        · have hne : l ≠ [] := by
            rintro rfl
            have : hi = s.hi + 1 - 1 := hs3
            omega
          have hafter := h _ _ (hasVal_cons.mpr (.inr (hasVal_after hl hs3 hne)))
          have hin : HasVal (t :: k) (s.hi + 1) t.v := hasVal_cons.mpr (.inl ⟨by omega,by omega,rfl⟩)
          have := tk'.hasVal_unique hafter hin
          rw [hv] at this
          exact absurd this (by simp)
        · exact he
        · have hne : k ≠ [] := by
            rintro rfl
            have : hi = t.hi + 1 - 1 := ht3
            omega
          have hafter : HasVal (t :: k) (t.hi + 1) (!t.v) := hasVal_cons.mpr (.inr (hasVal_after hk ht3 hne))
          have hin := h (t.hi + 1) s.v (hasVal_cons.mpr (.inl ⟨by omega,by omega,rfl⟩))
          have := tk'.hasVal_unique hafter hin
          rw [hv] at this
          exact absurd this (by simp)
      have hst : s = t := by
        obtain ⟨hs4,hs5⟩ := (hl.1 s (by simp)).2.2 rfl
        obtain ⟨ht4,ht5⟩ := (hk.1 t (by simp)).2.2 rfl
        cases s
        cases t
        simp only at *
        subst hs4 hs5 ht4 ht5 hv hend
        rw [hs1,ht1]
      subst hst
      congr 1
      refine ih (Good.right (l := [s]) hl) (Good.right (l := [s]) hk) hs3 ht3 ?_
      intro b v hb
      rcases hasVal_cons.mp (h b v (hasVal_cons.mpr (.inr hb))) with hb' | hb'
      · have := (hb.mem hs3).1
        omega
      · exact hb'

theorem eq_of_bits_eq {t1 t2 : Itvs} (h1 : Canon lo hi t1.1 t1.2) (h2 : Canon lo hi t2.1 t2.2)
    (h : bits t1 = bits t2) : t1 = t2 := by
  have hsegs : segs t1.1 t1.2 = segs t2.1 t2.2 := by
    refine segs_unique h1.2 h2.2 h1.1.tiles h2.1.tiles fun b v hv => ?_
    obtain ⟨hb1,hb2⟩ := hv.mem h1.1.tiles
    obtain ⟨w,hw⟩ := h2.1.tiles.exists_hasVal hb1 hb2
    have hiff : v = true ↔ w = true := by
      rw [← mem_bits_iff h1 hv,← mem_bits_iff h2 hw,h]
    rwa [Bool.eq_iff_iff.mpr hiff]
  obtain ⟨ho,ht⟩ := h1.1.unique h2.1 hsegs
  exact Prod.ext ho ht

theorem bits_node {max offl offr rem modu : ℤ} {subl subr : Offsetmap Bool} {v : Bool} :
    bits (o,.node max offl subl offr subr rem modu v) =
      bits (o + offl,subl) ∪ {b | o ≤ b ∧ b ≤ o + max ∧ v = true} ∪ bits (o + offr,subr) := by
  ext b
  rw [bits,Set.mem_ofPred_eq,segs,hasVal_append,hasVal_cons,Set.union_assoc]
  rfl

theorem makeNode_bits {c max offl offr p : ℤ} {subl subr : Offsetmap Bool} (v : Bool)
    (hl : Canon lo (c - 1) (c + offl) subl) (hr : Canon (c + max + 1) hi (c + offr) subr) (hmax : 0 ≤ max)
    (hp : Pivot.IsPivot lo hi p) (hp1 : c ≤ p) (hp2 : p ≤ c + max) :
    ∃ r, makeNode c max offl subl offr subr 0 1 v = r ∧ Canon lo hi r.1 r.2 ∧
      bits r = bits (c + offl,subl) ∪ {b | c ≤ b ∧ b ≤ c + max ∧ v = true} ∪ bits (c + offr,subr) := by
  obtain ⟨o',t',g1,g2,g3⟩ := makeNode_spec (v := v) hl hr hp hp1 hp2
    (.inl rfl : OffsetmapLattice.isIsotropic v = true ∨ (0 : ℤ) ≤ 0 ∧ (0 : ℤ) < 1)
  refine ⟨_,g1,g2,?_⟩
  have htiles : Tiles lo hi (segs (c + offl) subl ++ newSeg c (c + max) 0 1 v :: segs (c + offr) subr) := by
    refine hl.1.tiles.append ⟨?_,?_,?_⟩
    · simp
    · simpa using hmax
    · simpa using hr.1.tiles
  have hok : ∀ s ∈ segs (c + offl) subl ++ newSeg c (c + max) 0 1 v :: segs (c + offr) subr, s.Ok :=
    List.forall_mem_append.mpr ⟨hl.2.1,List.forall_mem_cons.mpr ⟨newSeg_ok (.inl rfl),hr.2.1⟩⟩
  ext b
  rw [bits,Set.mem_ofPred_eq,g3,hasVal_glueList htiles hok,hasVal_append,hasVal_cons,newSeg_lo,newSeg_hi,newSeg_v,
    Set.union_assoc]
  rfl

theorem dropRighmostFalse_spec (h : Canon lo hi o m) (hne : m ≠ .empty) :
    ∃ o' m' rbit, dropRighmostFalse o m = some (o',m',rbit) ∧ Canon lo rbit o' m' ∧ bits (o',m') = bits (o,m) ∧
      (m' ≠ .empty → rbit ∈ bits (o,m)) := by
  induction m generalizing lo hi o with
  | empty => exact absurd rfl hne
  | node max offl subl offr subr rem modu v ihl ihr =>
    have hgood := h.2
    obtain ⟨hmax,hl,hr,hok,p,hp,hp1,hp2⟩ := h.node_parts
    rw [segs] at hgood
    rw [dropRighmostFalse.eq_def]
    dsimp only
    cases hsub : subr with
    | empty =>
      rw [hsub] at hr
      obtain ⟨e1,e2⟩ := hr.1
      obtain rfl : hi = o + max := by omega
      cases v with
      | true =>
        refine ⟨_,_,_,rfl,hsub ▸ h,rfl,fun _ => ?_⟩
        rw [bits_node]
        exact .inl (.inr ⟨by omega,le_rfl,rfl⟩)
      | false =>
        refine ⟨_,_,_,rfl,hl,?_,fun hne => ?_⟩
        · rw [bits_node,bits_empty]
          simp
        · rw [bits_node]
          have hne' : segs (o + offl) subl ≠ [] := by
            cases subl with
            | empty => exact absurd rfl hne
            | node => simp [segs]
          exact .inl (.inl (hasVal_before hgood hl.1.tiles hne'))
    | node max' offl' subl' offr' subr' rem' modu' v' =>
      have hne' : subr ≠ .empty := by simp [hsub]
      obtain ⟨or,r',rbit,g1,g2,g3,g4⟩ := ihr hr hne'
      dsimp only
      rw [← hsub,g1]
      simp only [Option.bind_eq_bind,Option.bind_some]
      have hle := g2.1.le
      split
      · rename_i he
        subst he
        have hroot := g2.1.root_unique hr.1
        have hbounds := g2.1.bounds
        rw [hroot,hr.1.bounds] at hbounds
        obtain rfl := (Prod.mk.inj hbounds).2
        refine ⟨_,_,_,rfl,h,rfl,fun _ => ?_⟩
        rw [bits_node]
        exact .inr (g4 hne')
      · have hr' : Canon (o + max + 1) rbit (o + (or - o)) r' := by rwa [add_sub_cancel]
        have hbound : rbit ≤ hi := by
          by_cases hempty : r' = .empty
          · rw [hempty] at g2
            have := g2.1.2
            have := hr.1.le
            omega
          · exact (bits_subset (t := (o + offr,subr)) hr (g4 hempty)).2
        obtain ⟨r,k1,k2,k3⟩ := makeNode_bits v hl hr' hmax (hp.restrict le_rfl hbound hp.lower (by omega)) hp1 hp2
        refine ⟨r.1,r.2,rbit,by rw [k1],k2,?_,fun _ => ?_⟩
        · show bits r = _
          rw [k3,bits_node,add_sub_cancel,g3]
        · rw [bits_node]
          by_cases hempty : r' = .empty
          · have hsegs : segs (o + offr) subr ≠ [] := by simp [hsub,segs]
            have hafter := hasVal_after hgood.right hr.1.tiles hsegs
            have hv : v = true := by
              cases v with
              | true => rfl
              | false =>
                rw [hempty,bits_empty] at g3
                have : o + max + 1 ∈ bits (o + offr,subr) := hafter
                rw [← g3] at this
                exact this.elim
            have := g2.1
            rw [hempty] at this
            have hrb := this.2
            exact .inl (.inr ⟨by omega,by omega,hv⟩)
          · exact .inr (g4 hempty)

theorem dropLeftmostFalse_spec (h : Canon lo hi o m) (hne : m ≠ .empty) :
    ∃ o' m' lbit, dropLeftmostFalse o m = some (o',m',lbit) ∧ Canon lbit hi o' m' ∧ bits (o',m') = bits (o,m) ∧
      (m' ≠ .empty → lbit ∈ bits (o,m)) := by
  induction m generalizing lo hi o with
  | empty => exact absurd rfl hne
  | node max offl subl offr subr rem modu v ihl ihr =>
    have hgood := h.2
    obtain ⟨hmax,hl,hr,hok,p,hp,hp1,hp2⟩ := h.node_parts
    rw [segs] at hgood
    rw [dropLeftmostFalse.eq_def]
    dsimp only
    cases hsub : subl with
    | empty =>
      rw [hsub] at hl
      obtain ⟨e1,e2⟩ := hl.1
      obtain rfl : lo = o := by omega
      cases v with
      | true =>
        refine ⟨_,_,_,rfl,hsub ▸ h,rfl,fun _ => ?_⟩
        rw [bits_node]
        exact .inl (.inr ⟨le_rfl,by omega,rfl⟩)
      | false =>
        refine ⟨_,_,_,rfl,hr,?_,fun hne => ?_⟩
        · rw [bits_node,bits_empty]
          simp
        · rw [bits_node]
          have hne' : segs (lo + offr) subr ≠ [] := by
            cases subr with
            | empty => exact absurd rfl hne
            | node => simp [segs]
          exact .inr (hasVal_after hgood.right hr.1.tiles hne')
    | node max' offl' subl' offr' subr' rem' modu' v' =>
      have hne' : subl ≠ .empty := by simp [hsub]
      obtain ⟨ol,l',lbit,g1,g2,g3,g4⟩ := ihl hl hne'
      dsimp only
      rw [← hsub,g1]
      simp only [Option.bind_eq_bind,Option.bind_some]
      have hle := g2.1.le
      split
      · rename_i he
        subst he
        have hbounds := g2.1.bounds
        rw [g2.1.root_unique_upper hl.1,hl.1.bounds] at hbounds
        obtain rfl := (Prod.mk.inj hbounds).1
        refine ⟨_,_,_,rfl,h,rfl,fun _ => ?_⟩
        rw [bits_node]
        exact .inl (.inl (g4 hne'))
      · have hl' : Canon lbit (o - 1) (o + (ol - o)) l' := by rwa [add_sub_cancel]
        have hbound : lo ≤ lbit := by
          by_cases hempty : l' = .empty
          · rw [hempty] at g2
            have := g2.1.2
            have := hl.1.le
            omega
          · exact (bits_subset (t := (o + offl,subl)) hl (g4 hempty)).1
        obtain ⟨r,k1,k2,k3⟩ := makeNode_bits v hl' hr hmax (hp.restrict hbound le_rfl (by omega) hp.upper) hp1 hp2
        refine ⟨r.1,r.2,lbit,by rw [k1],k2,?_,fun _ => ?_⟩
        · show bits r = _
          rw [k3,bits_node,add_sub_cancel,g3]
        · rw [bits_node]
          by_cases hempty : l' = .empty
          · have hsegs : segs (o + offl) subl ≠ [] := by simp [hsub,segs]
            have hbefore := hasVal_before hgood hl.1.tiles hsegs
            have hv : v = true := by
              cases v with
              | true => rfl
              | false =>
                rw [hempty,bits_empty] at g3
                have : o - 1 ∈ bits (o + offl,subl) := hbefore
                rw [← g3] at this
                exact this.elim
            have := g2.1
            rw [hempty] at this
            have hlb := this.2
            exact .inl (.inr ⟨by omega,by omega,hv⟩)
          · exact .inl (.inl (g4 hempty))

end Normalisation

end FramaC.IntIntervalsMap
