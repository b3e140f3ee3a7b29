import FramaC.IntIntervals.Algebra
import FramaC.Offsetmap.Bindings

/-! # From offsets and sizes to sets of intervals

The accesses of a given size at the offsets of an ival are written one after the other in a map
bound to false, unless there are too many of them. The result is exact when none is skipped.
-/
namespace FramaC

/-- `Int_Base.t`. -/
inductive IntBase
  | top
  | value (i : ℤ)
  deriving DecidableEq, Repr

namespace IntIntervals
open Offsetmap IntIntervalsMap

/-- The accesses lie in `[min..startMax + size - 1]`; `none` is the assertion failure. -/
def auxMinMax (plevel : ℤ) (sc : ℕ) (ival : Ival) (size min startMax : ℤ) : Option IntIntervals :=
  if size = 0 then some .bottom
  else
    let max := startMax + size - 1
    let (currOff,ifalse) := auxCreateInterval min max false
    match updateAux plevel sc (.known min max) true ival size true currOff ifalse with
    | some (.value (currOff',i)) => some (.intervals currOff' i min max)
    | _ => none

def fromIvalSizeAux (plevel : ℤ) (sc : ℕ) (ival : Ival) (size : ℤ) : Option IntIntervals :=
  match ival with
  | .topItv (some mn) (some mx) r m => auxMinMax plevel sc (.topItv (some mn) (some mx) r m) size mn mx
  | .topItv _ _ _ _ => some .top
  | .set s => if s.length > 0 then auxMinMax plevel sc (.set s) size (s.headD 0) (s.getLastD 0) else some .bottom

def fromIvalSize (plevel : ℤ) (sc : ℕ) (ival : Ival) : IntBase → Option IntIntervals
  | .top => some .top
  | .value size => fromIvalSizeAux plevel sc ival size

def isPrecise (plevel : ℤ) (sc : ℕ) (ival : Ival) (size : ℤ) : Option Bool :=
  match ival with
  | .set _ => some true
  | .topItv (some min) (some startMax) r m => do
    let max := startMax + size - 1
    let offsets ← (TrOffset.trimByValidity sc (.topItv (some min) (some startMax) r m) size (.known min max)).toOption
    some (!updateAuxTrOffsetsApproximates plevel offsets size)
  | .topItv _ _ _ _ => some false

def fromIvalSizeUnder (plevel : ℤ) (sc : ℕ) (ival : Ival) : IntBase → Option IntIntervals
  | .top => some .bottom
  | .value size => do
    if ← isPrecise plevel sc ival size then fromIvalSizeAux plevel sc ival size else some .bottom

def accessed (S : Set ℤ) (size : ℤ) : Set ℤ := {b | ∃ x ∈ S, x ≤ b ∧ b ≤ x + size - 1}

section Accesses
variable {lo hi o size : ℤ} {m : Offsetmap Bool}

theorem updateItv_bits (offset absMax : ℤ) (h : Canon lo hi o m) (hlo : lo ≤ offset) (hle : offset ≤ absMax)
    (hhi : absMax ≤ hi) (hsize : size ≠ 0) :
    ∃ o' m', updateItv true offset absMax size true o m = some (o',m') ∧ Canon lo hi o' m' ∧
      bits (o',m') = bits (o,m) ∪ Set.Icc offset absMax := by
  obtain ⟨o',m',h1,h2,h3⟩ := updateItvWithRem_spec (v := true) h hlo hle hhi hsize
    (.inl rfl : OffsetmapLattice.isIsotropic true = true ∨ (0 : ℤ) ≤ 0 ∧ 0 < size) true
  refine ⟨o',m',h1,h2,?_⟩
  have hleft : Tiles lo (offset - 1) (clip lo (offset - 1) (segs o m)) :=
    h.1.tiles.clip le_rfl (by omega) (by omega)
  have hnew : Tiles (offset - 1 + 1) absMax [newSeg offset absMax 0 size true] :=
    ⟨by simp,by simpa using hle,by simp [Tiles]⟩
  have hright : Tiles (absMax + 1) hi (clip (absMax + 1) hi (segs o m)) :=
    h.1.tiles.clip (by omega) le_rfl (by omega)
  have hok : ∀ s ∈ clip lo (offset - 1) (segs o m) ++ [newSeg offset absMax 0 size true] ++
      clip (absMax + 1) hi (segs o m), s.Ok := by
    refine List.forall_mem_append.mpr ⟨List.forall_mem_append.mpr ⟨clip_ok h.2.1,?_⟩,clip_ok h.2.1⟩
    exact List.forall_mem_singleton.mpr (newSeg_ok (.inl rfl))
  ext b
  rw [bits,Set.mem_ofPred_eq,h3]
  rw [show updatedSegs true offset absMax size 0 true (segs o m) = [newSeg offset absMax 0 size true] from rfl]
  rw [hasVal_glueList ((hleft.append hnew).append hright) hok,hasVal_append,hasVal_append,hasVal_clip,hasVal_clip,
    hasVal_cons,newSeg_lo,newSeg_hi]
  constructor
  · rintro ((⟨-,-,hb⟩ | hb | hb) | ⟨-,-,hb⟩)
    · exact .inl hb
    · exact .inr ⟨hb.1,hb.2.1⟩
    · exact absurd hb hasVal_nil
    · exact .inl hb
  · rintro (hb | ⟨hb1,hb2⟩)
    · obtain ⟨hb1,hb2⟩ := bits_subset (t := (o,m)) h hb
      rcases lt_or_ge b offset with hlt | hge
      · exact .inl (.inl ⟨hb1,by omega,hb⟩)
      rcases lt_or_ge absMax b with hlt | hge'
      · exact .inr ⟨by omega,hb2,hb⟩
      · exact .inl (.inr (.inl ⟨hge,hge',by simp⟩))
    · exact .inl (.inr (.inl ⟨hb1,hb2,by simp⟩))

theorem foldlM_updateItv {s : List ℤ} (h : Canon lo hi o m) (hsize : 1 ≤ size)
    (hs : ∀ x ∈ s, lo ≤ x ∧ x + size - 1 ≤ hi) :
    ∃ r : Itvs, s.foldlM (fun (t : ℤ × Offsetmap Bool) offset =>
        updateItv true offset (offset + size - 1) size true t.1 t.2) (o,m) = some r ∧ Canon lo hi r.1 r.2 ∧
      bits r = bits (o,m) ∪ accessed {x | x ∈ s} size := by
  induction s generalizing o m with
  | nil => exact ⟨(o,m),rfl,h,by simp [accessed]⟩
  | cons x s ih =>
    obtain ⟨hx,hs⟩ := List.forall_mem_cons.mp hs
    obtain ⟨o1,m1,h1,h2,h3⟩ := updateItv_bits x (x + size - 1) h hx.1 (by omega) hx.2 (show size ≠ 0 by omega)
    obtain ⟨r,k1,k2,k3⟩ := ih h2 hs
    refine ⟨r,?_,k2,?_⟩
    · rw [List.foldlM_cons,h1]
      exact k1
    · rw [k3,h3,Set.union_assoc]
      congr 1
      ext b
      simp only [accessed,Set.mem_union,Set.mem_Icc,Set.mem_ofPred_eq,List.mem_cons,exists_eq_or_imp]

theorem updateSeries_bits (fuel : ℕ) {max period offset : ℤ} (h : Canon lo (max + size - 1) o m) (hsize : 1 ≤ size)
    (hperiod : 1 ≤ period) (hlo : lo ≤ offset) (hfuel : max - offset + 2 ≤ fuel) (hpos : 1 ≤ fuel) :
    ∃ r : Itvs, updateSeries true max period size true fuel offset o m = some r ∧
      Canon lo (max + size - 1) r.1 r.2 ∧
      bits r = bits (o,m) ∪ accessed (Progression.prog (some offset) (some max) (offset % period) period) size := by
  induction fuel generalizing offset o m with
  | zero => omega
  | succ fuel ih =>
    rw [updateSeries]
    split
    · rename_i hle
      obtain ⟨o1,m1,h1,h2,h3⟩ := updateItv_bits offset (size + offset - 1) h hlo (by omega) (by omega)
        (show size ≠ 0 by omega)
      obtain ⟨r,k1,k2,k3⟩ := ih h2 (show lo ≤ offset + period by omega) (by omega) (by omega)
      refine ⟨r,by rw [h1]; exact k1,k2,?_⟩
      rw [k3,h3,Set.union_assoc,Int.add_emod_right]
      congr 1
      ext b
      constructor
      · rintro (⟨hb1,hb2⟩ | ⟨x,hx,hb1,hb2⟩)
        · refine ⟨offset,?_,hb1,by omega⟩
          simp only [Progression.mem_prog,Option.mem_some_iff]
          exact ⟨trivial,by rintro _ rfl; exact le_rfl,by rintro _ rfl; exact hle⟩
        · obtain ⟨e1,e2,e3⟩ := hx
          have hx2 := e2 _ rfl
          exact ⟨x,⟨e1,by rintro _ ⟨⟩; omega,e3⟩,hb1,hb2⟩
      · rintro ⟨x,⟨e1,e2,e3⟩,hb1,hb2⟩
        have hx2 := e2 _ rfl
        rcases eq_or_lt_of_le hx2 with rfl | hlt
        · exact .inl ⟨hb1,by omega⟩
        · -- the next offset of the class is at least one period away
          obtain ⟨k,hk⟩ := Progression.dvd_sub_of_emod_eq e1
          have hk1 : 1 ≤ k := by
            by_contra hk0
            have : period * k ≤ 0 := mul_nonpos_of_nonneg_of_nonpos (by omega) (by omega)
            omega
          have : period ≤ period * k := le_mul_of_one_le_right (by omega) hk1
          exact .inr ⟨x,⟨e1,by rintro _ ⟨⟩; omega,e3⟩,hb1,hb2⟩
    · rename_i hgt
      refine ⟨(o,m),rfl,h,?_⟩
      have hempty : accessed (Progression.prog (some offset) (some max) (offset % period) period) size = ∅ := by
        rw [Set.eq_empty_iff_forall_notMem]
        rintro b ⟨x,⟨-,e2,e3⟩,-,-⟩
        have hx2 := e2 _ rfl
        have hx3 := e3 _ rfl
        omega
      rw [hempty,Set.union_empty]

theorem accessed_prog {mn mx r period : ℤ} (h : Progression.Reduced (some mn) (some mx) r period) (hle : mn ≤ mx)
    (hp : period ≤ size) :
    accessed (Progression.prog (some mn) (some mx) r period) size = Set.Icc mn (mx + size - 1) := by
  obtain ⟨hpos,-,-,hmn,hmx⟩ := h
  have hmn := hmn mn rfl
  have hmx := hmx mx rfl
  ext b
  constructor
  · rintro ⟨x,⟨-,e2,e3⟩,hb1,hb2⟩
    have hx2 := e2 _ rfl
    have hx3 := e3 _ rfl
    exact ⟨by omega,by omega⟩
  · rintro ⟨hb1,hb2⟩
    rcases le_or_gt b mx with hb | hb
    · have hmod : 0 ≤ (b - mn) % period := Int.emod_nonneg _ (by omega)
      have hlt : (b - mn) % period < period := Int.emod_lt_of_pos _ (by omega)
      have hself : (b - mn) % period ≤ b - mn := by
        have hdiv := Int.emod_add_mul_ediv (b - mn) period
        have hnonneg : 0 ≤ period * ((b - mn) / period) :=
          mul_nonneg (by omega) (Int.ediv_nonneg (by omega) (by omega))
        omega
      refine ⟨b - (b - mn) % period,⟨?_,?_,?_⟩,by omega,by omega⟩
      · rw [← hmn,Int.emod_eq_emod_iff_emod_sub_eq_zero]
        rw [show b - (b - mn) % period - mn = b - mn - (b - mn) % period by ring]
        exact Int.emod_eq_zero_of_dvd (Int.dvd_self_sub_emod)
      · rintro _ ⟨⟩
        omega
      · rintro _ ⟨⟩
        omega
    · refine ⟨mx,⟨hmx,?_,?_⟩,by omega,hb2⟩
      · rintro _ ⟨⟩
        exact hle
      · rintro _ ⟨⟩
        exact le_rfl

theorem bits_false (mn span : ℤ) : bits (mn,intervalAux span 0 1 false) = ∅ := by
  rw [Set.eq_empty_iff_forall_notMem]
  exact fun b hb => absurd (hasVal_single rfl hb) (by simp)

theorem updateItvs_false {mn mx period : ℤ} (hle : mn ≤ mx) (hsize : 1 ≤ size) (hperiod : 1 ≤ period)
    (hclass : mx % period = mn % period) :
    ∃ r : Itvs, updateItvs true mn mx period size true mn (intervalAux (mx + size - 1 - mn) 0 1 false) = some r ∧
      Canon mn (mx + size - 1) r.1 r.2 ∧
      bits r = accessed (Progression.prog (some mn) (some mx) (mn % period) period) size := by
  obtain ⟨hc,hs⟩ := intervalAux_spec (show mn ≤ mx + size - 1 by omega) falseAligned
  have haux : updateItvs true mn mx period size true mn (intervalAux (mx + size - 1 - mn) 0 1 false) =
      if size = period then
        updateItv true mn (size + mx - 1) size true mn (intervalAux (mx + size - 1 - mn) 0 1 false)
      else updateSeries true mx period size true ((mx - mn).toNat + 2) mn mn
        (intervalAux (mx + size - 1 - mn) 0 1 false) := by
    have hl : undoneLeft (mn % period) mn mx period size mn = none := if_neg (by omega)
    have hr : undoneRight (mn % period) mn mx period (mn + (mx + size - 1 - mn)) = none := if_neg (by omega)
    rw [updateItvs,if_pos hle,intervalAux,updateItvsAux]
    dsimp only
    rw [hl,hr]
    simp only [Option.bind_eq_bind,Option.bind_some,addNode,add_sub_cancel_left]
    rfl
  rw [haux]
  split
  · rename_i he
    subst he
    obtain ⟨o',m',h1,h2,h3⟩ := updateItv_bits mn (size + mx - 1) hc le_rfl (by omega) (by omega) (show size ≠ 0 by omega)
    refine ⟨(o',m'),h1,h2,?_⟩
    have hred : Progression.Reduced (some mn) (some mx) (mn % size) size :=
      ⟨hperiod,Int.emod_nonneg _ (by omega),Int.emod_lt_of_pos _ (by omega),by rintro _ ⟨⟩; rfl,
        by rintro _ ⟨⟩; exact hclass⟩
    rw [h3,bits_false,Set.empty_union,accessed_prog hred hle le_rfl,add_comm]
  · obtain ⟨r,h1,h2,h3⟩ := updateSeries_bits ((mx - mn).toNat + 2) hc hsize hperiod le_rfl
      (by push_cast; omega) (by omega)
    exact ⟨r,h1,h2,by rw [h3,bits_false,Set.empty_union]⟩

theorem trimByValidity_self {sc : ℕ} (hsc : 2 ≤ sc) {ival : Ival} (h : Ival.Wf sc ival) {mn mx : ℤ} (hsize : 1 ≤ size)
    (hin : Ival.concr ival ⊆ Set.Icc mn mx) :
    TrOffset.trimByValidity sc ival size (.known mn (mx + size - 1)) =
      match ival with
      | .set s => .ok (if s = [] then .invalid else .set s)
      | .topItv (some min) (some max) _ modu =>
        .ok (if modu < size then .overlap min (max + (size - 1)) else .interval min max modu)
      | .topItv _ _ _ _ => .error .invalidArgument := by
  obtain ⟨range,h1,h2,h3⟩ := Ival.injectRange_spec hsc (some mn) (some (mx + size - 1 - (size - 1)))
  obtain ⟨red,h4,h5,h6⟩ := Ival.narrow_spec hsc h h2
  have hred : red = ival := by
    apply Ival.eq_of_concr_eq hsc h5 h
    rw [h6]
    apply Set.inter_eq_left.mpr
    intro x hx
    obtain ⟨hx1,hx2⟩ := hin hx
    rw [h3,Progression.mem_prog]
    refine ⟨Int.emod_one x,?_,?_⟩
    · rintro _ ⟨⟩
      exact hx1
    · rintro _ ⟨⟩
      omega
  rw [TrOffset.trimByValidity,TrOffset.reduceForBounds,if_neg (by omega)]
  dsimp only
  rw [h1,Res.ok_bind,h4,Res.ok_bind,hred]
  cases ival with
  | set s => rfl
  | topItv min max r modu =>
    cases min with
    | none => rfl
    | some min =>
      cases max with
      | none => rfl
      | some max => rfl

theorem accessed_zero (S : Set ℤ) : accessed S 0 = ∅ := by
  rw [Set.eq_empty_iff_forall_notMem]
  rintro b ⟨x,-,hb1,hb2⟩
  omega

theorem auxMinMax_spec {plevel : ℤ} {sc : ℕ} {ival : Ival} {mn mx : ℤ} {offsets : TrOffset} {r : Itvs} {S : Set ℤ}
    (hsize : 1 ≤ size) (hmn : mn ∈ S) (hmx : mx ∈ S)
    (htrim : TrOffset.trimByValidity sc ival size (.known mn (mx + size - 1)) = .ok offsets)
    (hup : updateAuxTrOffsets plevel true offsets size true mn (intervalAux (mx + size - 1 - mn) 0 1 false) =
      some (.value r)) (hc : Canon mn (mx + size - 1) r.1 r.2) (hb : bits r = accessed S size) :
    ∃ i, auxMinMax plevel sc ival size mn mx = some i ∧ Wf i ∧ i ≠ .top ∧ concr i = accessed S size := by
  refine ⟨.intervals r.1 r.2 mn (mx + size - 1),?_,⟨hc,?_,?_⟩,by simp,hb⟩
  · have haux : updateAux plevel sc (.known mn (mx + size - 1)) true ival size true mn
        (intervalAux (mx + size - 1 - mn) 0 1 false) = some (.value r) := by
      rw [updateAux,htrim]
      exact hup
    rw [auxMinMax,if_neg (by omega)]
    dsimp only
    rw [show auxCreateInterval mn (mx + size - 1) false = (mn,intervalAux (mx + size - 1 - mn) 0 1 false) from rfl]
    dsimp only
    rw [haux]
  · rw [show ((r.1,r.2) : Itvs) = r from rfl,hb]
    exact ⟨mn,hmn,le_rfl,by omega⟩
  · rw [show ((r.1,r.2) : Itvs) = r from rfl,hb]
    exact ⟨mx,hmx,by omega,le_rfl⟩

theorem auxMinMax_set {plevel : ℤ} {sc : ℕ} (hsc : 2 ≤ sc) {s : List ℤ} (h : Ival.Wf sc (.set s)) (hne : s ≠ [])
    (hsize : 1 ≤ size) : ∃ i, auxMinMax plevel sc (.set s) size (s.headD 0) (s.getLastD 0) = some i ∧ Wf i ∧ i ≠ .top ∧
      concr i = accessed {x | x ∈ s} size := by
  have hin : Ival.concr (.set s) ⊆ Set.Icc (s.headD 0) (s.getLastD 0) :=
    fun x hx => ⟨Ival.head_le_of_pairwise h.1 hx,Ival.le_last_of_pairwise h.1 hx⟩
  have hle := Ival.head_le_of_pairwise h.1 (Ival.getLastD_mem hne)
  obtain ⟨hc,-⟩ := intervalAux_spec (show s.headD 0 ≤ s.getLastD 0 + size - 1 by omega) falseAligned
  have hs : ∀ x ∈ s, s.headD 0 ≤ x ∧ x + size - 1 ≤ s.getLastD 0 + size - 1 := by
    intro x hx
    obtain ⟨hx1,hx2⟩ := hin hx
    exact ⟨hx1,by omega⟩
  obtain ⟨r,h1,h2,h3⟩ := foldlM_updateItv hc hsize hs
  refine auxMinMax_spec hsize (Ival.headD_mem hne) (Ival.getLastD_mem hne) (trimByValidity_self hsc h hsize hin) ?_ h2 ?_
  · rw [if_neg hne,updateAuxTrOffsets]
    dsimp only
    rw [h1]
    rfl
  · rw [h3,bits_false,Set.empty_union]

theorem auxMinMax_topItv {plevel : ℤ} {sc : ℕ} (hsc : 2 ≤ sc) {mn mx r modu : ℤ}
    (h : Ival.Wf sc (.topItv (some mn) (some mx) r modu)) (hsize : 1 ≤ size)
    (hp : isPrecise plevel sc (.topItv (some mn) (some mx) r modu) size = some true) :
    ∃ i, auxMinMax plevel sc (.topItv (some mn) (some mx) r modu) size mn mx = some i ∧ Wf i ∧ i ≠ .top ∧
      concr i = accessed (Progression.prog (some mn) (some mx) r modu) size := by
  obtain ⟨hred,hlong⟩ := Ival.wf_topItv_iff.mp h
  have hle : mn ≤ mx := hlong.le hred.pos rfl rfl
  have hin : Ival.concr (.topItv (some mn) (some mx) r modu) ⊆ Set.Icc mn mx :=
    fun x hx => ⟨hx.2.1 mn rfl,hx.2.2 mx rfl⟩
  have hmn : mn ∈ Progression.prog (some mn) (some mx) r modu := hred.lower_mem (by rintro _ ⟨⟩; exact hle)
  have hmx : mx ∈ Progression.prog (some mn) (some mx) r modu := hred.upper_mem (by rintro _ ⟨⟩; exact hle)
  have htrim := trimByValidity_self hsc h hsize hin
  dsimp only at htrim
  obtain ⟨hc,-⟩ := intervalAux_spec (show mn ≤ mx + size - 1 by omega) falseAligned
  by_cases hm : modu < size
  · -- the accesses overlap
    rw [if_pos hm] at htrim
    obtain ⟨o',m',h1,h2,h3⟩ := updateItv_bits mn (mx + (size - 1)) hc le_rfl (by omega) (by omega) one_ne_zero
    refine auxMinMax_spec (r := (o',m')) hsize hmn hmx htrim ?_ h2 ?_
    · rw [updateAuxTrOffsets]
      exact congrArg (Option.map OrBottom.value) h1
    · rw [h3,bits_false,Set.empty_union,accessed_prog hred hle hm.le,add_sub_assoc]
  · rw [if_neg hm] at htrim
    obtain rfl : mn % modu = r := hred.lower mn rfl
    obtain ⟨t,h1,h2,h3⟩ := updateItvs_false hle hsize hred.pos (hred.upper mx rfl)
    refine auxMinMax_spec hsize hmn hmx htrim ?_ h2 h3
    have hnum : (mx - mn) / modu + 1 ≤ plevel ∨ modu = size := by
      rw [isPrecise] at hp
      simp only [htrim,Except.toOption,Option.bind_eq_bind,Option.bind_some,updateAuxTrOffsetsApproximates] at hp
      by_contra hn
      rw [if_neg hn] at hp
      simp at hp
    rw [updateAuxTrOffsets]
    dsimp only
    rw [if_pos (show modu ≥ size by omega),if_pos hnum,h1]
    rfl

theorem fromIvalSizeAux_spec {plevel : ℤ} {sc : ℕ} (hsc : 2 ≤ sc) {ival : Ival} (h : Ival.Wf sc ival) (hsize : 0 ≤ size)
    (hp : isPrecise plevel sc ival size = some true) :
    ∃ i, fromIvalSizeAux plevel sc ival size = some i ∧ Wf i ∧ i ≠ .top ∧
      concr i = accessed (Ival.concr ival) size := by
  have hzero : size = 0 → ∀ mn mx, ∃ i, auxMinMax plevel sc ival size mn mx = some i ∧ Wf i ∧ i ≠ .top ∧
      concr i = accessed (Ival.concr ival) size := by
    rintro rfl mn mx
    exact ⟨.bottom,if_pos rfl,trivial,by simp,(accessed_zero _).symm⟩
  cases ival with
  | set s =>
    rw [fromIvalSizeAux]
    by_cases hne : s = []
    · subst hne
      refine ⟨.bottom,rfl,trivial,by simp,(Set.eq_empty_iff_forall_notMem.mpr ?_).symm⟩
      rintro b ⟨x,hx,-⟩
      exact absurd hx List.not_mem_nil
    · rw [if_pos (List.length_pos_iff.mpr hne)]
      rcases hsize.eq_or_lt with hz | hpos
      · exact hzero hz.symm _ _
      · exact auxMinMax_set hsc h hne hpos
  | topItv mn mx r modu =>
    cases mn with
    | none => simp [isPrecise] at hp
    | some mn =>
      cases mx with
      | none => simp [isPrecise] at hp
      | some mx =>
        rcases hsize.eq_or_lt with hz | hpos
        · exact hzero hz.symm _ _
        · exact auxMinMax_topItv hsc h hpos hp

end Accesses
/-- The values that are built without approximation. -/
inductive Built : IntIntervals → Prop
  | bottom : Built .bottom
  | injectBounds (min max : ℤ) : Built (injectBounds min max)
  | inject {l : List (ℤ × ℤ)} {r : IntIntervals} (h : inject l = some r) : Built r
  | fromIvalSize {plevel : ℤ} {sc : ℕ} {ival : Ival} {size : ℤ} {r : IntIntervals} (hsc : 2 ≤ sc)
    (hival : Ival.Wf sc ival) (hsize : 0 ≤ size) (hp : isPrecise plevel sc ival size = some true)
    (h : fromIvalSize plevel sc ival (.value size) = some r) : Built r
  | join {i1 i2 r : IntIntervals} (h1 : Built i1) (h2 : Built i2) (h : join i1 i2 = some r) : Built r
  | narrow {i1 i2 r : IntIntervals} (h1 : Built i1) (h2 : Built i2) (h : narrow i1 i2 = some r) : Built r
  | diff {i1 i2 r : IntIntervals} (h1 : Built i1) (h2 : Built i2) (h : diff i1 i2 = some r) : Built r

/-- Not top; a map is non-empty, has its bounds bound to true and begins and ends with intervals
bound to true. -/
def Normal : IntIntervals → Prop
  | .top => False
  | .bottom => True
  | .intervals co m min max => WellFormed co m ∧ (bits (co,m)).Nonempty ∧ IsLeast (bits (co,m)) min ∧
    IsGreatest (bits (co,m)) max ∧ (∀ s ∈ (segs co m).head?, s.v = true) ∧ ∀ s ∈ (segs co m).getLast?, s.v = true

section Algebra
variable {i i1 i2 r : IntIntervals}

theorem ne_top_of_subset (h : Wf i) (hne : i ≠ .top) (hsub : concr r ⊆ concr i) : r ≠ .top := by
  rintro rfl
  exact hne (eq_of_concr_eq h trivial (Set.univ_subset_iff.mp hsub))

theorem Built.wf (h : Built i) : Wf i ∧ i ≠ .top := by
  induction h with
  | bottom => exact ⟨trivial,by simp⟩
  | injectBounds min max =>
    obtain ⟨h1,h2,-⟩ := injectBounds_spec min max
    exact ⟨h1,h2⟩
  | @inject l r h =>
    obtain ⟨r',h1,h2,h3,-⟩ := inject_spec l
    obtain rfl := Option.some.inj (h.symm.trans h1)
    exact ⟨h2,h3⟩
  | fromIvalSize hsc hival hsize hp h =>
    obtain ⟨r',h1,h2,h3,-⟩ := fromIvalSizeAux_spec hsc hival hsize hp
    obtain rfl := Option.some.inj (h.symm.trans h1)
    exact ⟨h2,h3⟩
  | join h1 h2 h ih1 ih2 =>
    obtain ⟨r',e1,e2,-⟩ := join_spec ih1.1 ih2.1
    obtain rfl := Option.some.inj (h.symm.trans e1)
    exact ⟨e2,join_ne_top ih1.2 ih2.2 h⟩
  | narrow h1 h2 h ih1 ih2 =>
    obtain ⟨r',e1,e2,e3⟩ := narrow_spec ih1.1 ih2.1
    obtain rfl := Option.some.inj (h.symm.trans e1)
    exact ⟨e2,ne_top_of_subset ih1.1 ih1.2 (e3 ▸ Set.inter_subset_left)⟩
  | diff h1 h2 h ih1 ih2 =>
    obtain ⟨r',e1,e2,e3⟩ := diff_spec ih1.1 ih2.1 ih1.2
    obtain rfl := Option.some.inj (h.symm.trans e1)
    exact ⟨e2,ne_top_of_subset ih1.1 ih1.2 (e3 ▸ Set.sdiff_subset)⟩

theorem Built.normal (h : Built i) : Normal i := by
  obtain ⟨hwf,hne⟩ := h.wf
  cases i with
  | top => exact hne rfl
  | bottom => trivial
  | intervals co m min max =>
    obtain ⟨hmin,hmax⟩ := hwf.isLeast_isGreatest
    have htiles := hwf.1.1.tiles
    refine ⟨(spanning_iff_canon.mpr hwf.1).1,⟨min,hmin.1⟩,hmin,hmax,?_,?_⟩
    · intro s hs
      obtain ⟨l,hl⟩ := List.head?_eq_some_iff.mp hs
      rw [hl] at htiles
      have hval : HasVal (segs co m) min s.v := by
        rw [hl]
        obtain ⟨e1,e2,-⟩ := htiles
        exact hasVal_cons.mpr (.inl ⟨by omega,by omega,rfl⟩)
      exact ((mem_bits_iff (t := (co,m)) hwf.1 hval).mp hmin.1)
    · intro s hs
      obtain ⟨l,hl⟩ := List.getLast?_eq_some_iff.mp hs
      rw [hl] at htiles
      have hval : HasVal (segs co m) max s.v := by
        obtain ⟨k,-,e1,e2,e3⟩ := htiles.split
        have e3 : max = s.hi + 1 - 1 := e3
        rw [hl]
        exact hasVal_append.mpr (.inr (hasVal_cons.mpr (.inl ⟨by omega,by omega,rfl⟩)))
      exact ((mem_bits_iff (t := (co,m)) hwf.1 hval).mp hmax.1)

end Algebra

/-- Sets of intervals are an exact algebra of sets of integers, with one representation for each
set. -/
theorem exact_algebra :
    (∀ min max, concr (injectBounds min max) = Set.Icc min max) ∧
    (∀ l, ∃ r, inject l = some r ∧ concr r = {b | ∃ itv ∈ l, itv.1 ≤ b ∧ b ≤ itv.2}) ∧
    (∀ (plevel : ℤ) (sc : ℕ) (ival : Ival) (size : ℤ), 2 ≤ sc → Ival.Wf sc ival → 0 ≤ size →
      isPrecise plevel sc ival size = some true → ∃ r, fromIvalSize plevel sc ival (.value size) = some r ∧
        concr r = accessed (Ival.concr ival) size) ∧
    (∀ i, Built i → Normal i) ∧
    ∀ i1 i2, Built i1 → Built i2 →
      (∃ r, join i1 i2 = some r ∧ Built r ∧ concr r = concr i1 ∪ concr i2) ∧
      (∃ r, narrow i1 i2 = some r ∧ Built r ∧ concr r = concr i1 ∩ concr i2) ∧
      (∃ r, meet i1 i2 = some r ∧ Built r ∧ concr r = concr i1 ∩ concr i2) ∧
      (∃ r, diff i1 i2 = some r ∧ Built r ∧ concr r = concr i1 \ concr i2) ∧
      (isIncluded i1 i2 = true ↔ concr i1 ⊆ concr i2) ∧
      (intersects i1 i2 = true ↔ (concr i1 ∩ concr i2).Nonempty) ∧
      (concr i1 = concr i2 → i1 = i2) := by
  refine ⟨fun min max => (injectBounds_spec min max).2.2,?_,?_,fun i h => h.normal,?_⟩
  · intro l
    obtain ⟨r,h1,-,-,h4⟩ := inject_spec l
    exact ⟨r,h1,h4⟩
  · intro plevel sc ival size hsc hival hsize hp
    obtain ⟨r,h1,-,-,h4⟩ := fromIvalSizeAux_spec hsc hival hsize hp
    exact ⟨r,h1,h4⟩
  · intro i1 i2 h1 h2
    obtain ⟨hwf1,hne1⟩ := h1.wf
    obtain ⟨hwf2,hne2⟩ := h2.wf
    obtain ⟨r1,j1,-,j3⟩ := join_spec hwf1 hwf2
    obtain ⟨r2,n1,-,n3⟩ := narrow_spec hwf1 hwf2
    obtain ⟨r3,d1,-,d3⟩ := diff_spec hwf1 hwf2 hne1
    exact ⟨⟨r1,j1,.join h1 h2 j1,j3⟩,⟨r2,n1,.narrow h1 h2 n1,n3⟩,⟨r2,n1,.narrow h1 h2 n1,n3⟩,
      ⟨r3,d1,.diff h1 h2 d1,d3⟩,isIncluded_spec hwf1 hwf2,intersects_spec hwf1 hwf2,eq_of_concr_eq hwf1 hwf2⟩

theorem exact_algebra_nested : ∃ r, diff (injectBounds (-3) 4) (injectBounds 0 0) = some r ∧ Normal r ∧
    concr r = Set.Icc (-3) 4 \ Set.Icc 0 0 := by
  obtain ⟨hbounds,-,-,hnormal,hops⟩ := exact_algebra
  obtain ⟨-,-,-,⟨r,h1,h2,h3⟩,-⟩ := hops _ _ (.injectBounds (-3) 4) (.injectBounds 0 0)
  exact ⟨r,h1,hnormal r h2,by rw [h3,hbounds,hbounds]⟩

end IntIntervals
end FramaC

/-! ## Both conversions of offsets and sizes

The conversion that approximates writes one interval over the whole range. The predicate that the under-approximation tests
is false exactly when nothing is approximated, and then the two conversions are the same.
-/
namespace FramaC.IntIntervals
open Offsetmap IntIntervalsMap

section Conversions
variable {lo hi o size mn mx absMax plevel : ℤ} {sc : ℕ} {m : Offsetmap Bool} {ival : Ival}

theorem updateItv_weak_bits (h : Canon lo hi o m) (hlo : lo ≤ mn) (hle : mn ≤ absMax) (hhi : absMax ≤ hi) (hsize : size ≠ 0) :
    ∃ o' m', updateItv false mn absMax size true o m = some (o',m') ∧ Canon lo hi o' m' ∧
      Set.Icc mn absMax ⊆ bits (o',m') := by
  obtain ⟨o',m',h1,h2,h3⟩ := updateItvWithRem_bindings (v := true) h hlo hle hhi hsize
    (.inl rfl : OffsetmapLattice.isIsotropic true = true ∨ (0 : ℤ) ≤ 0 ∧ 0 < size) false
  refine ⟨o',m',h1,h2,?_⟩
  rintro b ⟨hb1,hb2⟩
  obtain ⟨x,hx⟩ := bindingAt_isSome h (by omega) (by omega : b ≤ hi)
  have hb := h3 b
  rw [hx,Option.map_some,if_pos ⟨hb1,hb2⟩] at hb
  have htrue : (x.write false true size ((b - (mn + 0)) % size)).value = true := by
    have hjoin : OffsetmapLattice.join x.value true = true := Bool.or_true _
    have hiso : OffsetmapLattice.isIsotropic true = true := rfl
    rw [Binding.write,if_neg Bool.false_ne_true,hiso,Bool.true_or,if_pos rfl,hjoin]
    rfl
  have hval := hasVal_of_bindings hb
  rw [htrue] at hval
  exact hval

theorem auxMinMax_covers (hsc : 2 ≤ sc) {r modu : ℤ} (h : Ival.Wf sc (.topItv (some mn) (some mx) r modu)) (hsize : 1 ≤ size)
    (hp : isPrecise plevel sc (.topItv (some mn) (some mx) r modu) size ≠ some true) :
    isPrecise plevel sc (.topItv (some mn) (some mx) r modu) size = some false ∧
    ∃ i, auxMinMax plevel sc (.topItv (some mn) (some mx) r modu) size mn mx = some i ∧
      accessed (Ival.concr (.topItv (some mn) (some mx) r modu)) size ⊆ concr i := by
  obtain ⟨hred,hlong⟩ := Ival.wf_topItv_iff.mp h
  have hle : mn ≤ mx := hlong.le hred.pos rfl rfl
  have hin : Ival.concr (.topItv (some mn) (some mx) r modu) ⊆ Set.Icc mn mx :=
    fun x hx => ⟨hx.2.1 mn rfl,hx.2.2 mx rfl⟩
  have htrim := trimByValidity_self hsc h hsize hin
  dsimp only at htrim
  rw [isPrecise] at hp ⊢
  simp only [htrim,Except.toOption,Option.bind_eq_bind,Option.bind_some] at hp ⊢
  by_cases hm : modu < size
  · simp [hm,updateAuxTrOffsetsApproximates] at hp
  rw [if_neg hm] at htrim hp ⊢
  rw [updateAuxTrOffsetsApproximates] at hp ⊢
  have hnum : ¬ ((mx - mn) / modu + 1 ≤ plevel ∨ modu = size) := by
    intro hn
    simp only [if_pos hn,Bool.not_false,ne_eq,not_true_eq_false] at hp
  simp only [if_neg hnum,Bool.not_true,true_and]
  obtain ⟨hc,-⟩ := intervalAux_spec (show mn ≤ mx + size - 1 by omega) falseAligned
  obtain ⟨o',m',h1,h2,h3⟩ := updateItv_weak_bits hc le_rfl (by omega) le_rfl (show size ≠ 0 by omega)
  refine ⟨.intervals o' m' mn (mx + size - 1),?_,?_⟩
  · have hv : (if modu % size = 0 then OffsetmapLattice.anisotropicCast size true else
        OffsetmapLattice.topifyWithOrigin .misalignRead (OffsetmapLattice.anisotropicCast size true)) = true := ite_self true
    have haux : updateAux plevel sc (.known mn (mx + size - 1)) true (.topItv (some mn) (some mx) r modu) size true mn
        (intervalAux (mx + size - 1 - mn) 0 1 false) = some (.value (o',m')) := by
      rw [updateAux,htrim]
      simp only [Except.toOption,Option.bind_eq_bind,Option.bind_some,updateAuxTrOffsets]
      rw [if_pos (show modu ≥ size by omega),if_neg hnum,hv]
      exact congrArg (Option.map OrBottom.value) h1
    rw [auxMinMax,if_neg (by omega)]
    dsimp only
    rw [show auxCreateInterval mn (mx + size - 1) false = (mn,intervalAux (mx + size - 1 - mn) 0 1 false) from rfl]
    dsimp only
    rw [haux]
  · rintro b ⟨x,hx,hb1,hb2⟩
    obtain ⟨hx1,hx2⟩ := hin hx
    exact h3 ⟨by omega,by omega⟩

/-- The two conversions enclose the accessed bits, and are the same as soon as the second one is not bottom. -/
theorem fromIvalSize_over_under (hsc : 2 ≤ sc) (h : Ival.Wf sc ival) (hsize : 0 ≤ size) (plevel : ℤ) :
    ∃ i u, fromIvalSize plevel sc ival (.value size) = some i ∧
      fromIvalSizeUnder plevel sc ival (.value size) = some u ∧
      accessed (Ival.concr ival) size ⊆ concr i ∧ concr u ⊆ accessed (Ival.concr ival) size ∧
      (u ≠ .bottom → u = i) := by
  by_cases hp : isPrecise plevel sc ival size = some true
  · obtain ⟨i,h1,-,-,h4⟩ := fromIvalSizeAux_spec hsc h hsize hp
    refine ⟨i,i,h1,?_,h4.superset,h4.subset,fun _ => rfl⟩
    rw [fromIvalSizeUnder,hp]
    exact h1
  · -- the under-approximation is bottom
    have hbottom : isPrecise plevel sc ival size = some false → fromIvalSizeUnder plevel sc ival (.value size) = some .bottom := by
      intro hf
      rw [fromIvalSizeUnder,hf]
      rfl
    cases ival with
    | set s => exact absurd rfl hp
    | topItv mn mx r modu =>
      cases mn with
      | none => exact ⟨.top,.bottom,rfl,hbottom rfl,Set.subset_univ _,Set.empty_subset _,fun hne => absurd rfl hne⟩
      | some mn =>
        cases mx with
        | none => exact ⟨.top,.bottom,rfl,hbottom rfl,Set.subset_univ _,Set.empty_subset _,fun hne => absurd rfl hne⟩
        | some mx =>
          rcases hsize.eq_or_lt with hz | hpos
          · subst hz
            exact absurd rfl hp
          · obtain ⟨hf,i,h1,h2⟩ := auxMinMax_covers hsc h hpos hp
            exact ⟨i,.bottom,h1,hbottom hf,h2,Set.empty_subset _,fun hne => absurd rfl hne⟩

theorem fromIvalSize_over_under_strided : ∃ i u,
    fromIvalSize 2 8 (.topItv (some 0) (some 320) 0 32) (.value 8) = some i ∧
    fromIvalSizeUnder 2 8 (.topItv (some 0) (some 320) 0 32) (.value 8) = some u ∧
    accessed (Ival.concr (.topItv (some 0) (some 320) 0 32)) 8 ⊆ concr i ∧
    concr u ⊆ accessed (Ival.concr (.topItv (some 0) (some 320) 0 32)) 8 ∧ (u ≠ .bottom → u = i) :=
  fromIvalSize_over_under (by omega) (Ival.wf_topItv_iff.mpr ⟨⟨by omega,by omega,by omega,by simp,by simp⟩,by simp [Progression.Long]⟩) (by omega) 2

end Conversions

end FramaC.IntIntervals
