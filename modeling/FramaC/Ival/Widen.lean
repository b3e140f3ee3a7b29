import FramaC.Ival.Lattice

/-! # Widening of integer ivals

Bounds that are not stable jump to the nearest hint and are rounded into the residue class of
the result. Along a chain of widenings the modulus can only be divided; while it is fixed, an
unstable bound jumps to a rounded hint strictly beyond it, so each rounded hint is used once.
-/
namespace FramaC
open Integer Progression

theorem exists_eventually_const {α β : Type*} [Preorder β] [WellFoundedLT β] (x : ℕ → α) (μ : α → β)
    (h : ∀ n, x (n + 1) = x n ∨ μ (x (n + 1)) < μ (x n)) : ∃ N, ∀ n, N ≤ n → x n = x N := by
  let s : Set β := Set.range fun n => μ (x n)
  obtain ⟨_,⟨N,rfl⟩,hmin⟩ := WellFounded.has_min (wellFounded_lt (α := β)) s ⟨_,0,rfl⟩
  refine ⟨N,fun n hn => ?_⟩
  induction n, hn using Nat.le_induction with
  | base => rfl
  | succ n hn ih =>
    rcases h n with h | h
    · rw [h,ih]
    · rw [ih] at h
      exact absurd h (hmin _ ⟨n + 1,rfl⟩)

namespace Ival

/-- The largest hint that is not above `x`, or `Not_found`. -/
def nearestEltLe (x : ℤ) (s : Finset ℤ) : Option ℤ :=
  if h : (s.filter (· ≤ x)).Nonempty then some ((s.filter (· ≤ x)).max' h) else none

/-- The smallest hint that is not below `x`, or `Not_found`. -/
def nearestEltGe (x : ℤ) (s : Finset ℤ) : Option ℤ :=
  if h : (s.filter (x ≤ ·)).Nonempty then some ((s.filter (x ≤ ·)).min' h) else none

/-- The hints completed with the limits of the integer types of `bitsize` bits. -/
def widenHints (bitsize : ℤ) (wh : Finset ℤ) : Res (Finset ℤ) :=
  if bitsize > 128 then return ∅
  else if isZero bitsize then return wh
  else do
    let half ← twoPower (bitsize - 1)
    let full ← twoPower bitsize
    return wh ∪ {-half, half - 1, full - 1}

def widenMin (wh : Finset ℤ) (newRem newMod : ℤ) (mn1 mn2 : Option ℤ) : Option ℤ :=
  if boundCompare mn1 mn2 = 0 then mn2
  else
    match mn2 with
    | none => none
    | some mn2 => (nearestEltLe mn2 wh).map fun v => roundUpToR v newRem newMod

def widenMax (wh : Finset ℤ) (newRem newMod : ℤ) (mx1 mx2 : Option ℤ) : Option ℤ :=
  if boundCompare mx1 mx2 = 0 then mx2
  else
    match mx2 with
    | none => none
    | some mx2 => (nearestEltGe mx2 wh).map fun v => roundDownToR v newRem newMod

def widen (sc : ℕ) (bitsize : ℤ) (wh : Finset ℤ) (t1 t2 : Ival) : Res Ival :=
  if equal t1 t2 || cardinalZeroOrOne t1 then return t2
  else do
    let wh ← widenHints bitsize wh
    let (mn2,mx2,r2,m2) ← minMaxRMod t2
    let (mn1,mx1,r1,m1) ← minMaxRMod t1
    let newMod := pgcd (pgcd m1 m2) |r1 - r2|
    let newRem := r1 % newMod
    let newMin := widenMin wh newRem newMod mn1 mn2
    let newMax := widenMax wh newRem newMod mx1 mx2
    injectTop sc newMin newMax newRem newMod

/-- Bounds and residue as `min_max_r_mod` computes them. -/
def spanOf : Ival → Option ℤ × Option ℤ × ℤ × ℤ
  | .set s => (some (s.headD 0),some (s.getLastD 0),s.headD 0 % s.foldl (accumModu (s.headD 0)) 0,
      s.foldl (accumModu (s.headD 0)) 0)
  | .topItv mn mx r m => (mn,mx,r,m)

def spanProg (v : Ival) : Set ℤ := prog (spanOf v).1 (spanOf v).2.1 (spanOf v).2.2.1 (spanOf v).2.2.2

section Span
variable {sc : ℕ} {t : Ival}

theorem two_le_of_not_card {s : List ℤ} (h : cardinalZeroOrOne (.set s) = false) : 2 ≤ s.length := by
  simp only [cardinalZeroOrOne,decide_eq_false_iff_not] at h
  omega

theorem minMaxRMod_ok (hw : Wf sc t) (hc : cardinalZeroOrOne t = false) : minMaxRMod t = .ok (spanOf t) := by
  cases t with
  | set s =>
    have h2 := two_le_of_not_card hc
    simp only [minMaxRMod,ge_iff_le,h2,decide_true,assertion_true,Res.ok_bind,
      unsafeMakeTopFromArray4_ok hw.1 h2,spanOf]
  | topItv mn mx r m => rfl

theorem spanOf_reduced (hw : Wf sc t) (hc : cardinalZeroOrOne t = false) :
    Reduced (spanOf t).1 (spanOf t).2.1 (spanOf t).2.2.1 (spanOf t).2.2.2 := by
  cases t with
  | set s => exact (span_set hw.1 (two_le_of_not_card hc)).1
  | topItv mn mx r m => exact (wf_topItv_iff.mp hw).1

theorem concr_subset_spanProg (hw : Wf sc t) (hc : cardinalZeroOrOne t = false) : concr t ⊆ spanProg t := by
  cases t with
  | set s => exact (span_set hw.1 (two_le_of_not_card hc)).2.2
  | topItv mn mx r m => exact subset_rfl

theorem exists_two (hsc : 2 ≤ sc) (hw : Wf sc t) (hc : cardinalZeroOrOne t = false) :
    ∃ x ∈ concr t, ∃ y ∈ concr t, x < y := by
  cases t with
  | set s =>
    have h2 := two_le_of_not_card hc
    cases s with
    | nil => simp at h2
    | cons a s =>
      cases s with
      | nil => simp at h2
      | cons b s => exact ⟨a,by simp,b,by simp,List.rel_of_pairwise_cons hw.1 (by simp)⟩
  | topItv mn mx r m =>
    obtain ⟨hr,hl⟩ := wf_topItv_iff.mp hw
    obtain ⟨a,ha⟩ := hr.exists_terms hl
    have h0 := ha 0 (by omega)
    have h1 := ha 1 (by omega)
    have := hr.pos
    exact ⟨_,h0,_,h1,by push_cast; omega⟩

theorem not_card_of_two {x y : ℤ} (hx : x ∈ concr t) (hy : y ∈ concr t) (hne : x < y) :
    cardinalZeroOrOne t = false := by
  cases t with
  | set s =>
    simp only [cardinalZeroOrOne,decide_eq_false_iff_not,not_le]
    by_contra hle
    have hl : s.length ≤ 1 := by omega
    match s, hl with
    | [], _ => simp at hx
    | [a], _ =>
      simp only [mem_concr_set,List.mem_singleton] at hx hy
      omega
  | topItv mn mx r m => rfl

theorem long_one_of_two {mn mx : Option ℤ} {r m x y : ℤ} (hx : x ∈ prog mn mx r m) (hy : y ∈ prog mn mx r m)
    (hlt : x < y) : Long 1 mn mx m := by
  intro a ha b hb
  have h1 := hx.2.1 a ha
  have h2 := hy.2.2 b hb
  have := add_le_of_emod_eq hx.1 hy.1 hlt
  push_cast
  omega

theorem spanOf_bounds {mn mx : Option ℤ} {r m : ℤ} (hsc : 2 ≤ sc) (hw : Wf sc t)
    (hc : cardinalZeroOrOne t = false) (hr : Reduced mn mx r m) (hs : concr t ⊆ prog mn mx r m) :
    (∀ a ∈ mn, ∃ a' ∈ (spanOf t).1, a ≤ a') ∧ ∀ b ∈ mx, ∃ b' ∈ (spanOf t).2.1, b' ≤ b := by
  cases t with
  | set s =>
    have hne : s ≠ [] := by
      rintro rfl
      simp [cardinalZeroOrOne] at hc
    exact ⟨fun a ha => ⟨_,rfl,(hs (headD_mem hne)).2.1 a ha⟩,
      fun b hb => ⟨_,rfl,(hs (getLastD_mem hne)).2.2 b hb⟩⟩
  | topItv mn' mx' r' m' =>
    obtain ⟨hr',hl'⟩ := wf_topItv_iff.mp hw
    obtain ⟨h1,h2,_⟩ := (hr'.subset_iff (hl'.mono hr'.pos (by omega)) hr).mp hs
    exact ⟨h1,h2⟩

theorem spanOf_eq {mn mx : Option ℤ} {r m : ℤ} (hsc : 2 ≤ sc) (hw : Wf sc t) (hr : Reduced mn mx r m)
    (hc : concr t = prog mn mx r m) (hl : Long 1 mn mx m) : spanOf t = (mn,mx,r,m) := by
  obtain ⟨a,ha⟩ := hr.exists_terms hl
  have h0 := ha 0 (by omega)
  have h1 := ha 1 le_rfl
  simp only [Nat.cast_zero,mul_zero,add_zero] at h0
  simp only [Nat.cast_one,mul_one] at h1
  have hpos := hr.pos
  have hcard : cardinalZeroOrOne t = false := not_card_of_two (hc ▸ h0) (hc ▸ h1) (by omega)
  have hred := spanOf_reduced hw hcard
  have hsub := concr_subset_spanProg hw hcard
  have hs0 := hsub (hc ▸ h0)
  have hs1 := hsub (hc ▸ h1)
  have hlong := long_one_of_two hs0 hs1 (by omega)
  have heq : prog (spanOf t).1 (spanOf t).2.1 (spanOf t).2.2.1 (spanOf t).2.2.2 = prog mn mx r m := by
    refine Set.Subset.antisymm ?_ (hc ▸ hsub)
    obtain ⟨hb1,hb2⟩ := spanOf_bounds hsc hw hcard hr hc.subset
    have hdvd : m ∣ (spanOf t).2.2.2 := by
      cases t with
      | set s =>
        refine (dvd_foldl_accumModu s).mpr ⟨dvd_zero _,fun x hx => ?_⟩
        have hne : s ≠ [] := List.ne_nil_of_mem hx
        exact dvd_sub_of_emod_eq ((hc.subset hx).1.trans (hc.subset (headD_mem hne)).1.symm)
      | topItv mn' mx' r' m' =>
        exact ((hred.subset_iff hlong hr).mp hc.subset).2.2.1
    refine (hred.subset_iff hlong hr).mpr ⟨hb1,hb2,hdvd,?_⟩
    rw [← hs0.1,Int.emod_emod_of_dvd _ hdvd,h0.1]
  obtain ⟨e1,e2,e3,e4⟩ := hred.eq_of_prog_eq hlong hr hl heq
  exact Prod.ext e1 (Prod.ext e2 (Prod.ext e3 e4))

end Span

theorem nearestEltLe_le {x v : ℤ} {s : Finset ℤ} (h : nearestEltLe x s = some v) : v ≤ x ∧ v ∈ s := by
  unfold nearestEltLe at h
  split at h
  · rename_i hne
    cases h
    have := Finset.max'_mem _ hne
    simp only [Finset.mem_filter] at this
    exact ⟨this.2,this.1⟩
  · cases h

theorem nearestEltGe_ge {x v : ℤ} {s : Finset ℤ} (h : nearestEltGe x s = some v) : x ≤ v ∧ v ∈ s := by
  unfold nearestEltGe at h
  split at h
  · rename_i hne
    cases h
    have := Finset.min'_mem _ hne
    simp only [Finset.mem_filter] at this
    exact ⟨this.2,this.1⟩
  · cases h

theorem widenHints_ok {bitsize : ℤ} (h0 : 0 ≤ bitsize) (wh : Finset ℤ) : ∃ wh', widenHints bitsize wh = .ok wh' := by
  unfold widenHints
  split
  · exact ⟨_,rfl⟩
  · split
    · exact ⟨_,rfl⟩
    · rename_i h128 hz
      simp only [isZero,beq_iff_eq] at hz
      rw [twoPower_ok (by omega) (by omega),Res.ok_bind,twoPower_ok (by omega) (by omega),Res.ok_bind]
      exact ⟨_,rfl⟩

section Bounds
variable {wh : Finset ℤ} {r m : ℤ} {b1 b2 : Option ℤ}

theorem widenMin_cases (wh : Finset ℤ) (b1 : Option ℤ) (hm : 0 < m) (hb : ∀ a ∈ b2, a % m = r) :
    (b1 = b2 ∧ widenMin wh r m b1 b2 = b2) ∨ (b1 ≠ b2 ∧ widenMin wh r m b1 b2 = none) ∨
      ∃ a v, b1 ≠ b2 ∧ b2 = some a ∧ v ∈ wh ∧ widenMin wh r m b1 b2 = some (roundUpToR v r m) ∧
        roundUpToR v r m ≤ a := by
  unfold widenMin
  split
  · rename_i h
    exact .inl ⟨boundCompare_eq_zero.mp h,rfl⟩
  · rename_i h
    have hne : b1 ≠ b2 := fun he => h (boundCompare_eq_zero.mpr he)
    cases b2 with
    | none => exact .inr (.inl ⟨hne,rfl⟩)
    | some a =>
      cases hv : nearestEltLe a wh with
      | none => exact .inr (.inl ⟨hne,by simp [hv]⟩)
      | some v =>
        obtain ⟨hle,hmem⟩ := nearestEltLe_le hv
        exact .inr (.inr ⟨a,v,hne,rfl,hmem,by simp [hv],roundUpToR_le hm (hb a rfl) hle⟩)

theorem widenMax_cases (wh : Finset ℤ) (b1 : Option ℤ) (hm : 0 < m) (hb : ∀ a ∈ b2, a % m = r) :
    (b1 = b2 ∧ widenMax wh r m b1 b2 = b2) ∨ (b1 ≠ b2 ∧ widenMax wh r m b1 b2 = none) ∨
      ∃ a v, b1 ≠ b2 ∧ b2 = some a ∧ v ∈ wh ∧ widenMax wh r m b1 b2 = some (roundDownToR v r m) ∧
        a ≤ roundDownToR v r m := by
  unfold widenMax
  split
  · rename_i h
    exact .inl ⟨boundCompare_eq_zero.mp h,rfl⟩
  · rename_i h
    have hne : b1 ≠ b2 := fun he => h (boundCompare_eq_zero.mpr he)
    cases b2 with
    | none => exact .inr (.inl ⟨hne,rfl⟩)
    | some a =>
      cases hv : nearestEltGe a wh with
      | none => exact .inr (.inl ⟨hne,by simp [hv]⟩)
      | some v =>
        obtain ⟨hle,hmem⟩ := nearestEltGe_ge hv
        exact .inr (.inr ⟨a,v,hne,rfl,hmem,by simp [hv],le_roundDownToR hm (hb a rfl) hle⟩)

theorem widenMin_lower (hm : 0 < m) (hb : ∀ a ∈ b2, a % m = r) :
    ∀ a' ∈ widenMin wh r m b1 b2, ∃ a ∈ b2, a' ≤ a := by
  intro a' ha'
  rcases widenMin_cases wh b1 hm hb with ⟨_,h⟩ | ⟨_,h⟩ | ⟨a,v,_,rfl,_,h,hle⟩
  · exact ⟨a',h ▸ ha',le_rfl⟩
  · simp [h] at ha'
  · rw [h] at ha'
    cases ha'
    exact ⟨a,rfl,hle⟩

theorem widenMax_upper (hm : 0 < m) (hb : ∀ a ∈ b2, a % m = r) :
    ∀ a' ∈ widenMax wh r m b1 b2, ∃ a ∈ b2, a ≤ a' := by
  intro a' ha'
  rcases widenMax_cases wh b1 hm hb with ⟨_,h⟩ | ⟨_,h⟩ | ⟨a,v,_,rfl,_,h,hle⟩
  · exact ⟨a',h ▸ ha',le_rfl⟩
  · simp [h] at ha'
  · rw [h] at ha'
    cases ha'
    exact ⟨a,rfl,hle⟩

theorem widenMin_emod (h0 : 0 ≤ r) (hr : r < m) (hb : ∀ a ∈ b2, a % m = r) :
    ∀ a ∈ widenMin wh r m b1 b2, a % m = r := by
  intro a ha
  rcases widenMin_cases wh b1 (by omega) hb with ⟨_,h⟩ | ⟨_,h⟩ | ⟨_,v,_,_,_,h,_⟩
  · exact hb a (h ▸ ha)
  · simp [h] at ha
  · rw [h] at ha
    cases ha
    exact roundUpToR_emod h0 hr

theorem widenMax_emod (h0 : 0 ≤ r) (hr : r < m) (hb : ∀ a ∈ b2, a % m = r) :
    ∀ a ∈ widenMax wh r m b1 b2, a % m = r := by
  intro a ha
  rcases widenMax_cases wh b1 (by omega) hb with ⟨_,h⟩ | ⟨_,h⟩ | ⟨_,v,_,_,_,h,_⟩
  · exact hb a (h ▸ ha)
  · simp [h] at ha
  · rw [h] at ha
    cases ha
    exact roundDownToR_emod h0 hr

end Bounds

def widenMod (t1 t2 : Ival) : ℤ :=
  pgcd (pgcd (spanOf t1).2.2.2 (spanOf t2).2.2.2) |(spanOf t1).2.2.1 - (spanOf t2).2.2.1|

def widenRem (t1 t2 : Ival) : ℤ := (spanOf t1).2.2.1 % widenMod t1 t2

theorem widen_spec {sc : ℕ} (hsc : 2 ≤ sc) {bitsize : ℤ} {wh wh' : Finset ℤ}
    (hwh : widenHints bitsize wh = .ok wh') {t1 t2 : Ival} (h1 : Wf sc t1) (h2 : Wf sc t2)
    (hs : concr t1 ⊆ concr t2) (hne : t1 ≠ t2) (hc1 : cardinalZeroOrOne t1 = false) :
    ∃ v, widen sc bitsize wh t1 t2 = .ok v ∧ Wf sc v ∧ concr t2 ⊆ concr v ∧
      Reduced (widenMin wh' (widenRem t1 t2) (widenMod t1 t2) (spanOf t1).1 (spanOf t2).1)
        (widenMax wh' (widenRem t1 t2) (widenMod t1 t2) (spanOf t1).2.1 (spanOf t2).2.1)
        (widenRem t1 t2) (widenMod t1 t2) ∧
      concr v = prog (widenMin wh' (widenRem t1 t2) (widenMod t1 t2) (spanOf t1).1 (spanOf t2).1)
        (widenMax wh' (widenRem t1 t2) (widenMod t1 t2) (spanOf t1).2.1 (spanOf t2).2.1)
        (widenRem t1 t2) (widenMod t1 t2) := by
  obtain ⟨x,hx,y,hy,hlt⟩ := exists_two hsc h1 hc1
  have hc2 : cardinalZeroOrOne t2 = false := not_card_of_two (hs hx) (hs hy) hlt
  have hr1 := spanOf_reduced h1 hc1
  have hr2 := spanOf_reduced h2 hc2
  have hpos : 1 ≤ widenMod t1 t2 := one_le_pgcd_left (one_le_pgcd_left hr1.pos)
  have hd2 : widenMod t1 t2 ∣ (spanOf t2).2.2.2 := (pgcd_dvd_left _ _).trans (pgcd_dvd_right _ _)
  have hdr : widenMod t1 t2 ∣ (spanOf t1).2.2.1 - (spanOf t2).2.2.1 := (dvd_abs _ _).mp (pgcd_dvd_right _ _)
  have h0 : 0 ≤ widenRem t1 t2 := Int.emod_nonneg _ (by omega)
  have hlt' : widenRem t1 t2 < widenMod t1 t2 := Int.emod_lt_of_pos _ (by omega)
  have hcls : ∀ x, x % (spanOf t2).2.2.2 = (spanOf t2).2.2.1 → x % widenMod t1 t2 = widenRem t1 t2 := by
    intro x hx
    rw [emod_eq_of_dvd_of_emod hd2 hx]
    exact (emod_eq_of_dvd_sub hdr).symm
  have hb2 := fun a ha => hcls a (hr2.lower a ha)
  have hb2' := fun a ha => hcls a (hr2.upper a ha)
  have hred : Reduced (widenMin wh' (widenRem t1 t2) (widenMod t1 t2) (spanOf t1).1 (spanOf t2).1)
      (widenMax wh' (widenRem t1 t2) (widenMod t1 t2) (spanOf t1).2.1 (spanOf t2).2.1)
      (widenRem t1 t2) (widenMod t1 t2) :=
    ⟨hpos,h0,hlt',widenMin_emod h0 hlt' hb2,widenMax_emod h0 hlt' hb2'⟩
  obtain ⟨v,hv,hw,hc⟩ := injectTop_spec hsc hred
  refine ⟨v,?_,hw,?_,hred,hc⟩
  · have hneq : equal t1 t2 = false := by
      rw [Bool.eq_false_iff,ne_eq,equal_iff]
      exact hne
    simp only [widen,hneq,hc1,Bool.or_self,Bool.false_eq_true,if_false,hwh,Res.ok_bind,
      minMaxRMod_ok h1 hc1,minMaxRMod_ok h2 hc2]
    exact hv
  · rw [hc]
    intro z hz
    obtain ⟨hz1,hz2,hz3⟩ := concr_subset_spanProg h2 hc2 hz
    refine ⟨hcls z hz1,fun a ha => ?_,fun b hb => ?_⟩
    · obtain ⟨a2,ha2,hle⟩ := widenMin_lower (by omega) hb2 a ha
      exact hle.trans (hz2 a2 ha2)
    · obtain ⟨b2,hb2,hle⟩ := widenMax_upper (by omega) hb2' b hb
      exact (hz3 b2 hb2).trans hle

theorem widen_cover {sc : ℕ} (hsc : 2 ≤ sc) {bitsize : ℤ} (h0 : 0 ≤ bitsize) (wh : Finset ℤ) {t1 t2 : Ival}
    (h1 : Wf sc t1) (h2 : Wf sc t2) (hs : concr t1 ⊆ concr t2) :
    ∃ v, widen sc bitsize wh t1 t2 = .ok v ∧ Wf sc v ∧ concr t2 ⊆ concr v := by
  obtain ⟨wh',hwh⟩ := widenHints_ok h0 wh
  by_cases hstop : (equal t1 t2 || cardinalZeroOrOne t1) = true
  · exact ⟨t2,by rw [widen,if_pos hstop]; rfl,h2,subset_rfl⟩
  · rw [Bool.or_eq_true,equal_iff,not_or,Bool.not_eq_true] at hstop
    obtain ⟨v,hv,hw,hsub,_⟩ := widen_spec hsc hwh h1 h2 hs hstop.1 hstop.2
    exact ⟨v,hv,hw,hsub⟩

def lowerRank (wh : Finset ℤ) (r m : ℤ) : Option ℤ → ℕ
  | none => 0
  | some a => ((wh.image fun v => roundUpToR v r m).filter (· < a)).card + 1

def upperRank (wh : Finset ℤ) (r m : ℤ) : Option ℤ → ℕ
  | none => 0
  | some b => ((wh.image fun v => roundDownToR v r m).filter (b < ·)).card + 1

open Classical in
/-- Small values first, then the modulus, the reachable hints on both sides, and last
whether the value still has gaps. -/
noncomputable def widenMeasure (wh : Finset ℤ) (v : Ival) : ℕ ×ₗ ℕ ×ₗ ℕ ×ₗ ℕ :=
  toLex (if v = bottom then 2 else if cardinalZeroOrOne v then 1 else 0,
    toLex ((spanOf v).2.2.2.toNat,
      toLex (lowerRank wh (spanOf v).2.2.1 (spanOf v).2.2.2 (spanOf v).1 +
          upperRank wh (spanOf v).2.2.1 (spanOf v).2.2.2 (spanOf v).2.1,
        if concr v = spanProg v then 0 else 1)))

theorem lowerRank_widenMin (wh : Finset ℤ) (b1 : Option ℤ) {r m : ℤ} {b2 : Option ℤ} (hm : 0 < m)
    (hb : ∀ a ∈ b2, a % m = r) (hle : ∀ a ∈ b2, ∃ a' ∈ b1, a ≤ a') :
    widenMin wh r m b1 b2 = b1 ∨ lowerRank wh r m (widenMin wh r m b1 b2) < lowerRank wh r m b1 := by
  rcases widenMin_cases wh b1 hm hb with ⟨he,h⟩ | ⟨hne,h⟩ | ⟨a,v,hne,rfl,hv,h,hva⟩
  · exact .inl (h.trans he.symm)
  · cases b1 with
    | none => exact .inl h
    | some a1 => exact .inr (by rw [h]; simp [lowerRank])
  · obtain ⟨a1,rfl,hle1⟩ := hle a rfl
    have hlt : a < a1 := lt_of_le_of_ne hle1 fun he => hne (he ▸ rfl)
    right
    rw [h]
    simp only [lowerRank,Nat.add_lt_add_iff_right]
    refine Finset.card_lt_card ⟨?_,fun hsub => ?_⟩
    · intro x hx
      simp only [Finset.mem_filter] at hx ⊢
      exact ⟨hx.1,by omega⟩
    · have hmem : roundUpToR v r m ∈ (wh.image fun v => roundUpToR v r m).filter (· < a1) := by
        simp only [Finset.mem_filter,Finset.mem_image]
        exact ⟨⟨v,hv,rfl⟩,by omega⟩
      have := hsub hmem
      simp at this

theorem upperRank_widenMax (wh : Finset ℤ) (b1 : Option ℤ) {r m : ℤ} {b2 : Option ℤ} (hm : 0 < m)
    (hb : ∀ a ∈ b2, a % m = r) (hle : ∀ a ∈ b2, ∃ a' ∈ b1, a' ≤ a) :
    widenMax wh r m b1 b2 = b1 ∨ upperRank wh r m (widenMax wh r m b1 b2) < upperRank wh r m b1 := by
  rcases widenMax_cases wh b1 hm hb with ⟨he,h⟩ | ⟨hne,h⟩ | ⟨a,v,hne,rfl,hv,h,hva⟩
  · exact .inl (h.trans he.symm)
  · cases b1 with
    | none => exact .inl h
    | some a1 => exact .inr (by rw [h]; simp [upperRank])
  · obtain ⟨a1,rfl,hle1⟩ := hle a rfl
    have hlt : a1 < a := lt_of_le_of_ne hle1 fun he => hne (he ▸ rfl)
    right
    rw [h]
    simp only [upperRank,Nat.add_lt_add_iff_right]
    refine Finset.card_lt_card ⟨?_,fun hsub => ?_⟩
    · intro x hx
      simp only [Finset.mem_filter] at hx ⊢
      exact ⟨hx.1,by omega⟩
    · have hmem : roundDownToR v r m ∈ (wh.image fun v => roundDownToR v r m).filter (a1 < ·) := by
        simp only [Finset.mem_filter,Finset.mem_image]
        exact ⟨⟨v,hv,rfl⟩,by omega⟩
      have := hsub hmem
      simp at this

theorem widen_decreases {sc : ℕ} (hsc : 2 ≤ sc) {bitsize : ℤ} {wh wh' : Finset ℤ}
    (hwh : widenHints bitsize wh = .ok wh') {t1 t2 v : Ival} (h1 : Wf sc t1) (h2 : Wf sc t2)
    (hs : concr t1 ⊆ concr t2) (hv : widen sc bitsize wh t1 t2 = .ok v) :
    v = t1 ∨ widenMeasure wh' v < widenMeasure wh' t1 := by
  by_cases hne : t1 = t2
  · subst hne
    left
    have : equal t1 t1 = true := equal_iff.mpr rfl
    simp only [widen,this,Bool.true_or,if_true] at hv
    cases hv
    rfl
  right
  unfold widenMeasure
  rw [Prod.Lex.toLex_lt_toLex]
  cases hc1 : cardinalZeroOrOne t1 with
  | true =>
    -- a small value: the result is `t2`, which is strictly larger
    left
    simp only [widen,hc1,Bool.or_true,if_true] at hv
    cases hv
    simp only
    by_cases hb : t1 = bottom
    · have hb2 : t2 ≠ bottom := fun h => hne (hb.trans h.symm)
      rw [if_pos hb,if_neg hb2]
      split <;> omega
    · have hc2 : cardinalZeroOrOne t2 = false := by
        by_contra hc2
        rw [Bool.not_eq_false] at hc2
        cases t1 with
        | topItv mn mx r m => simp [cardinalZeroOrOne] at hc1
        | set s1 =>
          cases t2 with
          | topItv mn mx r m => simp [cardinalZeroOrOne] at hc2
          | set s2 =>
            simp only [cardinalZeroOrOne,decide_eq_true_eq] at hc1 hc2
            match s1, s2, hc1, hc2 with
            | [], _, _, _ => exact hb rfl
            | [a], [], _, _ => simpa using hs (show a ∈ concr (.set [a]) by simp)
            | [a], [b], _, _ =>
              have : a = b := by simpa using hs (show a ∈ concr (.set [a]) by simp)
              exact hne (by rw [this])
      have hb2 : t2 ≠ bottom := by
        rintro rfl
        simp [cardinalZeroOrOne,bottom] at hc2
      rw [if_neg hb,if_neg hb2,hc2]
      simp
  | false =>
    obtain ⟨v',hv',hw,hsub,hred,hc⟩ := widen_spec hsc hwh h1 h2 hs hne hc1
    rw [hv] at hv'
    cases hv'
    obtain ⟨x,hx,y,hy,hlt⟩ := exists_two hsc h1 hc1
    have hcv : cardinalZeroOrOne v = false := not_card_of_two (hsub (hs hx)) (hsub (hs hy)) hlt
    have hc2 : cardinalZeroOrOne t2 = false := not_card_of_two (hs hx) (hs hy) hlt
    have hnb : ∀ {t : Ival}, cardinalZeroOrOne t = false → t ≠ bottom := by
      rintro t ht rfl
      simp [cardinalZeroOrOne,bottom] at ht
    have hl : Long 1 _ _ _ := long_one_of_two (hc.subset (hsub (hs hx))) (hc.subset (hsub (hs hy))) hlt
    have hspan := spanOf_eq hsc hw hred hc hl
    have hr1 := spanOf_reduced h1 hc1
    have hr2 := spanOf_reduced h2 hc2
    have hfull : concr v = spanProg v := by rw [spanProg,hspan]; exact hc
    right
    refine ⟨by simp [hnb hcv,hnb hc1,hcv],?_⟩
    simp only [hspan,if_pos hfull]
    rw [Prod.Lex.toLex_lt_toLex]
    have hd1 : widenMod t1 t2 ∣ (spanOf t1).2.2.2 := (pgcd_dvd_left _ _).trans (pgcd_dvd_left _ _)
    have hle := Int.le_of_dvd (by linarith [hr1.pos]) hd1
    have hpos := hred.pos
    rcases hle.lt_or_eq with hlt' | heq
    · left
      simp only
      omega
    · right
      refine ⟨by simp only [heq],?_⟩
      rw [Prod.Lex.toLex_lt_toLex]
      have hrem : widenRem t1 t2 = (spanOf t1).2.2.1 := by
        rw [widenRem,heq]
        exact Int.emod_eq_of_lt hr1.nonneg hr1.lt
      obtain ⟨hb1,hb2⟩ := spanOf_bounds hsc h1 hc1 hr2 (hs.trans (concr_subset_spanProg h2 hc2))
      have hd2 : widenMod t1 t2 ∣ (spanOf t2).2.2.2 := (pgcd_dvd_left _ _).trans (pgcd_dvd_right _ _)
      have hdr : widenMod t1 t2 ∣ (spanOf t1).2.2.1 - (spanOf t2).2.2.1 := (dvd_abs _ _).mp (pgcd_dvd_right _ _)
      have hcls : ∀ x, x % (spanOf t2).2.2.2 = (spanOf t2).2.2.1 → x % widenMod t1 t2 = widenRem t1 t2 := by
        intro x hx
        rw [emod_eq_of_dvd_of_emod hd2 hx]
        exact (emod_eq_of_dvd_sub hdr).symm
      have hlow := lowerRank_widenMin wh' (spanOf t1).1 (by omega)
        (fun a ha => hcls a (hr2.lower a ha)) hb1
      have hup := upperRank_widenMax wh' (spanOf t1).2.1 (by omega)
        (fun a ha => hcls a (hr2.upper a ha)) hb2
      simp only [heq,hrem] at hlow hup hc ⊢
      rcases hlow with hlow | hlow
      · rcases hup with hup | hup
        · -- both bounds are stable: only the gaps of `t1` have been filled
          right
          rw [hlow,hup] at hc ⊢
          refine ⟨rfl,?_⟩
          rw [if_neg]
          · omega
          · intro hfull1
            have hcc : concr t1 = concr v := hfull1.trans hc.symm
            exact hne (eq_of_concr_eq hsc h1 h2 (Set.Subset.antisymm hs (hsub.trans hcc.symm.subset)))
        · left
          rw [hlow]
          omega
      · left
        rcases hup with hup | hup
        · rw [hup]
          omega
        · omega

/-- The sequence `x (n+1) = widen hints (x n) (join (x n) (y n))`. -/
def widenSeq (sc : ℕ) (bitsize : ℤ) (wh : Finset ℤ) (x0 : Ival) (y : ℕ → Ival) : ℕ → Res Ival
  | 0 => return x0
  | n + 1 => do
    let x ← widenSeq sc bitsize wh x0 y n
    widen sc bitsize wh x (← join sc x (y n))

/-- Widening covers its second argument, and every sequence of widenings of joins is
eventually constant. -/
theorem widen_covers_and_stabilises {sc : ℕ} (hsc : 2 ≤ sc) {bitsize : ℤ} (h0 : 0 ≤ bitsize) (wh : Finset ℤ) :
    (∀ t1 t2, Wf sc t1 → Wf sc t2 → isIncluded t1 t2 = true →
      ∃ v j, widen sc bitsize wh t1 t2 = .ok v ∧ join sc t1 t2 = .ok j ∧ isIncluded t2 v = true ∧
        isIncluded j v = true) ∧
    ∀ (x0 : Ival) (y : ℕ → Ival), Wf sc x0 → (∀ n, Wf sc (y n)) →
      ∃ N v, ∀ n, N ≤ n → widenSeq sc bitsize wh x0 y n = .ok v := by
  constructor
  · intro t1 t2 h1 h2 hi
    have hs := (isIncluded_iff_subset hsc h1 h2).mp hi
    obtain ⟨v,hv,hw,hsub⟩ := widen_cover hsc h0 wh h1 h2 hs
    obtain ⟨j,hj,hwj,hh⟩ := join_spec hsc h1 h2
    refine ⟨v,j,hv,hj,(isIncluded_iff_subset hsc h2 hw).mpr hsub,(isIncluded_iff_subset hsc hwj hw).mpr ?_⟩
    exact (hh.2 t2 h2 (Set.union_subset hs subset_rfl)).trans hsub
  · intro x0 y hx0 hy
    obtain ⟨wh',hwh⟩ := widenHints_ok h0 wh
    have step : ∀ x z, Wf sc x → Wf sc z → ∃ v, (do widen sc bitsize wh x (← join sc x z)) = .ok v ∧
        Wf sc v ∧ (v = x ∨ widenMeasure wh' v < widenMeasure wh' x) := by
      intro x z hx hz
      obtain ⟨j,hj,hwj,hh⟩ := join_spec hsc hx hz
      have hsub := Set.subset_union_left.trans hh.1
      obtain ⟨v,hv,hw,_⟩ := widen_cover hsc h0 wh hx hwj hsub
      exact ⟨v,by rw [hj,Res.ok_bind,hv],hw,widen_decreases hsc hwh hx hwj hsub hv⟩
    have hseq : ∀ n, ∃ v, widenSeq sc bitsize wh x0 y n = .ok v ∧ Wf sc v := by
      intro n
      induction n with
      | zero => exact ⟨x0,rfl,hx0⟩
      | succ n ih =>
        obtain ⟨x,hx,hwx⟩ := ih
        obtain ⟨v,hv,hw,_⟩ := step x (y n) hwx (hy n)
        exact ⟨v,by rw [widenSeq,hx,Res.ok_bind]; exact hv,hw⟩
    choose x hx using hseq
    obtain ⟨N,hN⟩ := exists_eventually_const x (widenMeasure wh') fun n => by
      obtain ⟨v,hv,_,hdec⟩ := step (x n) (y n) (hx n).2 (hy n)
      have he := (hx (n + 1)).1
      rw [widenSeq,(hx n).1,Res.ok_bind] at he
      rw [he] at hv
      cases hv
      exact hdec
    exact ⟨N,x N,fun n hn => by rw [(hx n).1,hN n hn]⟩

theorem widen_covers_and_stabilises_32 : ∃ N v, ∀ n, N ≤ n →
    widenSeq 8 32 {-1,0,1} bottom (fun n => .set [(n : ℤ)]) n = .ok v :=
  (@widen_covers_and_stabilises 8 (by omega) 32 (by omega) {-1,0,1}).2 bottom _
    (wf_bottom 8) fun n => wf_singleton (by omega) _

end Ival
end FramaC
