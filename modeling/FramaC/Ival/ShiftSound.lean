import FramaC.Ival.RangeSound

/-! # Soundness of shifts

A shift by a small set joins the results of its members, a shift by a range operates on the range of the factors, and
factors that are too large only leave the sign. The wide path of the right shift divides with truncation, the narrow one
rounds down: they differ at a negative bound that the least factor does not divide.
-/
namespace FramaC.Ival
open Integer Progression Outcome

def shiftHandler (x : Ival) : Ival :=
  if isIncluded x positiveIntegers then positiveIntegers
  else if isIncluded x negativeIntegers then negativeIntegers
  else top

section Shift
variable {sc : ℕ} {x y : Ival}

theorem mem_shiftHandler (hsc : 2 ≤ sc) (hx : Wf sc x) {a c : ℤ} (ha : a ∈ concr x) (hp : 0 ≤ a → 0 ≤ c)
    (hn : a ≤ 0 → c ≤ 0) : c ∈ concr (shiftHandler x) := by
  unfold shiftHandler
  split
  · rename_i hinc
    have hsub := (isIncluded_iff_subset hsc hx (by simp [Wf,positiveIntegers])).1 hinc
    have h0 : 0 ≤ a := (hsub ha).2.1 0 rfl
    exact ⟨Int.emod_one c,by rintro _ ⟨⟩; exact hp h0,by simp⟩
  · split
    · rename_i hinc
      have hsub := (isIncluded_iff_subset hsc hx (by simp [Wf,negativeIntegers])).1 hinc
      have h0 : a ≤ 0 := (hsub ha).2.2 0 rfl
      exact ⟨Int.emod_one c,by simp,by rintro _ ⟨⟩; exact hn h0⟩
    · exact mem_top c

theorem one_le_twoPow (n : ℤ) : (1 : ℤ) ≤ 2 ^ n.toNat := one_le_pow₀ (by omega)

theorem twoPow_dvd {k n : ℤ} (h : k ≤ n) : (2 : ℤ) ^ k.toNat ∣ 2 ^ n.toNat := pow_dvd_pow 2 (by omega)

theorem twoPow_le {k n : ℤ} (h : k ≤ n) : (2 : ℤ) ^ k.toNat ≤ 2 ^ n.toNat :=
  pow_le_pow_right₀ (by omega) (by omega)

theorem twoPower_overflow {n : ℤ} (h : 1024 < n) : twoPower n = .error .overflow := by
  unfold twoPower toInt
  split
  · rw [Res.ok_bind,if_pos (by omega)]
  · rfl

variable {scale : ℤ → Ival → Res Ival} {op : Ival → Ival → Res Ival}

theorem shiftAux_paths (hsc : 2 ≤ sc) (hy : Wf sc y) (scale : ℤ → Ival → Res Ival) (op : Ival → Ival → Res Ival)
    (x : Ival) : ∃ z, Wf sc z ∧ (∀ n, n ∈ concr z ↔ n ∈ concr y ∧ 0 ≤ n) ∧
      ((∃ s, z = .set s ∧ shiftAux sc scale op x y = catchOverflow
          (s.foldlM (fun acc n => do join sc acc (← scale (← twoPower n) x)) bottom) (shiftHandler x)) ∨
        ∃ k mx r m, z = .topItv (some k) mx r m ∧
          (((1024 < k ∨ ∃ h ∈ mx, 1024 < h) ∧ shiftAux sc scale op x y = .ok (shiftHandler x)) ∨
            (k ≤ 1024 ∧ (∀ h ∈ mx, h ≤ 1024) ∧ ∃ w, Wf sc w ∧
              concr w = prog (some (2 ^ k.toNat)) (mx.map fun n => 2 ^ n.toNat) 0 (2 ^ k.toNat) ∧
              shiftAux sc scale op x y = catchOverflow (op x w) (shiftHandler x)))) := by
  obtain ⟨rng,hrng,hrngw,hrngc⟩ := injectRange_spec hsc (some 0) none
  obtain ⟨z,hz,hzw,hzc⟩ := narrow_spec hsc hrngw hy
  have hmem : ∀ n, n ∈ concr z ↔ n ∈ concr y ∧ 0 ≤ n := by
    intro n
    rw [hzc,hrngc]
    constructor
    · rintro ⟨⟨_,h0,_⟩,hn⟩
      exact ⟨hn,h0 0 rfl⟩
    · rintro ⟨hn,h0⟩
      exact ⟨⟨Int.emod_one n,by rintro _ ⟨⟩; exact h0,by simp⟩,hn⟩
  refine ⟨z,hzw,hmem,?_⟩
  unfold shiftAux
  rw [hrng,Res.ok_bind,hz,Res.ok_bind]
  cases z with
  | set s => exact Or.inl ⟨s,rfl,rfl⟩
  | topItv mn mx r m =>
    obtain ⟨hr,hl⟩ := wf_topItv_iff.mp hzw
    cases mn with
    | none =>
      obtain ⟨c,hc,hc0⟩ := hr.unbounded_below (-1)
      have := ((hmem c).1 hc).2
      omega
    | some k =>
      have hk : 0 ≤ k := ((hmem k).1 (hr.lower_mem fun b hb => hl.le hr.pos rfl hb)).2
      refine Or.inr ⟨k,mx,r,m,rfl,?_⟩
      simp only [minInt,maxInt,pure_bind,optMap]
      by_cases hk1 : 1024 < k
      · refine Or.inl ⟨Or.inl hk1,?_⟩
        rw [twoPower_overflow hk1]
        rfl
      · have hp := twoPower_ok hk (by omega)
        rw [hp,Res.ok_bind]
        have hred : ∀ {mx'}, mx' = mx.map (fun n => (2 : ℤ) ^ n.toNat) →
            Reduced (some ((2 : ℤ) ^ k.toNat)) mx' 0 (2 ^ k.toNat) := by
          rintro _ rfl
          have h1 := one_le_twoPow k
          refine ⟨h1,le_rfl,by omega,by rintro _ ⟨⟩; exact Int.emod_self,?_⟩
          intro c hc
          obtain ⟨b,hb,rfl⟩ := Option.mem_map.mp hc
          exact Int.emod_eq_zero_of_dvd (twoPow_dvd (hl.le hr.pos rfl hb))
        cases mx with
        | none =>
          obtain ⟨w,hw,hwf,hc⟩ := injectTop_spec hsc (hred rfl)
          refine Or.inr ⟨by omega,by simp,w,hwf,hc,?_⟩
          rw [Option.map_none] at hw
          simp only [pure_bind]
          rw [hw,Res.ok_bind]
          rfl
        | some h =>
          by_cases hh1 : 1024 < h
          · refine Or.inl ⟨Or.inr ⟨h,rfl,hh1⟩,?_⟩
            simp only [pure_bind]
            rw [twoPower_overflow hh1]
            rfl
          · have hle := hl.le hr.pos rfl rfl
            obtain ⟨w,hw,hwf,hc⟩ := injectTop_spec hsc (hred rfl)
            refine Or.inr ⟨by omega,by rintro _ ⟨⟩; omega,w,hwf,hc,?_⟩
            rw [Option.map_some] at hw
            simp only [pure_bind]
            rw [twoPower_ok (by omega) (by omega),Res.ok_bind,pure_bind,hw,Res.ok_bind]
            rfl

theorem shiftAux_sound (hsc : 2 ≤ sc) (hx : Wf sc x) (hy : Wf sc y) {S : ℤ → ℤ → ℤ}
    (hsign : ∀ a f, 1 ≤ f → (0 ≤ a → 0 ≤ S a f) ∧ (a ≤ 0 → S a f ≤ 0))
    (hscale : ∀ f, 1 ≤ f → ∃ v, scale f x = .ok v ∧ Wf sc v ∧ ∀ a ∈ concr x, S a f ∈ concr v)
    (hop : ∀ k mx r m w, Wf sc (.topItv (some k) mx r m) → (∀ n, n ∈ prog (some k) mx r m ↔ n ∈ concr y ∧ 0 ≤ n) →
      (∀ h ∈ mx, h ≤ 1024) → Wf sc w →
      concr w = prog (some (2 ^ k.toNat)) (mx.map fun n => 2 ^ n.toNat) 0 (2 ^ k.toNat) →
      ∃ v, op x w = .ok v ∧ ∀ n ∈ prog (some k) mx r m, ∀ a ∈ concr x, S a (2 ^ n.toNat) ∈ concr v) :
    ∃ v, shiftAux sc scale op x y = .ok v ∧ ∀ a ∈ concr x, ∀ n ∈ concr y, 0 ≤ n → S a (2 ^ n.toNat) ∈ concr v := by
  have hhandler : ∀ a ∈ concr x, ∀ n, S a (2 ^ n) ∈ concr (shiftHandler x) := by
    intro a ha n
    obtain ⟨hp,hn⟩ := hsign a (2 ^ n) (one_le_pow₀ (by omega))
    exact mem_shiftHandler hsc hx ha hp hn
  obtain ⟨z,hzw,hmem,hpath⟩ := shiftAux_paths hsc hy scale op x
  rcases hpath with ⟨s,rfl,heq⟩ | ⟨k,mx,r,m,rfl,⟨_,heq⟩ | ⟨_,hmx,w,hww,hwc,heq⟩⟩
  · have hfold : Sat (fun v => Wf sc v ∧ (∀ n ∈ s, ∀ a ∈ concr x, S a (2 ^ n.toNat) ∈ concr v) ∧
        ∀ n : ℤ, (∀ a ∈ concr x, S a (2 ^ n.toNat) ∈ concr bottom) → ∀ a ∈ concr x, S a (2 ^ n.toNat) ∈ concr v)
        (fun e => e = .overflow)
        (s.foldlM (fun acc n => do join sc acc (← scale (← twoPower n) x)) bottom) := by
      refine Sat.foldlM_covers (G := fun (n : ℤ) v => ∀ a ∈ concr x, S a (2 ^ n.toNat) ∈ concr v) (wf_bottom sc)
        fun acc n hn hacc => ?_
      rcases twoPower_nonneg ((hmem n).1 hn).2 with h | h
      · obtain ⟨q,hq,hqw,hqm⟩ := hscale _ (one_le_twoPow n)
        obtain ⟨j,hj,hjw,hhull⟩ := join_spec hsc hacc hqw
        rw [h,Res.ok_bind,hq,Res.ok_bind,hj]
        exact ⟨hjw,fun a ha => hhull.1 (Or.inr (hqm a ha)),fun c hc a ha => hhull.1 (Or.inl (hc a ha))⟩
      · rw [h]
        rfl
    rw [heq]
    refine catchOverflow_sound ?_ (hfold.mono ?_ fun _ h => h)
    · intro a ha n _ _
      exact hhandler a ha _
    · rintro v ⟨_,hv,_⟩ a ha n hn h0
      exact hv n ((hmem n).2 ⟨hn,h0⟩) a ha
  · exact ⟨_,heq,fun a ha n _ _ => hhandler a ha _⟩
  · obtain ⟨v,hv,hvm⟩ := hop k mx r m w hzw hmem hmx hww hwc
    refine ⟨v,by rw [heq,hv]; rfl,?_⟩
    intro a ha n hn h0
    exact hvm n ((hmem n).2 ⟨hn,h0⟩) a ha

theorem twoPow_mem_factors {k r m n : ℤ} {mx : Option ℤ} (hn : n ∈ prog (some k) mx r m) :
    (2 : ℤ) ^ n.toNat ∈ prog (some (2 ^ k.toNat)) (mx.map fun n => 2 ^ n.toNat) 0 (2 ^ k.toNat) := by
  obtain ⟨_,hlo,hhi⟩ := hn
  refine ⟨Int.emod_eq_zero_of_dvd (twoPow_dvd (hlo k rfl)),?_,?_⟩
  · rintro _ ⟨⟩
    exact twoPow_le (hlo k rfl)
  · intro c hc
    obtain ⟨b,hb,rfl⟩ := Option.mem_map.mp hc
    exact twoPow_le (hhi b hb)

theorem shiftLeft_sound (hsc : 2 ≤ sc) (hx : Wf sc x) (hy : Wf sc y) : ∃ v, shiftLeft sc x y = .ok v ∧
    ∀ a ∈ concr x, ∀ n ∈ concr y, 0 ≤ n → a * 2 ^ n.toNat ∈ concr v := by
  refine shiftAux_sound (S := fun a f => a * f) hsc hx hy ?_ ?_ ?_
  · intro a f hf
    exact ⟨fun h => mul_nonneg h (by omega),fun h => mul_nonpos_of_nonpos_of_nonneg h (by omega)⟩
  · intro f _
    exact ⟨_,rfl,scale_wf hsc hx f,fun a ha => Ival.scale_sound hx f ha⟩
  · intro k mx r m w _ _ _ hw hwc
    obtain ⟨v,hv,_⟩ := mul_wf hsc hx hw
    refine ⟨v,hv,?_⟩
    intro n hn a ha
    refine mul_sound hsc hx hw hv ha ?_
    rw [hwc]
    exact twoPow_mem_factors hn

/-- The shifts whose wide path rounds towards zero: the counts are bounded and too many for a small set, and the least
factor does not divide the least member of a bounded operand, which is negative. -/
def RoundsTowardsZero (sc : ℕ) (x y : Ival) : Prop :=
  ∃ k h xmn xmx, IsLeast {n | n ∈ concr y ∧ 0 ≤ n} k ∧ IsGreatest {n | n ∈ concr y ∧ 0 ≤ n} h ∧ h ≤ 1024 ∧
    sc < Set.ncard {n | n ∈ concr y ∧ 0 ≤ n} ∧ IsLeast (concr x) xmn ∧ IsGreatest (concr x) xmx ∧ xmn < 0 ∧
    ¬ (2 : ℤ) ^ k.toNat ∣ xmn

theorem minAndMax_extrema (hx : Wf sc x) {mn mx : Option ℤ} (h : minAndMax x = .ok (mn,mx)) :
    (∀ c, c ∈ mn ↔ IsLeast (concr x) c) ∧ ∀ c, c ∈ mx ↔ IsGreatest (concr x) c := by
  cases x with
  | set s =>
    rw [minAndMax] at h
    split at h
    · cases h
    · rename_i hs
      cases h
      have hne : s ≠ [] := fun he => hs (by rw [he]; rfl)
      have hlo : IsLeast (concr (.set s)) (s.headD 0) := ⟨headD_mem hne,fun c hc => head_le_of_pairwise hx.1 hc⟩
      have hhi : IsGreatest (concr (.set s)) (s.getLastD 0) :=
        ⟨getLastD_mem hne,fun c hc => le_last_of_pairwise hx.1 hc⟩
      refine ⟨?_,?_⟩
      · intro c
        rw [Option.mem_some_iff]
        exact ⟨fun he => he ▸ hlo,fun hc => hlo.unique hc⟩
      · intro c
        rw [Option.mem_some_iff]
        exact ⟨fun he => he ▸ hhi,fun hc => hhi.unique hc⟩
  | topItv mn' mx' r m =>
    cases h
    obtain ⟨hr,hl⟩ := wf_topItv_iff.mp hx
    refine ⟨?_,?_⟩
    · intro c
      cases mn with
      | none =>
        constructor
        · rintro ⟨⟩
        · intro hc
          obtain ⟨d,hd,hlt⟩ := hr.unbounded_below (c - 1)
          have := hc.2 hd
          omega
      | some b =>
        have hlo : IsLeast (concr (.topItv (some b) mx r m)) b :=
          ⟨hr.lower_mem fun d hd => hl.le hr.pos rfl hd,fun d hd => hd.2.1 b rfl⟩
        rw [Option.mem_some_iff]
        exact ⟨fun he => he ▸ hlo,fun hc => hlo.unique hc⟩
    · intro c
      cases mx with
      | none =>
        constructor
        · rintro ⟨⟩
        · intro hc
          obtain ⟨d,hd,hlt⟩ := hr.unbounded_above (c + 1)
          have := hc.2 hd
          omega
      | some b =>
        have hhi : IsGreatest (concr (.topItv mn (some b) r m)) b :=
          ⟨hr.upper_mem fun d hd => hl.le hr.pos hd rfl,fun d hd => hd.2.2 b rfl⟩
        rw [Option.mem_some_iff]
        exact ⟨fun he => he ▸ hhi,fun hc => hhi.unique hc⟩

theorem div_positive_range (hsc : 2 ≤ sc) {q : Ival} {mn mx r m : ℤ} (hqw : Wf sc q)
    (hq : divRange sc x mn mx = .ok q) (hmn : 0 < mn) (hmx : mn ≤ mx) :
    ∃ v, div sc x (.topItv (some mn) (some mx) r m) = .ok v ∧ concr v = concr q := by
  obtain ⟨v,hv,_,hhull⟩ := join_spec hsc (wf_bottom sc) hqw
  refine ⟨v,?_,?_⟩
  · have hp : divPos sc x mn mx r m = .ok q := by
      rw [divPos,if_pos (by omega)]
      simp only [if_pos hmn]
      exact hq
    have hn : divNeg sc x mn mx r m = .ok bottom := by
      rw [divNeg,if_neg (by omega)]
      rfl
    rw [div,hp,Res.ok_bind,hn,Res.ok_bind,hv]
  · refine Set.Subset.antisymm (hhull.2 q hqw ?_) (fun c hc => hhull.1 (Or.inr hc))
    rintro c (hc | hc)
    · cases hc
    · exact hc

theorem wf_factors {k h r m : ℤ} (hz : Wf sc (.topItv (some k) (some h) r m)) (hk : 0 ≤ k) :
    Wf sc (.topItv (some (2 ^ k.toNat)) (some (2 ^ h.toNat)) 0 (2 ^ k.toNat)) := by
  obtain ⟨hr,hl⟩ := wf_topItv_iff.mp hz
  have hle := hl.le hr.pos rfl rfl
  have h1 := one_le_twoPow k
  have hcount : (sc : ℤ) ≤ h - k := by
    have hlen := hl k rfl h rfl
    have : (sc : ℤ) * 1 ≤ sc * m := Int.mul_le_mul_of_nonneg_left hr.pos (by omega)
    omega
  refine ⟨h1,le_rfl,by omega,by rintro _ ⟨⟩; exact Int.emod_self,?_,?_⟩
  · rintro _ ⟨⟩
    exact Int.emod_eq_zero_of_dvd (twoPow_dvd hle)
  · rintro _ ⟨⟩ _ ⟨⟩
    rw [lt_card_iff h1]
    have hsplit : (2 : ℤ) ^ h.toNat = 2 ^ k.toNat * 2 ^ (h.toNat - k.toNat) := by
      rw [← pow_add]
      congr 1
      omega
    have hlt : ((h.toNat - k.toNat : ℕ) : ℤ) + 1 ≤ 2 ^ (h.toNat - k.toNat) := by
      exact_mod_cast Nat.lt_two_pow_self
    have hmul := Int.mul_le_mul_of_nonneg_left (by omega : (sc : ℤ) + 1 ≤ 2 ^ (h.toNat - k.toNat))
      (by omega : (0 : ℤ) ≤ 2 ^ k.toNat)
    rw [mul_add,mul_one] at hmul
    rw [hsplit,mul_comm]
    omega

theorem ediv_mono_of_neg {c y1 y2 : ℤ} (hc : c < 0) (h1 : 0 < y1) (h : y1 ≤ y2) : c / y1 ≤ c / y2 := by
  rw [Int.le_ediv_iff_mul_le (by omega)]
  have h0 : c / y1 < 0 := Int.ediv_neg_of_neg_of_pos hc h1
  calc c / y1 * y2 ≤ c / y1 * y1 := Int.mul_le_mul_of_nonpos_left h0.le h
    _ ≤ c := Int.ediv_mul_le c (by omega)

theorem ediv_le_tdiv {a f : ℤ} (hf : 0 < f) : a / f ≤ a.tdiv f := by
  rw [Int.tdiv_eq_ediv,Int.sign_eq_one_of_pos hf]
  split <;> omega

theorem ediv_corners {a b x1 x2 y1 y2 : ℤ} (ha1 : x1 ≤ a) (ha2 : a ≤ x2) (h1 : 0 < y1) (hb1 : y1 ≤ b) (hb2 : b ≤ y2)
    (hx1 : 0 ≤ x1 ∨ y1 ∣ x1) :
    min (min (x1.tdiv y1) (x2.tdiv y1)) (min (x1.tdiv y2) (x2.tdiv y2)) ≤ a / b ∧
      a / b ≤ max (max (x1.tdiv y1) (x2.tdiv y1)) (max (x1.tdiv y2) (x2.tdiv y2)) := by
  obtain ⟨hlo,hhi⟩ := tdiv_corners ha1 ha2 h1 hb1 hb2
  refine ⟨?_,(ediv_le_tdiv (by omega)).trans hhi⟩
  rcases le_or_gt 0 a with ha | ha
  · rw [Int.tdiv_eq_ediv_of_nonneg ha] at hlo
    exact hlo
  · have hd : y1 ∣ x1 := hx1.resolve_left (by omega)
    have hq : x1.tdiv y1 ≤ a / b := by
      rw [Int.tdiv_eq_ediv_of_dvd hd]
      exact (ediv_mono_of_neg (by omega) h1 hb1).trans (Int.ediv_le_ediv (by omega) ha1)
    omega

theorem ediv_lt_corners {x1 x2 y1 y2 : ℤ} (hx : x1 ≤ x2) (h1 : 0 < y1) (h2 : y1 ≤ y2) (hneg : x1 < 0)
    (hd : ¬ y1 ∣ x1) : x1 / y1 < min (min (x1.tdiv y1) (x2.tdiv y1)) (min (x1.tdiv y2) (x2.tdiv y2)) := by
  have hlt : x1 / y1 < x1.tdiv y1 := by
    rw [Int.tdiv_eq_ediv,Int.sign_eq_one_of_pos h1,if_neg]
    · omega
    · rintro (h | h)
      · omega
      · exact hd h
  have h3 := tdiv_le_tdiv h1 hx
  have h4 := tdiv_le_tdiv (by omega : 0 < y2) hx
  have h5 : x1.tdiv y1 ≤ x1.tdiv y2 := by
    have h6 := ediv_anti (by omega : 0 ≤ -x1) h1 h2
    have hn : ∀ d : ℤ, x1.tdiv d = -(-x1 / d) := by
      intro d
      rw [← Int.tdiv_eq_ediv_of_nonneg (by omega),Int.neg_tdiv,neg_neg]
    rw [hn,hn]
    omega
  omega

theorem divRange_of_bounds {x1 x2 ymn ymx : ℤ} (h : minAndMax x = .ok (some x1,some x2)) (hmn : ymn ≠ 0) (hmx : ymx ≠ 0) :
    divRange sc x ymn ymx = injectRange sc
      (some (min (min (x1.tdiv ymn) (x2.tdiv ymn)) (min (x1.tdiv ymx) (x2.tdiv ymx))))
      (some (max (max (x1.tdiv ymn) (x2.tdiv ymn)) (max (x1.tdiv ymx) (x2.tdiv ymx)))) := by
  rw [divRange,h,Res.ok_bind]
  simp only [cDiv,if_neg hmn,if_neg hmx,Res.ok_bind]

theorem div_factors_top (hsc : 2 ≤ sc) {S : ℤ → ℤ → ℤ} {k h r m : ℤ} {w : Ival}
    (hz : Wf sc (.topItv (some k) (some h) r m)) (hk : 0 ≤ k) (hw : Wf sc w)
    (hwc : concr w = prog (some (2 ^ k.toNat)) (some (2 ^ h.toNat)) 0 (2 ^ k.toNat))
    (hb : divRange sc x (2 ^ k.toNat) (2 ^ h.toNat) = .ok top) :
    ∃ v, div sc x w = .ok v ∧ ∀ n ∈ prog (some k) (some h) r m, ∀ a ∈ concr x, S a (2 ^ n.toNat) ∈ concr v := by
  obtain ⟨hr,hl⟩ := wf_topItv_iff.mp hz
  have h1 := one_le_twoPow k
  have h2 := twoPow_le (hl.le hr.pos rfl rfl)
  have hweq : w = .topItv (some (2 ^ k.toNat)) (some (2 ^ h.toNat)) 0 (2 ^ k.toNat) :=
    eq_of_concr_eq hsc hw (wf_factors hz hk) hwc
  subst hweq
  obtain ⟨v,hv,hvq⟩ := div_positive_range (r := 0) (m := 2 ^ k.toNat) hsc (wf_top sc) hb (by omega) h2
  refine ⟨v,hv,?_⟩
  intro n _ a _
  rw [hvq]
  exact mem_top _

theorem div_factors (hsc : 2 ≤ sc) {k h r m x1 x2 : ℤ} {w : Ival}
    (hz : Wf sc (.topItv (some k) (some h) r m)) (hk : 0 ≤ k) (hw : Wf sc w)
    (hwc : concr w = prog (some (2 ^ k.toNat)) (some (2 ^ h.toNat)) 0 (2 ^ k.toNat))
    (hb : minAndMax x = .ok (some x1,some x2)) : ∃ v, div sc x w = .ok v ∧ ∀ c, c ∈ concr v ↔
      min (min (x1.tdiv (2 ^ k.toNat)) (x2.tdiv (2 ^ k.toNat))) (min (x1.tdiv (2 ^ h.toNat)) (x2.tdiv (2 ^ h.toNat))) ≤ c ∧
      c ≤ max (max (x1.tdiv (2 ^ k.toNat)) (x2.tdiv (2 ^ k.toNat)))
        (max (x1.tdiv (2 ^ h.toNat)) (x2.tdiv (2 ^ h.toNat))) := by
  obtain ⟨hr,hl⟩ := wf_topItv_iff.mp hz
  have h1 := one_le_twoPow k
  have h2 := twoPow_le (hl.le hr.pos rfl rfl)
  have hweq : w = .topItv (some (2 ^ k.toNat)) (some (2 ^ h.toNat)) 0 (2 ^ k.toNat) :=
    eq_of_concr_eq hsc hw (wf_factors hz hk) hwc
  subst hweq
  obtain ⟨q,hq,hqw,hqc⟩ := injectRange_spec hsc
    (some (min (min (x1.tdiv (2 ^ k.toNat)) (x2.tdiv (2 ^ k.toNat))) (min (x1.tdiv (2 ^ h.toNat)) (x2.tdiv (2 ^ h.toNat)))))
    (some (max (max (x1.tdiv (2 ^ k.toNat)) (x2.tdiv (2 ^ k.toNat)))
      (max (x1.tdiv (2 ^ h.toNat)) (x2.tdiv (2 ^ h.toNat)))))
  rw [← divRange_of_bounds hb (by omega) (by omega)] at hq
  obtain ⟨v,hv,hvq⟩ := div_positive_range (r := 0) (m := 2 ^ k.toNat) hsc hqw hq (by omega) h2
  refine ⟨v,hv,?_⟩
  intro c
  rw [hvq,hqc]
  constructor
  · rintro ⟨_,hlo,hhi⟩
    exact ⟨hlo _ rfl,hhi _ rfl⟩
  · rintro ⟨hlo,hhi⟩
    exact ⟨Int.emod_one c,by rintro _ ⟨⟩; exact hlo,by rintro _ ⟨⟩; exact hhi⟩

theorem lt_ncard_prog {k h r m : ℤ} (hz : Wf sc (.topItv (some k) (some h) r m)) :
    sc < Set.ncard (prog (some k) (some h) r m) := by
  obtain ⟨hr,hl⟩ := wf_topItv_iff.mp hz
  by_contra hle
  have hfin : (prog (some k) (some h) r m).Finite :=
    (Set.finite_Icc k h).subset fun c hc => ⟨hc.2.1 k rfl,hc.2.2 h rfl⟩
  refine hr.not_subset_list hl (l := hfin.toFinset.toList) ?_ fun c hc => ?_
  · rw [Finset.length_toList,← Set.ncard_eq_toFinset_card _ hfin]
    omega
  · simpa using hc

theorem ncard_set_le {s : List ℤ} (h : Wf sc (.set s)) : Set.ncard (concr (.set s)) ≤ sc := by
  have heq : concr (.set s) = (s.toFinset : Set ℤ) := by
    ext c
    simp
  rw [heq,Set.ncard_coe_finset]
  exact (List.toFinset_card_le s).trans h.2

theorem shiftRight_sound (hsc : 2 ≤ sc) (hx : Wf sc x) (hne : x ≠ bottom) (hy : Wf sc y)
    (hround : ¬ RoundsTowardsZero sc x y) : ∃ v, shiftRight sc x y = .ok v ∧
      ∀ a ∈ concr x, ∀ n ∈ concr y, 0 ≤ n → a / 2 ^ n.toNat ∈ concr v := by
  refine shiftAux_sound (S := fun a f => a / f) hsc hx hy ?_ ?_ ?_
  · intro a f hf
    refine ⟨fun h => Int.ediv_nonneg h (by omega),fun h => ?_⟩
    exact (Int.ediv_le_ediv (by omega) h).trans (by rw [Int.zero_ediv])
  · intro f hf
    obtain ⟨v,hv,hw⟩ := scaleDiv_wf hsc hx true (f := f) (by omega)
    exact ⟨v,hv,hw,fun a ha => scaleDiv_sound hsc hx (by omega) hv ha⟩
  · intro k mx r m w hz hmem hmx hw hwc
    obtain ⟨hr,hl⟩ := wf_topItv_iff.mp hz
    have hk : 0 ≤ k := ((hmem k).1 (hr.lower_mem fun b hb => hl.le hr.pos rfl hb)).2
    obtain ⟨⟨mn,mx'⟩,hb⟩ := minAndMax_ok hne
    cases mx with
    | none =>
      have hweq : w = .topItv (some (2 ^ k.toNat)) none 0 (2 ^ k.toNat) := by
        refine eq_of_concr_eq hsc hw (wf_topItv_iff.mpr ⟨⟨one_le_twoPow k,le_rfl,?_,?_,by simp⟩,by simp [Long]⟩) hwc
        · have := one_le_twoPow k
          omega
        · rintro _ ⟨⟩
          exact Int.emod_self
      subst hweq
      exact ⟨top,rfl,fun n _ a _ => mem_top _⟩
    | some h =>
      obtain ⟨hlo,hhi⟩ := minAndMax_extrema hx hb
      have hset : {n | n ∈ concr y ∧ 0 ≤ n} = prog (some k) (some h) r m := Set.ext fun n => (hmem n).symm
      cases mn with
      | none => exact div_factors_top hsc hz hk hw hwc (by rw [divRange,hb]; rfl)
      | some x1 =>
        cases mx' with
        | none => exact div_factors_top hsc hz hk hw hwc (by rw [divRange,hb]; rfl)
        | some x2 =>
          have hx1 : 0 ≤ x1 ∨ (2 : ℤ) ^ k.toNat ∣ x1 := by
            by_contra hcon
            rw [not_or,not_le] at hcon
            refine hround ⟨k,h,x1,x2,?_,?_,hmx h rfl,?_,(hlo x1).1 rfl,(hhi x2).1 rfl,hcon.1,hcon.2⟩
            · rw [hset]
              exact ⟨hr.lower_mem fun b hb => hl.le hr.pos rfl hb,fun d hd => hd.2.1 k rfl⟩
            · rw [hset]
              exact ⟨hr.upper_mem fun b hb => hl.le hr.pos hb rfl,fun d hd => hd.2.2 h rfl⟩
            · rw [hset]
              exact lt_ncard_prog hz
          obtain ⟨v,hv,hvm⟩ := div_factors hsc hz hk hw hwc hb
          refine ⟨v,hv,?_⟩
          rintro n ⟨_,hn1,hn2⟩ a ha
          have h1 := one_le_twoPow k
          rw [hvm]
          exact ediv_corners (((hlo x1).1 rfl).2 ha) (((hhi x2).1 rfl).2 ha) (by omega) (twoPow_le (hn1 k rfl))
            (twoPow_le (hn2 h rfl)) hx1

theorem shiftRight_misses (hsc : 2 ≤ sc) (hx : Wf sc x) (hy : Wf sc y) (hround : RoundsTowardsZero sc x y) :
    ∃ v, shiftRight sc x y = .ok v ∧ ∃ a ∈ concr x, ∃ n ∈ concr y, 0 ≤ n ∧ a / 2 ^ n.toNat ∉ concr v := by
  obtain ⟨k,h,x1,x2,hk,hh,hh1,hcard,hx1,hx2,hneg,hd⟩ := hround
  have hne : x ≠ bottom := by
    rintro rfl
    exact absurd hx1.1 List.not_mem_nil
  obtain ⟨z,hzw,hmem,hpath⟩ := shiftAux_paths hsc hy (scaleDiv sc true) (div sc) x
  have hset : {n | n ∈ concr y ∧ 0 ≤ n} = concr z := Set.ext fun n => (hmem n).symm
  rw [hset] at hk hh hcard
  rcases hpath with ⟨s,rfl,_⟩ | ⟨k',mx,r,m,rfl,hpath⟩
  · have := ncard_set_le hzw
    omega
  obtain ⟨hr,hl⟩ := wf_topItv_iff.mp hzw
  have hk' : k' = k := IsLeast.unique
    ⟨hr.lower_mem fun b hb => hl.le hr.pos rfl hb,fun d hd => hd.2.1 k' rfl⟩ hk
  subst hk'
  have hmx : mx = some h := by
    cases mx with
    | none =>
      obtain ⟨d,hd,hlt⟩ := hr.unbounded_above (h + 1)
      have := hh.2 hd
      omega
    | some h' =>
      have hu : h' = h := IsGreatest.unique
        ⟨hr.upper_mem fun b hb => hl.le hr.pos hb rfl,fun d hd => hd.2.2 h' rfl⟩ hh
      rw [hu]
  subst hmx
  have hkh := hl.le hr.pos rfl rfl
  rcases hpath with ⟨hover,_⟩ | ⟨_,_,w,hww,hwc,heq⟩
  · rcases hover with hover | ⟨_,⟨⟩,hover⟩
    · omega
    · omega
  · obtain ⟨⟨mn,mx⟩,hb⟩ := minAndMax_ok hne
    obtain ⟨hlo,hhi⟩ := minAndMax_extrema hx hb
    have hmn : mn = some x1 := (hlo x1).2 hx1
    have hmx : mx = some x2 := (hhi x2).2 hx2
    subst hmn hmx
    obtain ⟨v,hv,hvm⟩ := div_factors hsc hzw ((hmem k').1 hk.1).2 hww hwc hb
    refine ⟨v,?_,x1,hx1.1,k',((hmem k').1 hk.1).1,((hmem k').1 hk.1).2,?_⟩
    · rw [shiftRight,heq,hv]
      rfl
    · have h1 := one_le_twoPow k'
      have hlt := ediv_lt_corners (hx1.2 hx2.1) (by omega) (twoPow_le hkh) hneg hd
      rw [hvm]
      omega

end Shift

/-- Both shifts contain the shifts of the members by the non-negative counts, exactly when the right shift does not round
towards zero. -/
theorem shift_sound_iff {sc : ℕ} (hsc : 2 ≤ sc) {x y : Ival} (hx : Wf sc x) (hy : Wf sc y) :
    (∀ a ∈ concr x, ∀ n ∈ concr y, 0 ≤ n →
      (∃ v, shiftLeft sc x y = .ok v ∧ a * 2 ^ n.toNat ∈ concr v) ∧
      ∃ v, shiftRight sc x y = .ok v ∧ a / 2 ^ n.toNat ∈ concr v) ↔ ¬ RoundsTowardsZero sc x y := by
  constructor
  · intro h hround
    obtain ⟨v,hv,a,ha,n,hn,h0,hmiss⟩ := shiftRight_misses hsc hx hy hround
    obtain ⟨_,v',hv',hmem⟩ := h a ha n hn h0
    rw [hv] at hv'
    cases hv'
    exact hmiss hmem
  · intro hround a ha n hn h0
    have hne : x ≠ bottom := by
      rintro rfl
      exact absurd ha List.not_mem_nil
    obtain ⟨v,hv,hmem⟩ := shiftLeft_sound hsc hx hy
    obtain ⟨v',hv',hmem'⟩ := shiftRight_sound hsc hx hne hy hround
    exact ⟨⟨v,hv,hmem a ha n hn h0⟩,v',hv',hmem' a ha n hn h0⟩

theorem shift_sound_iff_half_line :
    ∃ v, shiftRight 8 (.topItv none (some 5) 1 4) (.topItv (some 1) (some 20) 0 1) = .ok v ∧ -3 / 2 ^ 1 ∈ concr v := by
  have hx : Wf 8 (.topItv none (some 5) 1 4) := ⟨by decide,by decide,by decide,by simp,by simp,by simp⟩
  have hy : Wf 8 (.topItv (some 1) (some 20) 0 1) := ⟨by decide,by decide,by decide,by simp,by simp,by simp⟩
  have hround : ¬ RoundsTowardsZero 8 (.topItv none (some 5) 1 4) (.topItv (some 1) (some 20) 0 1) := by
    rintro ⟨_,_,xmn,_,_,_,_,_,hmn,_⟩
    obtain ⟨d,hd,hlt⟩ := (wf_topItv_iff.mp hx).1.unbounded_below (xmn - 1)
    have := hmn.2 hd
    omega
  exact ((shift_sound_iff (by decide) hx hy).2 hround (-3) ⟨by decide,by simp,by simp⟩ 1 ⟨by decide,by simp,by simp⟩
    (by decide)).2

theorem shiftRight_truncates :
    Wf 8 (.set [-3]) ∧ Wf 8 (.topItv (some 1) (some 20) 0 1) ∧ -3 ∈ concr (.set [-3]) ∧
      1 ∈ concr (.topItv (some 1) (some 20) 0 1) ∧
      shiftRight 8 (.set [-3]) (.topItv (some 1) (some 20) 0 1) = .ok (.set [-1,0]) ∧
      -3 / 2 ^ 1 ∉ concr (.set [-1,0]) := by
  refine ⟨⟨by simp,by decide⟩,⟨by decide,by decide,by decide,by simp,by simp,by simp⟩,by simp,?_,?_,by simp⟩
  · exact ⟨by decide,by simp,by simp⟩
  · with_unfolding_all rfl

end FramaC.Ival
