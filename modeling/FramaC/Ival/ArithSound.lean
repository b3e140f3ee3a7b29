import FramaC.Ival.Arith

/-! # Soundness of the additive and multiplicative operations

Opposites, translations and scalings are exact; sums and products contain every sum and product of members. The bounds
of a product are those of the four products of bounds on the extended line.
-/
namespace FramaC.Ival
open Integer Progression

section Images
variable {sc : ℕ} {s : List ℤ} {y : ℤ}

theorem mem_applyBin1StrictIncr {f : ℤ → ℤ → ℤ} {x : ℤ} :
    y ∈ concr (applyBin1StrictIncr f x s) ↔ ∃ a ∈ s, f x a = y := by
  have hl : s.length = (s.map (f x)).length := by simp
  rw [applyBin1StrictIncr,hl,shareArray_eq,mem_concr_set,List.mem_map]

theorem mem_mapSetStrictDecr {f : ℤ → ℤ} : y ∈ concr (mapSetStrictDecr f s) ↔ ∃ a ∈ s, f a = y := by
  have hl : s.length = (s.map f).reverse.length := by simp
  rw [mapSetStrictDecr,hl,shareArray_eq,mem_concr_set,List.mem_reverse,List.mem_map]

theorem mem_applyBin1StrictDecr {f : ℤ → ℤ → ℤ} {x : ℤ} :
    y ∈ concr (applyBin1StrictDecr f x s) ↔ ∃ a ∈ s, f x a = y :=
  mem_mapSetStrictDecr

end Images

section Additive
variable {sc : ℕ} {v v1 v2 : Ival}

theorem mem_addSingletonInt (h : Wf sc v) (i : ℤ) {y : ℤ} :
    y ∈ concr (addSingletonInt i v) ↔ ∃ a ∈ concr v, y = i + a := by
  cases v with
  | set s =>
    rw [addSingletonInt,mem_applyBin1StrictIncr]
    constructor
    · rintro ⟨a,ha,rfl⟩
      exact ⟨a,ha,rfl⟩
    · rintro ⟨a,ha,rfl⟩
      exact ⟨a,ha,rfl⟩
  | topItv mn mx r m =>
    have hr := (wf_topItv_iff.mp h).1.mem_affine_incr (f := 1) (c := i) one_pos (y := y)
    simp only [one_mul,add_comm _ i] at hr
    simp only [addSingletonInt,opt1_eq_map,shareTop,concr_topItv]
    exact hr

theorem mem_negInt (h : Wf sc v) {y : ℤ} : y ∈ concr (negInt v) ↔ ∃ a ∈ concr v, y = -a := by
  cases v with
  | set s =>
    rw [negInt,mem_mapSetStrictDecr]
    constructor
    · rintro ⟨a,ha,rfl⟩
      exact ⟨a,ha,rfl⟩
    · rintro ⟨a,ha,rfl⟩
      exact ⟨a,ha,rfl⟩
  | topItv mn mx r m =>
    have hr := (wf_topItv_iff.mp h).1.mem_affine_decr (f := -1) (c := 0) (by omega) (y := y)
    simp only [neg_neg,one_mul,neg_mul,add_zero] at hr
    simp only [negInt,opt1_eq_map,shareTop,concr_topItv]
    exact hr

theorem addTops_sound (hsc : 2 ≤ sc) {mn1 mx1 mn2 mx2 : Option ℤ} {r1 m1 r2 m2 : ℤ} (hm1 : 1 ≤ m1) {a b : ℤ}
    (ha : a ∈ prog mn1 mx1 r1 m1) (hb : b ∈ prog mn2 mx2 r2 m2) {v : Ival}
    (hv : addTops sc mn1 mx1 r1 m1 mn2 mx2 r2 m2 = .ok v) : a + b ∈ concr v := by
  have hm : 1 ≤ pgcd m1 m2 := one_le_pgcd_left hm1
  have h0 : 0 ≤ (r1 + r2) % pgcd m1 m2 := Int.emod_nonneg _ (by omega)
  have hlt : (r1 + r2) % pgcd m1 m2 < pgcd m1 m2 := Int.emod_lt_of_pos _ (by omega)
  obtain ⟨w,hw,_,hc⟩ := injectTop_spec hsc
    (reduced_round (opt2 (· + ·) mn1 mn2) (opt2 (· + ·) mx1 mx2) h0 hlt)
  have hvw : addTops sc mn1 mx1 r1 m1 mn2 mx2 r2 m2 = .ok w := hw
  rw [hv] at hvw
  cases hvw
  rw [hc]
  obtain ⟨hac,hamn,hamx⟩ := ha
  obtain ⟨hbc,hbmn,hbmx⟩ := hb
  have hcls : (a + b) % pgcd m1 m2 = (r1 + r2) % pgcd m1 m2 := by
    rw [← hac,← hbc,Int.add_emod,Int.add_emod (a % m1),Int.emod_emod_of_dvd _ (pgcd_dvd_left m1 m2),
      Int.emod_emod_of_dvd _ (pgcd_dvd_right m1 m2)]
  refine ⟨hcls,?_,?_⟩
  · intro c hcm
    obtain ⟨d,hd,rfl⟩ := Option.mem_map.mp hcm
    cases mn1 with
    | none => cases hd
    | some c1 =>
      cases mn2 with
      | none => cases hd
      | some c2 =>
        cases hd
        exact roundUpToR_le (by omega) hcls (add_le_add (hamn c1 rfl) (hbmn c2 rfl))
  · intro c hcm
    obtain ⟨d,hd,rfl⟩ := Option.mem_map.mp hcm
    cases mx1 with
    | none => cases hd
    | some c1 =>
      cases mx2 with
      | none => cases hd
      | some c2 =>
        cases hd
        exact le_roundDownToR (by omega) hcls (add_le_add (hamx c1 rfl) (hbmx c2 rfl))

theorem eq_headD_of_length {s : List ℤ} (h : s.length = 1) {a : ℤ} (ha : a ∈ s) : a = s.headD 0 := by
  obtain ⟨x,rfl⟩ := List.length_eq_one_iff.mp h
  exact List.mem_singleton.mp ha

theorem addSetTop_sound (hsc : 2 ≤ sc) {s : List ℤ} {mn mx : Option ℤ} {r m : ℤ} (h1 : Wf sc (.set s))
    (h2 : Wf sc (.topItv mn mx r m)) {a b : ℤ} (ha : a ∈ s) (hb : b ∈ prog mn mx r m) {v : Ival}
    (hv : addSetTop sc s mn mx r m = .ok v) : b + a ∈ concr v := by
  simp only [addSetTop] at hv
  split at hv
  · rename_i hl
    rw [List.length_eq_zero_iff.mp hl] at ha
    cases ha
  · split at hv
    · rename_i hl
      cases hv
      exact (mem_addSingletonInt h2 _).2 ⟨b,hb,by rw [eq_headD_of_length hl ha,add_comm]⟩
    · rw [unsafeMakeTopFromArray4_ok h1.1 (by omega),Res.ok_bind] at hv
      exact addTops_sound hsc (wf_topItv_iff.mp h2).1.pos hb ((span_set h1.1 (by omega)).2.2 a ha) hv

theorem addInt_sound (hsc : 2 ≤ sc) (h1 : Wf sc v1) (h2 : Wf sc v2) {v : Ival} (hv : addInt sc v1 v2 = .ok v)
    {a b : ℤ} (ha : a ∈ concr v1) (hb : b ∈ concr v2) : a + b ∈ concr v := by
  unfold addInt at hv
  split at hv
  · cases hv
    rw [mem_concr_set,List.mem_singleton] at ha
    exact (mem_applyBin1StrictIncr).2 ⟨b,hb,by rw [ha]⟩
  · cases hv
    rw [mem_concr_set,List.mem_singleton] at hb
    exact (mem_applyBin1StrictIncr).2 ⟨a,ha,by rw [hb]; exact add_comm _ _⟩
  · cases hv
    exact (apply2N_spec hsc _ _ _).2 a ha b hb
  · exact addTops_sound hsc (wf_topItv_iff.mp h1).1.pos ha hb hv
  · rw [add_comm]
    exact addSetTop_sound hsc h1 h2 ha hb hv
  · exact addSetTop_sound hsc h2 h1 hb ha hv

theorem subInt_sound (hsc : 2 ≤ sc) (h1 : Wf sc v1) (h2 : Wf sc v2) {v : Ival} (hv : subInt sc v1 v2 = .ok v)
    {a b : ℤ} (ha : a ∈ concr v1) (hb : b ∈ concr v2) : a - b ∈ concr v :=
  addInt_sound hsc h1 (negInt_wf h2) hv ha ((mem_negInt h2).2 ⟨b,hb,rfl⟩)

end Additive

section Multiplicative
variable {sc : ℕ} {v v1 v2 : Ival}

theorem mem_mulSetSingleton {s : List ℤ} {x y : ℤ} : y ∈ concr (mulSetSingleton s x) ↔ ∃ a ∈ s, y = a * x := by
  unfold mulSetSingleton
  split
  · rw [mem_applyBin1StrictIncr]
    constructor
    · rintro ⟨a,ha,rfl⟩
      exact ⟨a,ha,mul_comm x a⟩
    · rintro ⟨a,ha,rfl⟩
      exact ⟨a,ha,mul_comm x a⟩
  · rw [mem_applyBin1StrictDecr]
    constructor
    · rintro ⟨a,ha,rfl⟩
      exact ⟨a,ha,mul_comm x a⟩
    · rintro ⟨a,ha,rfl⟩
      exact ⟨a,ha,mul_comm x a⟩

theorem mem_scale (h : Wf sc v) {f : ℤ} (hf : f ≠ 0) {y : ℤ} : y ∈ concr (scale f v) ↔ ∃ a ∈ concr v, y = a * f := by
  unfold scale
  rw [if_neg (by simp [isZero,hf])]
  cases v with
  | set s => exact mem_mulSetSingleton
  | topItv mn mx r m =>
    have hr := (wf_topItv_iff.mp h).1
    simp only [opt1_eq_map,shareTop]
    split
    · rename_i hpos
      have haff := hr.mem_affine_incr (c := 0) hpos (y := y)
      simp only [add_zero] at haff
      rw [concr_topItv,haff]
      simp only [mul_comm f,concr_topItv]
    · have hneg : f < 0 := by omega
      have haff := hr.mem_affine_decr (c := 0) hneg (y := y)
      simp only [add_zero,neg_mul] at haff
      rw [concr_topItv,haff]
      simp only [mul_comm f,concr_topItv]

theorem scale_zero (v : Ival) : scale 0 v = zero := if_pos rfl

theorem scale_sound (h : Wf sc v) (f : ℤ) {a : ℤ} (ha : a ∈ concr v) : a * f ∈ concr (scale f v) := by
  by_cases hf : f = 0
  · subst hf
    rw [scale_zero,mul_zero]
    exact List.mem_singleton.mpr rfl
  · exact (mem_scale h hf).2 ⟨a,ha,rfl⟩

theorem exists_mem_of_wf (h : Wf sc v) (hne : v ≠ bottom) : ∃ a, a ∈ concr v := by
  cases v with
  | set s =>
    obtain ⟨a,ha⟩ := List.exists_mem_of_ne_nil s (fun hs => hne (by rw [hs]; rfl))
    exact ⟨a,ha⟩
  | topItv mn mx r m =>
    obtain ⟨hr,hl⟩ := wf_topItv_iff.mp h
    cases mn with
    | some a => exact ⟨a,hr.lower_mem fun b hb => hl.le hr.pos rfl hb⟩
    | none =>
      cases mx with
      | some b => exact ⟨b,hr.upper_mem (by simp)⟩
      | none => exact ⟨r,Int.emod_eq_of_lt hr.nonneg hr.lt,by simp,by simp⟩

theorem scale_exact (h : Wf sc v) (hne : v ≠ bottom) (f : ℤ) {y : ℤ} (hy : y ∈ concr (scale f v)) :
    ∃ a ∈ concr v, y = a * f := by
  by_cases hf : f = 0
  · subst hf
    obtain ⟨a,ha⟩ := exists_mem_of_wf h hne
    rw [scale_zero] at hy
    exact ⟨a,ha,by rw [List.mem_singleton.mp hy,mul_zero]⟩
  · exact (mem_scale h hf).1 hy

namespace ExtValue

@[grind =] def Le : ExtValue → ExtValue → Prop
  | ninf, _ => True
  | _, pinf => True
  | val x, val y => x ≤ y
  | _, _ => False

theorem Le.refl (x : ExtValue) : Le x x := by
  cases x <;> simp [Le]

theorem Le.trans {x y z : ExtValue} (h1 : Le x y) (h2 : Le y z) : Le x z := by
  cases x <;> cases y <;> cases z <;> simp_all [Le]
  omega

theorem extMin_le_left (x y : ExtValue) : Le (extMin x y) x := by
  cases x <;> cases y <;> simp [Le,extMin]

theorem extMin_le_right (x y : ExtValue) : Le (extMin x y) y := by
  cases x <;> cases y <;> simp [Le,extMin]

theorem le_extMax_left (x y : ExtValue) : Le x (extMax x y) := by
  cases x <;> cases y <;> simp [Le,extMax]

theorem le_extMax_right (x y : ExtValue) : Le y (extMax x y) := by
  cases x <;> cases y <;> simp [Le,extMax]

theorem extMul_comm (x y : ExtValue) : extMul x y = extMul y x := by
  cases x <;> cases y <;> simp [extMul,mul_comm]

theorem extMul_mono {e : ExtValue} (he : Le (val 0) e) {y z : ExtValue} (h : Le y z) :
    Le (extMul e y) (extMul e z) := by
  cases e with
  | ninf => cases he
  | pinf =>
    cases y with
    | ninf => simp [extMul,Le]
    | pinf =>
      cases z with
      | ninf => cases h
      | pinf => exact Le.refl _
      | val z => cases h
    | val y =>
      cases z with
      | ninf => cases h
      | pinf =>
        simp only [extMul]
        split_ifs <;> simp [Le,extNeg]
      | val z =>
        simp only [Le] at h
        simp only [extMul]
        split_ifs <;> simp [Le,extNeg] <;> omega
  | val v =>
    simp only [Le] at he
    cases y with
    | ninf =>
      cases z with
      | ninf => exact Le.refl _
      | pinf =>
        simp only [extMul]
        split_ifs <;> first | omega | simp [Le]
      | val z =>
        simp only [extMul]
        split_ifs
        · simp [Le]
        · omega
        · have hv : v = 0 := by omega
          simp [Le,hv]
    | pinf =>
      cases z with
      | ninf => cases h
      | pinf => exact Le.refl _
      | val z => cases h
    | val y =>
      cases z with
      | ninf => cases h
      | pinf =>
        simp only [extMul]
        split_ifs
        · simp [Le]
        · omega
        · have hv : v = 0 := by omega
          simp [Le,hv]
      | val z =>
        simp only [Le] at h
        simp only [extMul,Le]
        exact Int.mul_le_mul_of_nonneg_left h he

theorem extNeg_le {x y : ExtValue} (h : Le x y) : Le (extNeg y) (extNeg x) := by
  cases x <;> cases y <;> simp_all [Le,extNeg]

theorem extNeg_extNeg (x : ExtValue) : extNeg (extNeg x) = x := by
  cases x <;> simp [extNeg]

theorem extMul_extNeg (x y : ExtValue) : extMul (extNeg x) y = extNeg (extMul x y) := by
  cases x with
  | ninf =>
    cases y with
    | ninf => rfl
    | pinf => rfl
    | val y =>
      simp only [extMul,extNeg]
      split_ifs <;> simp
  | pinf =>
    cases y with
    | ninf => rfl
    | pinf => rfl
    | val y =>
      simp only [extMul,extNeg]
      split_ifs <;> simp
  | val x =>
    cases y with
    | ninf =>
      simp only [extMul,extNeg]
      split_ifs <;> first | omega | simp
    | pinf =>
      simp only [extMul,extNeg]
      split_ifs <;> first | omega | simp
    | val y => simp [extMul,extNeg]

theorem le_total_zero (e : ExtValue) : Le (val 0) e ∨ Le (val 0) (extNeg e) := by
  cases e with
  | ninf => exact Or.inr trivial
  | pinf => exact Or.inl trivial
  | val v =>
    simp only [Le,extNeg]
    omega

theorem extMul_between (e : ExtValue) {lo z hi : ExtValue} (hlo : Le lo z) (hhi : Le z hi) :
    Le (extMin (extMul e lo) (extMul e hi)) (extMul e z) ∧ Le (extMul e z) (extMax (extMul e lo) (extMul e hi)) := by
  rcases le_total_zero e with he | he
  · exact ⟨(extMin_le_left _ _).trans (extMul_mono he hlo),(extMul_mono he hhi).trans (le_extMax_right _ _)⟩
  · have hanti : ∀ {y y' : ExtValue}, Le y y' → Le (extMul e y') (extMul e y) := by
      intro y y' h
      have h' := extNeg_le (extMul_mono he h)
      rwa [extMul_extNeg,extMul_extNeg,extNeg_extNeg,extNeg_extNeg] at h'
    exact ⟨(extMin_le_right _ _).trans (hanti hhi),(hanti hlo).trans (le_extMax_left _ _)⟩

theorem le_extMin {x y z : ExtValue} (hx : Le z x) (hy : Le z y) : Le z (extMin x y) := by
  cases x <;> cases y <;> cases z <;> simp_all [extMin,Le]

theorem extMax_le {x y z : ExtValue} (hx : Le x z) (hy : Le y z) : Le (extMax x y) z := by
  cases x <;> cases y <;> cases z <;> simp_all [extMax,Le]

theorem val_mul_between {lo1 hi1 lo2 hi2 : ExtValue} {a b : ℤ} (h1 : Le lo1 (val a)) (h1' : Le (val a) hi1)
    (h2 : Le lo2 (val b)) (h2' : Le (val b) hi2) :
    Le (extMin (extMin (extMul lo1 lo2) (extMul lo1 hi2)) (extMin (extMul hi1 lo2) (extMul hi1 hi2))) (val (a * b)) ∧
    Le (val (a * b)) (extMax (extMax (extMul lo1 lo2) (extMul lo1 hi2)) (extMax (extMul hi1 lo2) (extMul hi1 hi2))) := by
  have hab : extMul (val b) (val a) = val (a * b) := by
    rw [extMul_comm]
    rfl
  obtain ⟨hmin,hmax⟩ := extMul_between (val b) h1 h1'
  obtain ⟨hmin1,hmax1⟩ := extMul_between lo1 h2 h2'
  obtain ⟨hmin2,hmax2⟩ := extMul_between hi1 h2 h2'
  rw [hab,extMul_comm _ lo1,extMul_comm _ hi1] at hmin hmax
  refine ⟨Le.trans (le_extMin ?_ ?_) hmin,hmax.trans (extMax_le ?_ ?_)⟩
  · exact (extMin_le_left _ _).trans hmin1
  · exact (extMin_le_right _ _).trans hmin2
  · exact hmax1.trans (le_extMax_left _ _)
  · exact hmax2.trans (le_extMax_right _ _)

theorem injectMin_le {mn : Option ℤ} {a : ℤ} (h : ∀ c ∈ mn, c ≤ a) : Le (injectMin mn) (val a) := by
  cases mn with
  | none => trivial
  | some c => exact h c rfl

theorem le_injectMax {mx : Option ℤ} {a : ℤ} (h : ∀ c ∈ mx, a ≤ c) : Le (val a) (injectMax mx) := by
  cases mx with
  | none => trivial
  | some c => exact h c rfl

theorem extProj_le {x : ExtValue} {p : ℤ} (h : Le x (val p)) : ∀ a ∈ extProj x, a ≤ p := by
  intro a ha
  cases x with
  | ninf => cases ha
  | pinf => cases h
  | val v =>
    cases ha
    exact h

theorem le_extProj {x : ExtValue} {p : ℤ} (h : Le (val p) x) : ∀ a ∈ extProj x, p ≤ a := by
  intro a ha
  cases x with
  | ninf => cases h
  | pinf => cases ha
  | val v =>
    cases ha
    exact h

end ExtValue

open ExtValue in
theorem mulTops_sound (hsc : 2 ≤ sc) {mn1 mx1 mn2 mx2 : Option ℤ} {r1 m1 r2 m2 : ℤ}
    (h1 : Reduced mn1 mx1 r1 m1) (h2 : Reduced mn2 mx2 r2 m2) {a b : ℤ} (ha : a ∈ prog mn1 mx1 r1 m1)
    (hb : b ∈ prog mn2 mx2 r2 m2) {v : Ival} (hv : mulTops sc mn1 mx1 r1 m1 mn2 mx2 r2 m2 = .ok v) :
    a * b ∈ concr v := by
  obtain ⟨w,hw,_,hc⟩ := injectTop_spec hsc (mulTops_reduced h1 h2)
  rw [mulTops_eq h1 h2,hw] at hv
  cases hv
  rw [hc]
  obtain ⟨hac,hamn,hamx⟩ := ha
  obtain ⟨hbc,hbmn,hbmx⟩ := hb
  obtain ⟨hd,hd1,hd2⟩ := mulModu_dvd r1 m1 r2 m2
  obtain ⟨hmin,hmax⟩ := val_mul_between (injectMin_le hamn) (le_injectMax hamx) (injectMin_le hbmn) (le_injectMax hbmx)
  exact ⟨mul_emod_of_dvd hac hbc hd hd1 hd2,extProj_le hmin,le_extProj hmax⟩

theorem mulSetTop_sound (hsc : 2 ≤ sc) {s : List ℤ} {mn mx : Option ℤ} {r m : ℤ} (h1 : Wf sc (.set s))
    (h2 : Wf sc (.topItv mn mx r m)) {a b : ℤ} (ha : a ∈ s) (hb : b ∈ prog mn mx r m) {v : Ival}
    (hv : mulSetTop sc s mn mx r m = .ok v) : b * a ∈ concr v := by
  simp only [mulSetTop] at hv
  split at hv
  · rename_i hl
    rw [List.length_eq_zero_iff.mp hl] at ha
    cases ha
  · split at hv
    · rename_i hl
      cases hv
      rw [eq_headD_of_length hl ha]
      exact scale_sound h2 _ hb
    · rw [unsafeMakeTopFromArray4_ok h1.1 (by omega),Res.ok_bind] at hv
      exact mulTops_sound hsc (wf_topItv_iff.mp h2).1 (span_set h1.1 (by omega)).1 hb
        ((span_set h1.1 (by omega)).2.2 a ha) hv

theorem mul_sound (hsc : 2 ≤ sc) (h1 : Wf sc v1) (h2 : Wf sc v2) {v : Ival} (hv : mul sc v1 v2 = .ok v)
    {a b : ℤ} (ha : a ∈ concr v1) (hb : b ∈ concr v2) : a * b ∈ concr v := by
  unfold mul at hv
  split at hv
  · rename_i hone
    cases hv
    rw [← equal_iff.mp hone] at ha
    rw [List.mem_singleton.mp ha,one_mul]
    exact hb
  · split at hv
    · rename_i hz
      cases hv
      have hab : a * b = 0 := by
        rcases hz with rfl | rfl
        · rw [List.mem_singleton.mp hb,mul_zero]
        · rw [List.mem_singleton.mp ha,zero_mul]
      rw [hab]
      exact List.mem_singleton.mpr rfl
    · split at hv
      · rename_i hone
        cases hv
        rw [← equal_iff.mp hone] at hb
        rw [List.mem_singleton.mp hb,mul_one]
        exact ha
      · split at hv
        · cases hv
          rw [mem_concr_set,List.mem_singleton] at hb
          exact mem_mulSetSingleton.2 ⟨a,ha,by rw [hb]⟩
        · cases hv
          rw [mem_concr_set,List.mem_singleton] at ha
          exact mem_mulSetSingleton.2 ⟨b,hb,by rw [ha,mul_comm]⟩
        · cases hv
          exact (apply2N_spec hsc _ _ _).2 a ha b hb
        · exact mulTops_sound hsc (wf_topItv_iff.mp h1).1 (wf_topItv_iff.mp h2).1 ha hb hv
        · rw [mul_comm]
          exact mulSetTop_sound hsc h1 h2 ha hb hv
        · exact mulSetTop_sound hsc h2 h1 hb ha hv

end Multiplicative

/-- The operations return on well-formed ivals and are sound; opposites, translations and scalings are exact. -/
theorem arith_sound {sc : ℕ} (hsc : 2 ≤ sc) {x y : Ival} (hx : Wf sc x) (hy : Wf sc y) :
    (∃ v, addInt sc x y = .ok v ∧ ∀ a ∈ concr x, ∀ b ∈ concr y, a + b ∈ concr v) ∧
    (∃ v, subInt sc x y = .ok v ∧ ∀ a ∈ concr x, ∀ b ∈ concr y, a - b ∈ concr v) ∧
    (∃ v, mul sc x y = .ok v ∧ ∀ a ∈ concr x, ∀ b ∈ concr y, a * b ∈ concr v) ∧
    (∀ c, c ∈ concr (negInt x) ↔ ∃ a ∈ concr x, c = -a) ∧
    (∀ i c, c ∈ concr (addSingletonInt i x) ↔ ∃ a ∈ concr x, c = i + a) ∧
    ∀ f, (∀ a ∈ concr x, a * f ∈ concr (scale f x)) ∧
      (x ≠ bottom → ∀ c ∈ concr (scale f x), ∃ a ∈ concr x, c = a * f) := by
  obtain ⟨s,hs,_⟩ := addInt_wf hsc hx hy
  obtain ⟨d,hd,_⟩ := subInt_wf hsc hx hy
  obtain ⟨p,hp,_⟩ := mul_wf hsc hx hy
  refine ⟨⟨s,hs,?_⟩,⟨d,hd,?_⟩,⟨p,hp,?_⟩,?_,?_,?_⟩
  · intro a ha b hb
    exact addInt_sound hsc hx hy hs ha hb
  · intro a ha b hb
    exact subInt_sound hsc hx hy hd ha hb
  · intro a ha b hb
    exact mul_sound hsc hx hy hp ha hb
  · intro c
    exact mem_negInt hx
  · intro i c
    exact mem_addSingletonInt hx i
  · intro f
    exact ⟨fun a ha => scale_sound hx f ha,fun hne c hc => scale_exact hx hne f hc⟩

theorem arith_sound_half_line :
    ∃ v, mul 8 (.topItv none (some (-1)) 1 2) (.set [0,3]) = .ok v ∧ -3 * 3 ∈ concr v := by
  have hx : Wf 8 (.topItv none (some (-1)) 1 2) := ⟨by decide,by decide,by decide,by simp,by simp,by simp⟩
  have hy : Wf 8 (.set [0,3]) := ⟨by simp,by decide⟩
  obtain ⟨v,hv,hmem⟩ := (arith_sound (by decide) hx hy).2.2.1
  exact ⟨v,hv,hmem (-3) ⟨by decide,by simp,by simp⟩ 3 (by simp)⟩

end FramaC.Ival
