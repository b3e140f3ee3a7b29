import FramaC.Ival.Division
import FramaC.Ival.ArithSound

/-! # Soundness of quotients and remainders

Quotients of the members of a progression form a progression when they are all rounded the same way; the
under-approximation is then exact. Remainders lie between the bounds chosen from the signs.
-/
namespace FramaC.Ival
open Integer Progression Outcome

def scaleDivUnder (sc : ℕ) (pos : Bool) (f : ℤ) (v : Ival) : Res Ival :=
  match scaleDivCommon sc pos f v fun _ _ => .error .exit with
  | .error .exit => return bottom
  | r => r

theorem mem_mapSetLoop (f : ℤ → ℤ) (last : ℤ) (s : List ℤ) {y : ℤ} :
    y ∈ mapSetLoop f last s ↔ y = last ∨ ∃ x ∈ s, f x = y := by
  induction s generalizing last with
  | nil => simp [mapSetLoop]
  | cons x s ih =>
    simp only [mapSetLoop]
    split
    · rename_i hx
      rw [ih]
      constructor
      · rintro (rfl | ⟨z,hz,rfl⟩)
        · exact Or.inl rfl
        · exact Or.inr ⟨z,by simp [hz],rfl⟩
      · rintro (rfl | ⟨z,hz,rfl⟩)
        · exact Or.inl rfl
        · rcases List.mem_cons.mp hz with rfl | hz
          · exact Or.inl hx
          · exact Or.inr ⟨z,hz,rfl⟩
    · rw [List.mem_cons,ih]
      constructor
      · rintro (rfl | rfl | ⟨z,hz,rfl⟩)
        · exact Or.inl rfl
        · exact Or.inr ⟨x,by simp,rfl⟩
        · exact Or.inr ⟨z,by simp [hz],rfl⟩
      · rintro (rfl | ⟨z,hz,rfl⟩)
        · exact Or.inl rfl
        · rcases List.mem_cons.mp hz with rfl | hz
          · exact Or.inr (Or.inl rfl)
          · exact Or.inr (Or.inr ⟨z,hz,rfl⟩)

theorem mem_mapSetIncr {f : ℤ → ℤ} {s : List ℤ} {y : ℤ} : y ∈ concr (mapSetIncr f s) ↔ ∃ x ∈ s, f x = y := by
  cases s with
  | nil => simp [mapSetIncr,bottom]
  | cons x s =>
    rw [mapSetIncr,arrayTruncate_eq,mem_concr_set,mem_mapSetLoop]
    constructor
    · rintro (rfl | ⟨z,hz,rfl⟩)
      · exact ⟨x,by simp,rfl⟩
      · exact ⟨z,by simp [hz],rfl⟩
    · rintro ⟨z,hz,rfl⟩
      rcases List.mem_cons.mp hz with rfl | hz
      · exact Or.inl rfl
      · exact Or.inr ⟨z,hz,rfl⟩

theorem mem_mapSetDecr {f : ℤ → ℤ} {s : List ℤ} {y : ℤ} : y ∈ concr (mapSetDecr f s) ↔ ∃ x ∈ s, f x = y := by
  simp only [mapSetDecr,mem_mapSetIncr,List.mem_reverse]

theorem ediv_add_mul {f q x y k : ℤ} (hf : f ≠ 0) (h : x = y + f * q * k) : x / f = y / f + q * k := by
  rw [h,mul_assoc,Int.add_mul_ediv_left _ _ hf]

theorem tdiv_eq_neg_ediv {x f : ℤ} (hx : x ≤ 0) : x.tdiv f = -(-x / f) := by
  rw [← Int.tdiv_eq_ediv_of_nonneg (by omega),Int.neg_tdiv,neg_neg]

def SameRounding (pos : Bool) (f x y : ℤ) : Prop := pos = true ∨ (x ≤ 0 ∧ y ≤ 0) ∨ (0 ≤ x ∧ 0 ≤ y) ∨ f ∣ y

theorem divF_add_mul {pos : Bool} {f q x y k : ℤ} (hf : f ≠ 0) (h : x = y + f * q * k) (hs : SameRounding pos f x y) :
    divF pos f x = divF pos f y + q * k := by
  cases pos with
  | true => exact ediv_add_mul hf h
  | false =>
    have hcase : x.tdiv f = y.tdiv f + q * k := by
      rcases hs with hs | ⟨hx,hy⟩ | ⟨hx,hy⟩ | hd
      · cases hs
      · have hneg : -x / f = -y / f + q * -k := ediv_add_mul hf (by rw [h]; ring)
        rw [tdiv_eq_neg_ediv hx,tdiv_eq_neg_ediv hy,hneg]
        ring
      · rw [Int.tdiv_eq_ediv_of_nonneg hx,Int.tdiv_eq_ediv_of_nonneg hy]
        exact ediv_add_mul hf h
      · have hdx : f ∣ x := by
          rw [h,mul_assoc]
          exact dvd_add hd (dvd_mul_right _ _)
        rw [Int.tdiv_eq_ediv_of_dvd hdx,Int.tdiv_eq_ediv_of_dvd hd]
        exact ediv_add_mul hf h
    exact hcase

def quotientBase (mx : Option ℤ) (r m : ℤ) : ℤ := if maxIsGreater (some 0) mx then r - m else r

theorem quotientBase_eq (mx : Option ℤ) (r m : ℤ) : ∃ j, quotientBase mx r m = r + m * j := by
  unfold quotientBase
  split
  · exact ⟨-1,by ring⟩
  · exact ⟨0,by ring⟩

theorem sameRounding_of_test {pos : Bool} {f : ℤ} {mn mx : Option ℤ} {r m : ℤ} (hr : Reduced mn mx r m)
    (hs : (maxIsGreater (some 0) mx || pos || minIsLower (some 0) mn || isZero (r % f)) = true) {a : ℤ}
    (ha : a ∈ prog mn mx r m) : SameRounding pos f a (quotientBase mx r m) := by
  obtain ⟨_,hamn,hamx⟩ := ha
  unfold quotientBase
  by_cases hneg : maxIsGreater (some 0) mx = true
  · rw [if_pos hneg]
    obtain ⟨b,hb,hb0⟩ := maxIsGreater_iff.mp hneg 0 rfl
    exact Or.inr (Or.inl ⟨(hamx b hb).trans hb0,by linarith [hr.lt]⟩)
  · rw [if_neg hneg]
    simp only [Bool.or_eq_true,or_assoc] at hs
    rcases hs with hmax | hpos | hmin | hz
    · exact absurd hmax hneg
    · exact Or.inl hpos
    · obtain ⟨c,hc,hc0⟩ := minIsLower_iff.mp hmin 0 rfl
      exact Or.inr (Or.inr (Or.inl ⟨hc0.trans (hamn c hc),hr.nonneg⟩))
    · refine Or.inr (Or.inr (Or.inr (Int.dvd_of_emod_eq_zero ?_)))
      simpa [isZero] using hz

section Quotients
variable {sc : ℕ} {v x y : Ival}

theorem mem_quotientBounds {pos : Bool} {f : ℤ} (hf : f ≠ 0) {mn mx : Option ℤ} {r m a : ℤ}
    (ha : a ∈ prog mn mx r m) :
    (∀ b ∈ if f > 0 then mn.map (divF pos f) else mx.map (divF pos f), b ≤ divF pos f a) ∧
    ∀ b ∈ if f > 0 then mx.map (divF pos f) else mn.map (divF pos f), divF pos f a ≤ b := by
  obtain ⟨_,hamn,hamx⟩ := ha
  by_cases hpos : f > 0
  · simp only [if_pos hpos,Option.forall_mem_map]
    exact ⟨fun c hc => divF_mono pos hpos (hamn c hc),fun c hc => divF_mono pos hpos (hamx c hc)⟩
  · simp only [if_neg hpos,Option.forall_mem_map]
    have hneg : f < 0 := by omega
    exact ⟨fun c hc => divF_anti pos hneg (hamx c hc),fun c hc => divF_anti pos hneg (hamn c hc)⟩

theorem divF_mul (pos : Bool) {f : ℤ} (hf : f ≠ 0) (q : ℤ) : divF pos f (f * q) = q := by
  cases pos with
  | true => exact Int.mul_ediv_cancel_left q hf
  | false => exact Int.mul_tdiv_cancel_left q hf

theorem exists_eq_quotientBase (mx : Option ℤ) {r m a : ℤ} (ha : a % m = r) :
    ∃ k, a = quotientBase mx r m + m * k := by
  obtain ⟨j,hj⟩ := quotientBase_eq mx r m
  obtain ⟨k,hk⟩ := exists_eq_add_mul ha
  exact ⟨k - j,by rw [hj,hk]; ring⟩

theorem emod_abs_eq_iff {c d q : ℤ} : c % |q| = d % |q| ↔ ∃ k, c = d + q * k := by
  rw [Int.emod_abs,Int.emod_abs,Int.emod_eq_emod_iff_emod_sub_eq_zero,← Int.dvd_iff_emod_eq_zero]
  constructor
  · rintro ⟨k,hk⟩
    exact ⟨k,by omega⟩
  · rintro ⟨k,hk⟩
    exact ⟨k,by omega⟩

theorem divF_mem_class {pos : Bool} {f : ℤ} (hf : f ≠ 0) {mn mx : Option ℤ} {r q : ℤ} (hr : Reduced mn mx r (f * q))
    (hs : (maxIsGreater (some 0) mx || pos || minIsLower (some 0) mn || isZero (r % f)) = true) {a : ℤ}
    (ha : a ∈ prog mn mx r (f * q)) : ∃ k, a = quotientBase mx r (f * q) + f * q * k ∧
      divF pos f a = divF pos f (quotientBase mx r (f * q)) + q * k := by
  obtain ⟨k,hk⟩ := exists_eq_quotientBase mx ha.1
  exact ⟨k,hk,divF_add_mul hf hk (sameRounding_of_test hr hs ha)⟩

theorem mem_of_between {pos : Bool} {f : ℤ} (hf : f ≠ 0) {mn mx : Option ℤ} {r q : ℤ} (hr : Reduced mn mx r (f * q))
    (hl : Long sc mn mx (f * q))
    (hs : (maxIsGreater (some 0) mx || pos || minIsLower (some 0) mn || isZero (r % f)) = true) {k : ℤ}
    (hlo : ∀ b ∈ if f > 0 then mn.map (divF pos f) else mx.map (divF pos f),
      b ≤ divF pos f (quotientBase mx r (f * q)) + q * k)
    (hhi : ∀ b ∈ if f > 0 then mx.map (divF pos f) else mn.map (divF pos f),
      divF pos f (quotientBase mx r (f * q)) + q * k ≤ b) :
    quotientBase mx r (f * q) + f * q * k ∈ prog mn mx r (f * q) := by
  obtain ⟨j,hj⟩ := quotientBase_eq mx r (f * q)
  have hcls : (quotientBase mx r (f * q) + f * q * k) % (f * q) = r := by
    rw [hj,Int.add_mul_emod_self_left,Int.add_mul_emod_self_left,Int.emod_eq_of_lt hr.nonneg hr.lt]
  -- the quotient of a bound is compared with the one of the candidate, so their multiples are
  have hbound : ∀ a, a ∈ mn ∨ a ∈ mx → a ∈ prog mn mx r (f * q) := by
    rintro a (ha | ha)
    · cases mn with
      | none => cases ha
      | some c =>
        cases ha
        exact hr.lower_mem fun b hb => hl.le hr.pos rfl hb
    · cases mx with
      | none => cases ha
      | some c =>
        cases ha
        exact hr.upper_mem fun b hb => hl.le hr.pos hb rfl
  refine ⟨hcls,?_,?_⟩
  · intro a ha
    obtain ⟨k0,hk0,hdiv⟩ := divF_mem_class hf hr hs (hbound a (Or.inl ha))
    by_cases hpos : f > 0
    · simp only [if_pos hpos,Option.forall_mem_map] at hlo
      have hle := hlo a ha
      rw [hdiv] at hle
      have hmul : f * (q * k0) ≤ f * (q * k) := Int.mul_le_mul_of_nonneg_left (by omega) hpos.le
      rw [hk0]
      linarith
    · simp only [if_neg hpos,Option.forall_mem_map] at hhi
      have hle := hhi a ha
      rw [hdiv] at hle
      have hmul : f * (q * k0) ≤ f * (q * k) := Int.mul_le_mul_of_nonpos_left (by omega) (by omega)
      rw [hk0]
      linarith
  · intro a ha
    obtain ⟨k0,hk0,hdiv⟩ := divF_mem_class hf hr hs (hbound a (Or.inr ha))
    by_cases hpos : f > 0
    · simp only [if_pos hpos,Option.forall_mem_map] at hhi
      have hle := hhi a ha
      rw [hdiv] at hle
      have hmul : f * (q * k) ≤ f * (q * k0) := Int.mul_le_mul_of_nonneg_left (by omega) hpos.le
      rw [hk0]
      linarith
    · simp only [if_neg hpos,Option.forall_mem_map] at hlo
      have hle := hlo a ha
      rw [hdiv] at hle
      have hmul : f * (q * k) ≤ f * (q * k0) := Int.mul_le_mul_of_nonpos_left (by omega) (by omega)
      rw [hk0]
      linarith

theorem scaleDivCommon_top {pos : Bool} {f : ℤ} (hf : f ≠ 0) {mn mx : Option ℤ} {r m : ℤ}
    (degenerateIval : ℤ → ℤ → Res (ℤ × ℤ)) : scaleDivCommon sc pos f (.topItv mn mx r m) degenerateIval =
      (if (maxIsGreater (some 0) mx || pos || minIsLower (some 0) mn || isZero (r % f)) && isZero (m % f) then
          pure (divF pos f (quotientBase mx r m) % |divF pos f m|,|divF pos f m|)
        else degenerateIval r m) >>= fun p =>
      injectTop sc (if f > 0 then mn.map (divF pos f) else mx.map (divF pos f))
        (if f > 0 then mx.map (divF pos f) else mn.map (divF pos f)) p.1 p.2 := by
  have ha : (!isZero f) = true := by simp [isZero,hf]
  unfold scaleDivCommon quotientBase
  rw [ha,assertion_true,Res.ok_bind]
  simp only [opt1_eq_map]
  by_cases hp : f > 0
  · simp only [if_pos hp]
    split <;> rfl
  · simp only [if_neg hp]
    split <;> rfl

theorem scaleDivCommon_exact (hsc : 2 ≤ sc) {pos : Bool} {f : ℤ} (hf : f ≠ 0) {mn mx : Option ℤ} {r m : ℤ}
    (h : Wf sc (.topItv mn mx r m)) (degenerateIval : ℤ → ℤ → Res (ℤ × ℤ))
    (ht : ((maxIsGreater (some 0) mx || pos || minIsLower (some 0) mn || isZero (r % f)) && isZero (m % f)) = true) :
    ∃ w, scaleDivCommon sc pos f (.topItv mn mx r m) degenerateIval = .ok w ∧
      ∀ c, c ∈ concr w ↔ ∃ a ∈ prog mn mx r m, divF pos f a = c := by
  obtain ⟨hr,hl⟩ := wf_topItv_iff.mp h
  have ht' := ht
  rw [Bool.and_eq_true] at ht'
  obtain ⟨hs,hz⟩ := ht'
  obtain ⟨q,rfl⟩ : f ∣ m := Int.dvd_of_emod_eq_zero (by simpa [isZero] using hz)
  obtain ⟨hpos,hcls⟩ := scaleDiv_reduced hf hr hl hs (dvd_mul_right f q)
  rw [divF_mul pos hf] at hpos hcls
  have hred : Reduced (if f > 0 then mn.map (divF pos f) else mx.map (divF pos f))
      (if f > 0 then mx.map (divF pos f) else mn.map (divF pos f))
      (divF pos f (quotientBase mx r (f * q)) % |q|) |q| := by
    refine ⟨hpos,Int.emod_nonneg _ (by omega),Int.emod_lt_of_pos _ (by omega),?_,?_⟩
    · by_cases hf0 : f > 0
      · simp only [if_pos hf0,Option.forall_mem_map]
        exact fun a ha => hcls a (Or.inl ha)
      · simp only [if_neg hf0,Option.forall_mem_map]
        exact fun a ha => hcls a (Or.inr ha)
    · by_cases hf0 : f > 0
      · simp only [if_pos hf0,Option.forall_mem_map]
        exact fun a ha => hcls a (Or.inr ha)
      · simp only [if_neg hf0,Option.forall_mem_map]
        exact fun a ha => hcls a (Or.inl ha)
  obtain ⟨w,hw,_,hc⟩ := injectTop_spec hsc hred
  refine ⟨w,?_,?_⟩
  · rw [scaleDivCommon_top hf,if_pos ht,divF_mul pos hf]
    exact hw
  · intro c
    rw [hc]
    constructor
    · rintro ⟨hcc,hlo,hhi⟩
      obtain ⟨k,rfl⟩ := (emod_abs_eq_iff).mp hcc
      have hmem := mem_of_between hf hr hl hs hlo hhi
      exact ⟨_,hmem,divF_add_mul hf rfl (sameRounding_of_test hr hs hmem)⟩
    · rintro ⟨a,ha,rfl⟩
      obtain ⟨k,_,hk⟩ := divF_mem_class hf hr hs ha
      exact ⟨(emod_abs_eq_iff).mpr ⟨k,hk⟩,mem_quotientBounds hf ha⟩

theorem scaleDivCommon_set {pos : Bool} {f : ℤ} (hf : f ≠ 0) (s : List ℤ)
    (degenerateIval : ℤ → ℤ → Res (ℤ × ℤ)) : ∃ w, scaleDivCommon sc pos f (.set s) degenerateIval = .ok w ∧
      ∀ c, c ∈ concr w ↔ ∃ a ∈ s, divF pos f a = c := by
  have ha : (!isZero f) = true := by simp [isZero,hf]
  unfold scaleDivCommon
  rw [ha,assertion_true,Res.ok_bind]
  refine ⟨_,rfl,?_⟩
  intro c
  split
  · exact mem_mapSetDecr
  · exact mem_mapSetIncr

theorem scaleDiv_sound (hsc : 2 ≤ sc) (h : Wf sc v) {pos : Bool} {f : ℤ} (hf : f ≠ 0) {w : Ival}
    (hw : scaleDiv sc pos f v = .ok w) {a : ℤ} (ha : a ∈ concr v) : divF pos f a ∈ concr w := by
  unfold scaleDiv at hw
  cases v with
  | set s =>
    obtain ⟨w',hw',hmem⟩ := scaleDivCommon_set hf s fun _ _ => return (0,1)
    rw [hw'] at hw
    cases hw
    exact (hmem _).2 ⟨a,ha,rfl⟩
  | topItv mn mx r m =>
    by_cases ht : ((maxIsGreater (some 0) mx || pos || minIsLower (some 0) mn || isZero (r % f)) &&
        isZero (m % f)) = true
    · obtain ⟨w',hw',hmem⟩ := scaleDivCommon_exact hsc hf h (fun _ _ => return (0,1)) ht
      rw [hw'] at hw
      cases hw
      exact (hmem _).2 ⟨a,ha,rfl⟩
    · rw [scaleDivCommon_top hf,if_neg ht] at hw
      obtain ⟨w',hw',_,hc⟩ := injectRange_spec hsc (if f > 0 then mn.map (divF pos f) else mx.map (divF pos f))
        (if f > 0 then mx.map (divF pos f) else mn.map (divF pos f))
      have heq := hw.symm.trans hw'
      cases heq
      rw [hc]
      exact ⟨Int.emod_one _,mem_quotientBounds hf ha⟩

theorem scaleDivUnder_sound (hsc : 2 ≤ sc) (h : Wf sc v) (pos : Bool) {f : ℤ} (hf : f ≠ 0) :
    ∃ w, scaleDivUnder sc pos f v = .ok w ∧ ∀ c ∈ concr w, ∃ a ∈ concr v, divF pos f a = c := by
  unfold scaleDivUnder
  cases v with
  | set s =>
    obtain ⟨w,hw,hmem⟩ := scaleDivCommon_set hf s fun _ _ => .error .exit
    rw [hw]
    exact ⟨w,rfl,fun c hc => (hmem c).1 hc⟩
  | topItv mn mx r m =>
    by_cases ht : ((maxIsGreater (some 0) mx || pos || minIsLower (some 0) mn || isZero (r % f)) &&
        isZero (m % f)) = true
    · obtain ⟨w,hw,hmem⟩ := scaleDivCommon_exact hsc hf h (fun _ _ => .error .exit) ht
      rw [hw]
      exact ⟨w,rfl,fun c hc => (hmem c).1 hc⟩
    · rw [scaleDivCommon_top hf,if_neg ht]
      exact ⟨bottom,rfl,fun c hc => absurd hc List.not_mem_nil⟩

theorem remF_eq (pos : Bool) (f a : ℤ) : remF pos f a = a - f * divF pos f a := by
  cases pos with
  | true => exact Int.emod_def a f
  | false => exact Int.tmod_def a f

theorem remF_bounds (pos : Bool) {f : ℤ} (hf : 0 < f) (a : ℤ) :
    -(f - 1) ≤ remF pos f a ∧ remF pos f a ≤ f - 1 ∧ ((pos = true ∨ 0 ≤ a) → 0 ≤ remF pos f a) ∧
      ((pos = false ∧ a ≤ 0) → remF pos f a ≤ 0) := by
  cases pos with
  | true =>
    have h0 : 0 ≤ a % f := Int.emod_nonneg a hf.ne'
    have h1 : a % f < f := Int.emod_lt_of_pos a hf
    simp only [remF,if_true]
    refine ⟨by omega,by omega,fun _ => h0,?_⟩
    rintro ⟨h,_⟩
    cases h
  | false =>
    have h1 : a.tmod f < f := Int.tmod_lt_of_pos a hf
    have h2 : -f < a.tmod f := Int.lt_tmod_of_pos a hf
    simp only [remF,Bool.false_eq_true,if_false,false_or,true_and]
    refine ⟨by omega,by omega,fun ha => Int.tmod_nonneg f ha,fun ha => ?_⟩
    have h3 := Int.tmod_nonneg f (a := -a) (by omega)
    rw [Int.neg_tmod] at h3
    omega

theorem scaleRem_sound (hsc : 2 ≤ sc) (h : Wf sc v) {pos : Bool} {f : ℤ} (hf : f ≠ 0) {w : Ival}
    (hw : scaleRem sc pos f v = .ok w) {a : ℤ} (ha : a ∈ concr v) : remF pos |f| a ∈ concr w := by
  have hz : isZero f = false := by simp [isZero,hf]
  have habs : (if f < 0 then -f else f) = |f| := by
    split
    · rename_i hneg
      exact (abs_of_neg hneg).symm
    · rename_i hneg
      exact (abs_of_nonneg (by omega)).symm
  have hpos : 0 < |f| := abs_pos.mpr hf
  unfold scaleRem at hw
  rw [hz,if_neg Bool.false_ne_true,habs] at hw
  generalize |f| = f at hpos hw
  cases v with
  | set s =>
    cases hw
    exact (mapSetExnsafe_spec hsc _ s).2 a ha
  | topItv mn mx r m =>
    obtain ⟨hr,_⟩ := wf_topItv_iff.mp h
    obtain ⟨hcls,hlo,hhi⟩ := ha
    have hg : 1 ≤ pgcd f m := one_le_pgcd_left (by omega)
    have h0 : 0 ≤ r % pgcd f m := Int.emod_nonneg _ (by omega)
    have hlt : r % pgcd f m < pgcd f m := Int.emod_lt_of_pos _ (by omega)
    have hrem : ∀ {b}, b % m = r → remF pos f b % pgcd f m = r % pgcd f m := by
      intro b hb
      rw [remF_emod (pgcd_dvd_left f m),← hb,Int.emod_emod_of_dvd _ (pgcd_dvd_right f m)]
    obtain ⟨hb1,hb2,hb3,hb4⟩ := remF_bounds pos hpos a
    have fin : ∀ {lo hi : ℤ}, lo % pgcd f m = r % pgcd f m → hi % pgcd f m = r % pgcd f m →
        lo ≤ remF pos f a → remF pos f a ≤ hi →
        injectTop sc (some lo) (some hi) (r % pgcd f m) (pgcd f m) = .ok w → remF pos f a ∈ concr w := by
      intro lo hi hlc hhc hle hge hw
      have hred : Reduced (some lo) (some hi) (r % pgcd f m) (pgcd f m) :=
        ⟨hg,h0,hlt,by rintro _ ⟨⟩; exact hlc,by rintro _ ⟨⟩; exact hhc⟩
      obtain ⟨w',hw',_,hc⟩ := injectTop_spec hsc hred
      rw [hw] at hw'
      cases hw'
      rw [hc]
      exact ⟨hrem hcls,by rintro _ ⟨⟩; exact hle,by rintro _ ⟨⟩; exact hge⟩
    have hround : ∀ {lo hi : ℤ}, lo ≤ remF pos f a → remF pos f a ≤ hi →
        injectTop sc (some (roundUpToR lo (r % pgcd f m) (pgcd f m)))
          (some (roundDownToR hi (r % pgcd f m) (pgcd f m))) (r % pgcd f m) (pgcd f m) = .ok w →
        remF pos f a ∈ concr w := fun hle hge hw =>
      fin (roundUpToR_emod h0 hlt) (roundDownToR_emod h0 hlt) (roundUpToR_le (by omega) (hrem hcls) hle)
        (le_roundDownToR (by omega) (hrem hcls) hge) hw
    -- the bounds used when the quotients of the bounds differ
    have hslow : ∀ p : ℤ × ℤ, p = (if pos then
          (roundUpToR 0 (r % pgcd f m) (pgcd f m),roundDownToR (f - 1) (r % pgcd f m) (pgcd f m))
          else (roundUpToR (if allPositives mn then 0 else -(f - 1)) (r % pgcd f m) (pgcd f m),
            roundDownToR (if allNegatives mx then 0 else f - 1) (r % pgcd f m) (pgcd f m))) →
        injectTop sc (some p.1) (some p.2) (r % pgcd f m) (pgcd f m) = .ok w → remF pos f a ∈ concr w := by
      rintro _ rfl hw
      cases pos with
      | true => exact hround (hb3 (Or.inl rfl)) hb2 hw
      | false =>
        refine hround ?_ ?_ hw
        · split
          · rename_i hall
            cases mn with
            | none => cases hall
            | some b =>
              have hb0 : 0 ≤ b := by simpa [allPositives] using hall
              exact hb3 (Or.inr (hb0.trans (hlo b rfl)))
          · exact hb1
        · split
          · rename_i hall
            cases mx with
            | none => cases hall
            | some b =>
              have hb0 : b ≤ 0 := by simpa [allNegatives] using hall
              exact hb4 ⟨rfl,(hhi b rfl).trans hb0⟩
          · exact hb2
    cases mn with
    | none => exact hslow _ rfl hw
    | some b1 =>
      cases mx with
      | none => exact hslow _ rfl hw
      | some b2 =>
        by_cases hq : divF pos f b1 = divF pos f b2
        · simp only [if_pos hq] at hw
          -- all the members have the quotient of the bounds
          have h1 := divF_mono pos hpos (hlo b1 rfl)
          have h2 := divF_mono pos hpos (hhi b2 rfl)
          have hqa : divF pos f a = divF pos f b1 := by omega
          refine fin (hrem (hr.lower b1 rfl)) (hrem (hr.upper b2 rfl)) ?_ ?_ hw
          · rw [remF_eq,remF_eq,hqa]
            have := hlo b1 rfl
            omega
          · rw [remF_eq,remF_eq,hqa,hq]
            have := hhi b2 rfl
            omega
        · simp only [if_neg hq] at hw
          exact hslow _ rfl hw

theorem catchOverflow_sound {body : Res Ival} {handler : Ival} {P : Ival → Prop} (hh : P handler)
    (hb : Sat P (fun e => e = .overflow) body) : ∃ v, catchOverflow body handler = .ok v ∧ P v := by
  cases body with
  | ok v => exact ⟨v,rfl,hb⟩
  | error e =>
    cases hb
    exact ⟨handler,rfl,hh⟩

end Quotients

/-- The quotient and the remainder by a constant contain those of every member, and the under-approximation of the
quotient contains nothing else. -/
theorem scale_div_rem_sound {sc : ℕ} (hsc : 2 ≤ sc) {f : ℤ} (hf : f ≠ 0) (pos : Bool) {v : Ival} (h : Wf sc v) :
    (∃ w, scaleDiv sc pos f v = .ok w ∧ ∀ a ∈ concr v, divF pos f a ∈ concr w) ∧
    (∃ w, scaleRem sc pos f v = .ok w ∧ ∀ a ∈ concr v, remF pos |f| a ∈ concr w) ∧
    ∃ w, scaleDivUnder sc pos f v = .ok w ∧ ∀ c ∈ concr w, ∃ a ∈ concr v, divF pos f a = c := by
  obtain ⟨q,hq,_⟩ := scaleDiv_wf hsc h pos hf
  obtain ⟨w,hw,_⟩ := scaleRem_wf hsc h pos f
  refine ⟨⟨q,hq,?_⟩,⟨w,hw,?_⟩,scaleDivUnder_sound hsc h pos hf⟩
  · intro a ha
    exact scaleDiv_sound hsc h hf hq ha
  · intro a ha
    exact scaleRem_sound hsc h hf hw ha

theorem scale_div_rem_sound_negative :
    ∃ w, scaleDiv 8 false (-3) (.topItv none (some (-1)) 5 6) = .ok w ∧ divF false (-3) (-7) ∈ concr w := by
  have h : Wf 8 (.topItv none (some (-1)) 5 6) := ⟨by decide,by decide,by decide,by simp,by simp,by simp⟩
  obtain ⟨w,hw,hmem⟩ := (scale_div_rem_sound (by decide) (f := -3) (by decide) false h).1
  exact ⟨w,hw,hmem (-7) ⟨by decide,by simp,by simp⟩⟩

end FramaC.Ival
