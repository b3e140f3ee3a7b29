import FramaC.Ival.Bitwise
import FramaC.Ival.ShiftSound

/-! # Bits of ivals

Abstract bits are sets of bits. The bits that are extracted from an ival are those of its members; the bit of a bounded
progression may be inexact, but reducing the progression to a bit that was extracted leaves a member, because a progression
has three members at least.
-/
namespace FramaC.Ival
open Integer Progression Outcome Bits

def BitValue.Has : BitValue → Bool → Prop
  | .on, b => b = true
  | .off, b => b = false
  | .both, _ => True

def bitOf : Bit → ℤ → Bool
  | .sign, x => decide (x < 0)
  | .bit i, x => x.testBit i

section Bits

theorem has_union {b c : BitValue} {t : Bool} : (b.union c).Has t ↔ b.Has t ∨ c.Has t := by
  cases b <;> cases c <;> cases t <;> simp [BitValue.union,BitValue.Has]

theorem has_bitValue {i : ℕ} {x : ℤ} {t : Bool} : (bitValue i x).Has t ↔ x.testBit i = t := by
  unfold bitValue
  cases x.testBit i <;> cases t <;> simp [BitValue.Has]

theorem bitValue_eq_of_has {i : ℕ} {x : ℤ} {b : BitValue} (hb : b ≠ .both) (h : b.Has (x.testBit i)) : bitValue i x = b := by
  unfold bitValue
  cases b with
  | on => exact if_pos h
  | off => exact if_neg (by rw [h]; simp)
  | both => exact absurd rfl hb

theorem testBit_ne_of_bitValue_ne {i : ℕ} {x y : ℤ} {b : BitValue} (hb : b ≠ .both) (hx : bitValue i x ≠ b)
    (hy : b.Has (y.testBit i)) : x.testBit i ≠ y.testBit i := by
  intro he
  rw [← he] at hy
  exact hx (bitValue_eq_of_has hb hy)

theorem ediv_ne_of_testBit_ne {i : ℕ} {x y : ℤ} (h : x.testBit i ≠ y.testBit i) : x / 2 ^ i ≠ y / 2 ^ i := by
  intro he
  rw [testBit_eq,testBit_eq,he] at h
  exact h rfl

end Bits

section Extraction
variable {sc : ℕ} {v : Ival}

theorem has_foldl_union {f : ℤ → BitValue} {l : List ℤ} {acc : BitValue} {t : Bool} :
    (l.foldl (fun acc y => acc.union (f y)) acc).Has t ↔ acc.Has t ∨ ∃ y ∈ l, (f y).Has t := by
  induction l generalizing acc with
  | nil => simp
  | cons y l ih =>
    rw [List.foldl_cons,ih,has_union]
    simp [or_assoc]

theorem extractBitAt_set {i : ℕ} {s : List ℤ} {b : BitValue} (hb : extractBitAt i (.set s) = .ok b) {t : Bool} :
    b.Has t ↔ ∃ x ∈ s, x.testBit i = t := by
  cases s with
  | nil => cases hb
  | cons x s =>
    cases hb
    rw [has_foldl_union]
    simp [has_bitValue]

theorem extractSign_exact (h : Wf sc v) {b : BitValue} (hb : extractSign v = .ok b) {t : Bool} :
    b.Has t ↔ ∃ x ∈ concr v, decide (x < 0) = t := by
  have hne : v ≠ bottom := by
    rintro rfl
    cases hb
  obtain ⟨x0,hx0⟩ := exists_mem_of_wf h hne
  obtain ⟨⟨mn,mx⟩,hmm⟩ := minAndMax_ok hne
  obtain ⟨hmn,hmx⟩ := minAndMax_extrema h hmm
  simp only [extractSign,hmm,Res.ok_bind] at hb
  split at hb
  · rename_i hu
    cases hb
    obtain ⟨u,hu,hneg⟩ := Option.map_eq_some_iff.mp hu
    have hall : ∀ x ∈ concr v, x < 0 := fun x hx => lt_of_le_of_lt (((hmx u).1 hu).2 hx) (by simpa using hneg)
    constructor
    · rintro rfl
      exact ⟨x0,hx0,decide_eq_true (hall x0 hx0)⟩
    · rintro ⟨x,hx,rfl⟩
      exact decide_eq_true (hall x hx)
  · rename_i hu
    split at hb
    · rename_i hl
      cases hb
      obtain ⟨l,hl,hpos⟩ := Option.map_eq_some_iff.mp hl
      have hall : ∀ x ∈ concr v, ¬ x < 0 := fun x hx => not_lt.mpr (le_trans (by simpa using hpos) (((hmn l).1 hl).2 hx))
      constructor
      · rintro rfl
        exact ⟨x0,hx0,decide_eq_false (hall x0 hx0)⟩
      · rintro ⟨x,hx,rfl⟩
        exact decide_eq_false (hall x hx)
    · rename_i hl
      cases hb
      refine ⟨fun _ => ?_,fun _ => trivial⟩
      cases t with
      | true =>
        cases mn with
        | some l =>
          refine ⟨l,((hmn l).1 rfl).1,?_⟩
          simpa using hl
        | none =>
          cases v with
          | set s =>
            rw [minAndMax] at hmm
            split at hmm <;> cases hmm
          | topItv a b r m =>
            cases hmm
            obtain ⟨x,hx,hle⟩ := (wf_topItv_iff.mp h).1.unbounded_below (-1)
            exact ⟨x,hx,decide_eq_true (by omega)⟩
      | false =>
        cases mx with
        | some u =>
          refine ⟨u,((hmx u).1 rfl).1,?_⟩
          simpa using hu
        | none =>
          cases v with
          | set s =>
            rw [minAndMax] at hmm
            split at hmm <;> cases hmm
          | topItv a b r m =>
            cases hmm
            obtain ⟨x,hx,hle⟩ := (wf_topItv_iff.mp h).1.unbounded_above 0
            exact ⟨x,hx,decide_eq_false (by omega)⟩

theorem extractBitAt_top_sound {i : ℕ} {l u : Option ℤ} {r m : ℤ} {b : BitValue}
    (hb : extractBitAt i (.topItv l u r m) = .ok b) {x : ℤ} (hx : x ∈ prog l u r m) : b.Has (x.testBit i) := by
  cases l with
  | none =>
    cases hb
    trivial
  | some l =>
    cases u with
    | none =>
      cases hb
      trivial
    | some u =>
      rw [extractBitAt] at hb
      split at hb
      · cases hb
        trivial
      · rename_i hlt
        cases hb
        rw [has_union,has_bitValue,has_bitValue]
        -- below `2 ^ i` apart, the quotients of the bounds differ by one at most
        have hk : (0 : ℤ) < 2 ^ i := by positivity
        have h1 := Int.ediv_le_ediv hk (hx.2.1 l rfl)
        have h2 := Int.ediv_le_ediv hk (hx.2.2 u rfl)
        have h3 : u / 2 ^ i ≤ l / 2 ^ i + 1 := by
          have hle := Int.ediv_le_ediv hk (show u ≤ l + 1 * 2 ^ i by omega)
          rwa [Int.add_mul_ediv_right _ _ hk.ne'] at hle
        have hcase : x / 2 ^ i = l / 2 ^ i ∨ x / 2 ^ i = u / 2 ^ i := by omega
        rw [testBit_eq,testBit_eq,testBit_eq]
        rcases hcase with he | he
        · exact Or.inl (by rw [he])
        · exact Or.inr (by rw [he])

theorem extractBit_sound (h : Wf sc v) {i : Bit} {b : BitValue} (hb : extractBit i v = .ok b) {x : ℤ} (hx : x ∈ concr v) :
    b.Has (bitOf i x) := by
  cases i with
  | sign => exact (extractSign_exact h hb).2 ⟨x,hx,rfl⟩
  | bit i =>
    cases v with
    | set s => exact (extractBitAt_set hb).2 ⟨x,hx,rfl⟩
    | topItv l u r m => exact extractBitAt_top_sound hb hx

end Extraction

section Bounds
variable {i : ℕ} {b : BitValue} {r m : ℤ}

theorem lnot_mask (i : ℕ) : Int.lnot (2 ^ (i + 1) - 1) = -2 ^ (i + 1) := by
  rw [lnot_eq]
  ring

theorem testBit_of_bitValue_ne_on {x : ℤ} (h : bitValue i x ≠ .on) : x.testBit i = false := by
  cases hbit : x.testBit i with
  | false => rfl
  | true => exact absurd (by simp [bitValue,hbit]) h

theorem testBit_of_bitValue_ne_off {x : ℤ} (h : bitValue i x ≠ .off) : x.testBit i = true := by
  cases hbit : x.testBit i with
  | true => rfl
  | false => exact absurd (by simp [bitValue,hbit]) h

theorem reducedMin_eq (hb : b ≠ .both) {l : ℤ} (hl : bitValue i l ≠ b) :
    reducedMin (2 ^ i) (2 ^ (i + 1) - 1) l b = .ok ((l / 2 ^ i + 1) * 2 ^ i) := by
  have hdm := Int.mul_ediv_add_emod l (2 ^ i)
  have hsucc := emod_two_pow_succ l i
  cases b with
  | both => exact absurd rfl hb
  | on =>
    have hoff := testBit_of_bitValue_ne_on hl
    have hbase : (l - l % 2 ^ (i + 1)).testBit i = false := by
      have hz : (l - l % 2 ^ (i + 1)) % 2 ^ (i + 1) = 0 % 2 ^ (i + 1) := by simp
      rw [testBit_of_emod_eq hz (by omega),zero_testBit]
    simp only [hoff,Bool.false_eq_true,if_false] at hsucc
    simp only [reducedMin,logor,logand,lognot,lnot_mask,land_neg_two_pow,lor_comm _ (2 ^ i),lor_two_pow_of_testBit hbase]
    change Except.ok _ = _
    congr 1
    linarith
  | off =>
    have hon := testBit_of_bitValue_ne_off hl
    simp only [hon,if_true] at hsucc
    simp only [reducedMin,logor,lor_two_pow_sub_one]
    change Except.ok _ = _
    congr 1
    rw [pow_succ] at hsucc ⊢
    linarith

theorem reducedMax_eq (hb : b ≠ .both) {u : ℤ} (hu : bitValue i u ≠ b) :
    reducedMax (2 ^ i) (2 ^ (i + 1) - 1) u b = .ok (u / 2 ^ i * 2 ^ i - 1) := by
  have hdm := Int.mul_ediv_add_emod u (2 ^ i)
  have hsucc := emod_two_pow_succ u i
  cases b with
  | both => exact absurd rfl hb
  | on =>
    have hoff := testBit_of_bitValue_ne_on hu
    simp only [hoff,Bool.false_eq_true,if_false] at hsucc
    simp only [reducedMax,logand,lognot,lnot_mask,land_neg_two_pow]
    change Except.ok _ = _
    congr 1
    linarith
  | off =>
    have hon := testBit_of_bitValue_ne_off hu
    have hset : (Int.lor u (2 ^ (i + 1) - 1)).testBit i = true := by
      rw [Int.testBit_lor,hon,Bool.true_or]
    simp only [hon,if_true] at hsucc
    simp only [reducedMax,logand,logor,lognot,land_lnot_two_pow]
    rw [if_pos hset,lor_two_pow_sub_one]
    change Except.ok _ = _
    congr 1
    rw [pow_succ] at hsucc ⊢
    linarith

theorem reduceLower_sound (hb : b ≠ .both) (hm : 0 < m) {l l' : Option ℤ} (hl' : reduceLower i b r m l = .ok l') {x : ℤ}
    (hx : x % m = r) (hl : ∀ a ∈ l, a ≤ x) (hbit : b.Has (x.testBit i)) : ∀ a ∈ l', a ≤ x := by
  cases l with
  | none =>
    cases hl'
    exact hl
  | some a =>
    rw [reduceLower] at hl'
    split at hl'
    · rename_i hne
      rw [reducedMin_eq hb hne] at hl'
      cases hl'
      rintro _ ⟨⟩
      have hk : (0 : ℤ) < 2 ^ i := by positivity
      refine roundUpToR_le hm hx ?_
      have hq := ediv_ne_of_testBit_ne (testBit_ne_of_bitValue_ne hb hne hbit)
      have hle := Int.ediv_le_ediv hk (hl a rfl)
      rw [← Int.le_ediv_iff_mul_le hk]
      omega
    · cases hl'
      exact hl

theorem reduceUpper_sound (hb : b ≠ .both) (hm : 0 < m) {u u' : Option ℤ} (hu' : reduceUpper i b r m u = .ok u') {x : ℤ}
    (hx : x % m = r) (hu : ∀ a ∈ u, x ≤ a) (hbit : b.Has (x.testBit i)) : ∀ a ∈ u', x ≤ a := by
  cases u with
  | none =>
    cases hu'
    exact hu
  | some a =>
    rw [reduceUpper] at hu'
    split at hu'
    · rename_i hne
      rw [reducedMax_eq hb hne] at hu'
      cases hu'
      rintro _ ⟨⟩
      have hk : (0 : ℤ) < 2 ^ i := by positivity
      refine le_roundDownToR hm hx ?_
      have hq := ediv_ne_of_testBit_ne (testBit_ne_of_bitValue_ne hb hne hbit)
      have hle := Int.ediv_le_ediv hk (hu a rfl)
      have hlt : x < a / 2 ^ i * 2 ^ i := by
        rw [← Int.ediv_lt_iff_lt_mul hk]
        omega
      omega
    · cases hu'
      exact hu

/-- Between two wrong bounds that are not in the same block, a progression with a third member has one with the right bit:
if its step is longer than a block it is the second member, else a block holds one. -/
theorem exists_between {l u P : ℤ} (hP : 0 < P) (hm : 0 < m) (hl : l % m = r) (hlong : 2 * m ≤ u - l) (hfar : P ≤ u - l)
    (hpar : l / P % 2 = u / P % 2) : ∃ x, x % m = r ∧ (l / P + 1) * P ≤ x ∧ x ≤ u / P * P - 1 := by
  have h1 := Int.ediv_mul_le l hP.ne'
  have h2 := Int.lt_ediv_add_one_mul_self l hP
  have h3 := Int.ediv_mul_le u hP.ne'
  have h4 := Int.lt_ediv_add_one_mul_self u hP
  have hlt : l / P < u / P := by
    by_contra hge
    have := mul_le_mul_of_nonneg_right (not_lt.mp hge) hP.le
    rw [add_mul] at h4
    omega
  have hblock : (l / P + 2) * P ≤ u / P * P := mul_le_mul_of_nonneg_right (by omega) hP.le
  rw [add_mul] at hblock h2 h4 ⊢
  rw [one_mul] at h2 h4 ⊢
  by_cases hmP : m ≤ P
  · refine ⟨roundUpToR (l / P * P + P) r m,?_,le_roundUpToR hm,?_⟩
    · exact roundUpToR_emod (by rw [← hl]; exact Int.emod_nonneg l hm.ne') (by rw [← hl]; exact Int.emod_lt_of_pos l hm)
    · by_contra hno
      have hprev : (roundUpToR (l / P * P + P) r m - m) % m = r := by
        rw [Int.sub_emod_right]
        exact roundUpToR_emod (by rw [← hl]; exact Int.emod_nonneg l hm.ne') (by rw [← hl]; exact Int.emod_lt_of_pos l hm)
      have := roundUpToR_le (b := l / P * P + P) hm hprev (by omega)
      omega
  · refine ⟨l + m,by rw [Int.add_emod_right]; exact hl,?_,?_⟩
    · omega
    · omega

end Bounds

section Reductions
variable {sc : ℕ} {v : Ival}

theorem reduceSign_sound (hsc : 2 ≤ sc) (h : Wf sc v) {c : BitValue} {v' : Ival} (hv' : reduceSign sc v c = .ok v') {x : ℤ}
    (hx : x ∈ concr v) (hc : c.Has (decide (x < 0))) : x ∈ concr v' := by
  cases c with
  | both =>
    cases hv'
    exact hx
  | on =>
    have hneg : x < 0 := of_decide_eq_true hc
    cases v with
    | set s =>
      cases hv'
      exact ((arrayFilter_spec h _).2 x).2 ⟨hx,by simpa using hneg⟩
    | topItv l u r m =>
      have hr := (wf_topItv_iff.mp h).1
      simp only [reduceSign] at hv'
      split at hv'
      · cases hv'
        exact hx
      · have hred : Reduced l (some (roundDownToR (-1) r m)) r m :=
          ⟨hr.pos,hr.nonneg,hr.lt,hr.lower,by rintro _ ⟨⟩; exact roundDownToR_emod hr.nonneg hr.lt⟩
        obtain ⟨w,hw,_,hconcr⟩ := injectTop_spec hsc hred
        rw [hw] at hv'
        cases hv'
        rw [hconcr]
        refine ⟨hx.1,hx.2.1,?_⟩
        rintro _ ⟨⟩
        exact le_roundDownToR hr.pos hx.1 (by omega)
  | off =>
    have hpos : ¬ x < 0 := of_decide_eq_false hc
    cases v with
    | set s =>
      cases hv'
      exact ((arrayFilter_spec h _).2 x).2 ⟨hx,by simpa using hpos⟩
    | topItv l u r m =>
      have hr := (wf_topItv_iff.mp h).1
      simp only [reduceSign] at hv'
      split at hv'
      · cases hv'
        exact hx
      · have hred : Reduced (some (roundUpToR 0 r m)) u r m :=
          ⟨hr.pos,hr.nonneg,hr.lt,by rintro _ ⟨⟩; exact roundUpToR_emod hr.nonneg hr.lt,hr.upper⟩
        obtain ⟨w,hw,_,hconcr⟩ := injectTop_spec hsc hred
        rw [hw] at hv'
        cases hv'
        rw [hconcr]
        refine ⟨hx.1,?_,hx.2.2⟩
        rintro _ ⟨⟩
        exact roundUpToR_le hr.pos hx.1 (by omega)

theorem reduceBitAt_top (hsc : 2 ≤ sc) {i : ℕ} {c : BitValue} (hc : c ≠ .both) {l u : Option ℤ} {r m : ℤ}
    (h : Wf sc (.topItv l u r m)) : ∃ l' u' v', reduceLower i c r m l = .ok l' ∧ reduceUpper i c r m u = .ok u' ∧
      reduceBitAt sc i (.topItv l u r m) c = .ok v' ∧ concr v' = prog l' u' r m := by
  have hr := (wf_topItv_iff.mp h).1
  obtain ⟨l',hl',hl⟩ := reduceLower_emod (i := i) hc hr.nonneg hr.lt hr.lower
  obtain ⟨u',hu',hu⟩ := reduceUpper_emod (i := i) hc hr.nonneg hr.lt hr.upper
  obtain ⟨w,hw,_,hconcr⟩ := injectTop_spec hsc ⟨hr.pos,hr.nonneg,hr.lt,hl,hu⟩
  exact ⟨l',u',w,hl',hu',by simp only [reduceBitAt,if_neg hc,hl',hu',Res.ok_bind,hw],hconcr⟩

theorem reduceBitAt_sound (hsc : 2 ≤ sc) (h : Wf sc v) {i : ℕ} {c : BitValue} {v' : Ival}
    (hv' : reduceBitAt sc i v c = .ok v') {x : ℤ} (hx : x ∈ concr v) (hc : c.Has (x.testBit i)) : x ∈ concr v' := by
  by_cases hboth : c = .both
  · unfold reduceBitAt at hv'
    rw [if_pos hboth] at hv'
    cases hv'
    exact hx
  · cases v with
    | set s =>
      rw [reduceBitAt,if_neg hboth] at hv'
      cases hv'
      exact ((arrayFilter_spec h _).2 x).2 ⟨hx,decide_eq_true (bitValue_eq_of_has hboth hc)⟩
    | topItv l u r m =>
      have hr := (wf_topItv_iff.mp h).1
      obtain ⟨l',u',w,hl',hu',hw,hconcr⟩ := reduceBitAt_top hsc (i := i) hboth h
      rw [hw] at hv'
      cases hv'
      rw [hconcr]
      exact ⟨hx.1,reduceLower_sound hboth hr.pos hl' hx.1 hx.2.1 hc,reduceUpper_sound hboth hr.pos hu' hx.1 hx.2.2 hc⟩

theorem reduceBit_sound (hsc : 2 ≤ sc) (h : Wf sc v) {i : Bit} {c : BitValue} {v' : Ival}
    (hv' : reduceBit sc i v c = .ok v') {x : ℤ} (hx : x ∈ concr v) (hc : c.Has (bitOf i x)) : x ∈ concr v' := by
  cases i with
  | sign => exact reduceSign_sound hsc h hv' hx hc
  | bit i => exact reduceBitAt_sound hsc h hv' hx hc

theorem reduceBitAt_top_nonempty (hsc : 2 ≤ sc) {i : ℕ} {b c : BitValue} {l u : Option ℤ} {r m : ℤ}
    (h : Wf sc (.topItv l u r m)) (hb : extractBitAt i (.topItv l u r m) = .ok b) (hboth : c ≠ .both) {t : Bool}
    (hct : c.Has t) (hbt : b.Has t) (hno : ∀ x ∈ prog l u r m, ¬ c.Has (x.testBit i)) {v' : Ival}
    (hv' : reduceBitAt sc i (.topItv l u r m) c = .ok v') : (concr v').Nonempty := by
  obtain ⟨hr,hlong⟩ := wf_topItv_iff.mp h
  obtain ⟨l',u',w,hl',hu',hw,hconcr⟩ := reduceBitAt_top hsc (i := i) hboth h
  rw [hw] at hv'
  cases hv'
  have hred : Reduced l' u' r m := by
    obtain ⟨l1,hl1,hl⟩ := reduceLower_emod (i := i) hboth hr.nonneg hr.lt hr.lower
    obtain ⟨u1,hu1,hu⟩ := reduceUpper_emod (i := i) hboth hr.nonneg hr.lt hr.upper
    rw [hl'] at hl1
    rw [hu'] at hu1
    cases hl1
    cases hu1
    exact ⟨hr.pos,hr.nonneg,hr.lt,hl,hu⟩
  rw [hconcr]
  cases l with
  | none =>
    cases hl'
    obtain ⟨x,hx,_⟩ := hred.unbounded_below 0
    exact ⟨x,hx⟩
  | some l =>
    cases u with
    | none =>
      cases hu'
      obtain ⟨x,hx,_⟩ := hred.unbounded_above 0
      exact ⟨x,hx⟩
    | some u =>
      have hle : l ≤ u := hlong.le hr.pos rfl rfl
      have hl : ¬ c.Has (l.testBit i) := hno l (hr.lower_mem (by rintro _ ⟨⟩; exact hle))
      have hu : ¬ c.Has (u.testBit i) := hno u (hr.upper_mem (by rintro _ ⟨⟩; exact hle))
      have hlt : l.testBit i ≠ t := fun he => hl (he ▸ hct)
      have hut : u.testBit i ≠ t := fun he => hu (he ▸ hct)
      have hfar : 2 ^ i ≤ u - l := by
        rw [extractBitAt] at hb
        split at hb
        · rename_i hge
          exact hge
        · cases hb
          rw [has_union,has_bitValue,has_bitValue] at hbt
          rcases hbt with he | he
          · exact absurd he hlt
          · exact absurd he hut
      have hpar : l / 2 ^ i % 2 = u / 2 ^ i % 2 := by
        have hsame : l.testBit i = u.testBit i := by
          cases hl2 : l.testBit i <;> cases hu2 : u.testBit i <;> cases t <;> simp_all
        rw [testBit_eq,testBit_eq,decide_eq_decide] at hsame
        omega
      have hlong2 : 2 * m ≤ u - l := by
        have hmul : (2 : ℤ) * m ≤ sc * m := mul_le_mul_of_nonneg_right (by exact_mod_cast hsc) (by have := hr.pos; omega)
        exact hmul.trans (hlong l rfl u rfl)
      obtain ⟨x,hx,h1,h2⟩ := exists_between (by positivity) hr.pos (hr.lower l rfl) hlong2 hfar hpar
      have hlne : bitValue i l ≠ c := fun he => hl (he ▸ has_bitValue.mpr rfl)
      have hune : bitValue i u ≠ c := fun he => hu (he ▸ has_bitValue.mpr rfl)
      rw [reduceLower,if_pos hlne,reducedMin_eq hboth hlne] at hl'
      rw [reduceUpper,if_pos hune,reducedMax_eq hboth hune] at hu'
      cases hl'
      cases hu'
      refine ⟨x,hx,?_,?_⟩
      · rintro _ ⟨⟩
        exact roundUpToR_le hr.pos hx h1
      · rintro _ ⟨⟩
        exact le_roundDownToR hr.pos hx h2

theorem reduceBit_nonempty (hsc : 2 ≤ sc) (h : Wf sc v) {i : Bit} {b c : BitValue} (hb : extractBit i v = .ok b) {t : Bool}
    (hct : c.Has t) (hbt : b.Has t) {v' : Ival} (hv' : reduceBit sc i v c = .ok v') : (concr v').Nonempty := by
  by_cases hex : ∃ x ∈ concr v, c.Has (bitOf i x)
  · obtain ⟨x,hx,hxc⟩ := hex
    exact ⟨x,reduceBit_sound hsc h hv' hx hxc⟩
  · rw [not_exists] at hex
    cases i with
    | sign =>
      obtain ⟨x,hx,rfl⟩ := (extractSign_exact h hb).1 hbt
      exact absurd ⟨hx,hct⟩ (hex x)
    | bit i =>
      cases v with
      | set s =>
        obtain ⟨x,hx,rfl⟩ := (extractBitAt_set hb).1 hbt
        exact absurd ⟨hx,hct⟩ (hex x)
      | topItv l u r m =>
        have hboth : c ≠ .both := by
          rintro rfl
          obtain ⟨hr,hlong⟩ := wf_topItv_iff.mp h
          obtain ⟨a,ha⟩ := hr.exists_terms hlong
          exact hex _ ⟨ha 0 (Nat.zero_le _),trivial⟩
        exact reduceBitAt_top_nonempty hsc h hb hboth hct hbt (fun x hx hc => hex x ⟨hx,hc⟩) hv'

end Reductions

/-- An abstract operator follows an operator on bits: forwards, and backwards where the result is unknown. The reduced bits
of an operand meet those extracted from it. -/
structure BitOperator.Lawful (op : BitOperator) (f : Bool → Bool → Bool) : Prop where
  forward : ∀ {b1 b2 : BitValue} {x y : Bool}, b1.Has x → b2.Has y → (op.forward b1 b2).Has (f x y)
  backward : ∀ {b1 b2 : BitValue}, op.forward b1 b2 = .both → ∀ t : Bool, ∃ c1 c2,
    backward op b2 (if t then .on else .off) = .ok c1 ∧ backward op b1 (if t then .on else .off) = .ok c2 ∧
    (∃ x, c1.Has x ∧ b1.Has x) ∧ (∃ y, c2.Has y ∧ b2.Has y) ∧
    ∀ x y, b1.Has x → b2.Has y → f x y = t → c1.Has x ∧ c2.Has y

theorem opAnd_lawful : opAnd.Lawful and := by
  refine ⟨?_,?_⟩
  · intro b1 b2 x y
    cases b1 <;> cases b2 <;> cases x <;> cases y <;> simp [opAnd,BitValue.Has]
  · intro b1 b2 hb t
    cases b1 <;> cases b2 <;> cases t <;> first | (refine ⟨_,_,rfl,rfl,?_⟩; simp [BitValue.Has]; done) | cases hb

theorem opOr_lawful : opOr.Lawful or := by
  refine ⟨?_,?_⟩
  · intro b1 b2 x y
    cases b1 <;> cases b2 <;> cases x <;> cases y <;> simp [opOr,BitValue.Has]
  · intro b1 b2 hb t
    cases b1 <;> cases b2 <;> cases t <;> first | (refine ⟨_,_,rfl,rfl,?_⟩; simp [BitValue.Has]; done) | cases hb

theorem opXor_lawful : opXor.Lawful xor := by
  refine ⟨?_,?_⟩
  · intro b1 b2 x y
    cases b1 <;> cases b2 <;> cases x <;> cases y <;> simp [opXor,BitValue.Has,BitValue.not]
  · intro b1 b2 hb t
    cases b1 <;> cases b2 <;> cases t <;> first
      | (refine ⟨_,_,rfl,rfl,?_⟩; simp [BitValue.Has,BitValue.not]; done)
      | cases hb

end FramaC.Ival
