import FramaC.Lib.Bits

/-! # The dyadic order on the integers of a range

An integer is below another when some power of two divides the second one only; zero is above
everything. A non-empty range of integers has a unique greatest element for this order, its
pivot. The exclusive or of the two ends of a range tells which powers of two have a multiple
in it.
-/
namespace FramaC.Pivot

def Below (x p : ℤ) : Prop := ∃ k : ℕ, (2 : ℤ) ^ k ∣ p ∧ ¬ (2 : ℤ) ^ k ∣ x

theorem Below.asymm {x y : ℤ} (h : Below x y) : ¬ Below y x := by
  obtain ⟨k,hy,hx⟩ := h
  rintro ⟨j,hx',hy'⟩
  rcases le_total k j with h | h
  · exact hx ((pow_dvd_pow 2 h).trans hx')
  · exact hy' ((pow_dvd_pow 2 h).trans hy)

theorem Below.trans {x y z : ℤ} (h : Below x y) (h' : Below y z) : Below x z := by
  obtain ⟨k,hy,hx⟩ := h
  obtain ⟨j,hz,hy'⟩ := h'
  rcases le_total j k with hjk | hkj
  · exact absurd ((pow_dvd_pow 2 hjk).trans hy) hy'
  · exact ⟨k,(pow_dvd_pow 2 hkj).trans hz,hx⟩

theorem exists_odd_part {x : ℤ} (hx : x ≠ 0) : ∃ (k : ℕ) (c : ℤ), x = 2 ^ k * c ∧ ¬ (2 : ℤ) ∣ c := by
  have hfin : FiniteMultiplicity (2 : ℤ) x := Int.finiteMultiplicity_iff.mpr ⟨by decide,hx⟩
  obtain ⟨c,hc,hodd⟩ := hfin.exists_eq_pow_mul_and_not_dvd
  exact ⟨_,c,hc,hodd⟩

theorem pow_succ_dvd_iff {k : ℕ} {c : ℤ} : (2 : ℤ) ^ (k + 1) ∣ 2 ^ k * c ↔ (2 : ℤ) ∣ c := by
  rw [pow_succ]
  exact Int.mul_dvd_mul_iff_left (by positivity)

theorem below_zero {x : ℤ} (hx : x ≠ 0) : Below x 0 := by
  obtain ⟨k,c,rfl,hc⟩ := exists_odd_part hx
  exact ⟨k + 1,dvd_zero _,fun h => hc (pow_succ_dvd_iff.mp h)⟩

theorem exists_between {x y : ℤ} (hxy : x < y) (h : ¬ Below x y) (h' : ¬ Below y x) :
    ∃ z, x < z ∧ z < y ∧ Below x z := by
  have hdvd : ∀ k : ℕ, (2 : ℤ) ^ k ∣ x ↔ (2 : ℤ) ^ k ∣ y := by
    intro k
    constructor
    · intro hk
      by_contra hc
      exact h' ⟨k,hk,hc⟩
    · intro hk
      by_contra hc
      exact h ⟨k,hk,hc⟩
  have hx : x ≠ 0 := by
    rintro rfl
    exact h' (below_zero (by omega))
  obtain ⟨k,a,rfl,ha⟩ := exists_odd_part hx
  obtain ⟨b,rfl⟩ := (hdvd k).mp (dvd_mul_right _ _)
  have hpow : (0 : ℤ) < 2 ^ k := by positivity
  have hb : ¬ (2 : ℤ) ∣ b := fun hb => ha (pow_succ_dvd_iff.mp ((hdvd (k + 1)).mpr (pow_succ_dvd_iff.mpr hb)))
  have hab : a < b := lt_of_mul_lt_mul_left hxy hpow.le
  refine ⟨2 ^ k * (a + 1),?_,?_,⟨k + 1,(pow_succ_dvd_iff).mpr (by omega),fun hd => ha (pow_succ_dvd_iff.mp hd)⟩⟩
  · exact Int.mul_lt_mul_of_pos_left (by omega) hpow
  · exact Int.mul_lt_mul_of_pos_left (by omega) hpow

/-- The element of a range that is above all the others. -/
structure IsPivot (lo hi p : ℤ) : Prop where
  lower : lo ≤ p
  upper : p ≤ hi
  above : ∀ x, lo ≤ x → x ≤ hi → x ≠ p → Below x p

section Ranges
variable {lo hi lo' hi' p q : ℤ}

theorem IsPivot.unique (h : IsPivot lo hi p) (h' : IsPivot lo hi q) : p = q := by
  by_contra hne
  exact (h.above q h'.lower h'.upper (Ne.symm hne)).asymm (h'.above p h.lower h.upper hne)

theorem IsPivot.restrict (h : IsPivot lo hi p) (hlo : lo ≤ lo') (hhi : hi' ≤ hi) (h1 : lo' ≤ p)
    (h2 : p ≤ hi') : IsPivot lo' hi' p :=
  ⟨h1,h2,fun x hx1 hx2 => h.above x (hlo.trans hx1) (hx2.trans hhi)⟩

theorem exists_pivot_aux (n : ℕ) (lo : ℤ) : ∃ p, IsPivot lo (lo + n) p := by
  induction n with
  | zero => exact ⟨lo,⟨le_rfl,by simp,fun x h1 h2 hne => absurd (le_antisymm (by simpa using h2) h1) hne⟩⟩
  | succ n ih =>
    obtain ⟨p,hp⟩ := ih
    push_cast
    have hlt : p < lo + (n + 1) := by
      have := hp.upper
      omega
    by_cases h : Below p (lo + (n + 1))
    · refine ⟨lo + (n + 1),⟨by omega,le_rfl,fun x h1 h2 hne => ?_⟩⟩
      by_cases hxp : x = p
      · rwa [hxp]
      · exact (hp.above x h1 (by omega) hxp).trans h
    · refine ⟨p,⟨hp.lower,hlt.le,fun x h1 h2 hne => ?_⟩⟩
      by_cases hx : x = lo + (n + 1)
      · subst hx
        by_contra hc
        obtain ⟨z,hz1,hz2,hz⟩ := exists_between hlt h hc
        have := hp.lower
        exact hz.asymm (hp.above z (by omega) (by omega) (by omega))
      · exact hp.above x h1 (by omega) hne

theorem exists_pivot (h : lo ≤ hi) : ∃ p, IsPivot lo hi p := by
  obtain ⟨p,hp⟩ := exists_pivot_aux (hi - lo).toNat lo
  rw [show lo + ((hi - lo).toNat : ℤ) = hi by omega] at hp
  exact ⟨p,hp⟩

end Ranges

theorem xor_self (x : ℤ) : Int.xor x x = 0 := by
  cases x with
  | ofNat n => simp [Int.xor]
  | negSucc n => simp [Int.xor]

theorem two_pow_le_xor {x y : ℤ} (h : (0 ≤ x ∧ 0 ≤ y) ∨ (x < 0 ∧ y < 0)) (k : ℕ) :
    2 ^ k ≤ Int.xor x y ↔ x / 2 ^ k ≠ y / 2 ^ k := by
  induction k generalizing x y with
  | zero =>
    have hnn : 0 ≤ Int.xor x y := by
      rcases h with ⟨hx,hy⟩ | ⟨hx,hy⟩
      · obtain ⟨m,rfl⟩ := Int.eq_ofNat_of_zero_le hx
        obtain ⟨n,rfl⟩ := Int.eq_ofNat_of_zero_le hy
        exact Int.natCast_nonneg _
      · obtain ⟨m,rfl⟩ := Int.eq_negSucc_of_lt_zero hx
        obtain ⟨n,rfl⟩ := Int.eq_negSucc_of_lt_zero hy
        exact Int.natCast_nonneg _
    rw [pow_zero,Int.ediv_one,Int.ediv_one]
    constructor
    · rintro hle rfl
      rw [xor_self] at hle
      omega
    · intro hne
      by_contra hlt
      have hz : Int.xor x y = 0 := by omega
      apply hne
      rcases h with ⟨hx,hy⟩ | ⟨hx,hy⟩
      · obtain ⟨m,rfl⟩ := Int.eq_ofNat_of_zero_le hx
        obtain ⟨n,rfl⟩ := Int.eq_ofNat_of_zero_le hy
        have hz' : m ^^^ n = 0 := Int.ofNat.inj hz
        rw [Nat.xor_eq_zero_iff.mp hz']
      · obtain ⟨m,rfl⟩ := Int.eq_negSucc_of_lt_zero hx
        obtain ⟨n,rfl⟩ := Int.eq_negSucc_of_lt_zero hy
        have hz' : m ^^^ n = 0 := Int.ofNat.inj hz
        rw [Nat.xor_eq_zero_iff.mp hz']
  | succ k ih =>
    obtain ⟨a,m,rfl⟩ := Bits.exists_bit x
    obtain ⟨b,n,rfl⟩ := Bits.exists_bit y
    have hdiv : ∀ (c : Bool) (z : ℤ), Int.bit c z / 2 ^ (k + 1) = z / 2 ^ k := by
      intro c z
      rw [pow_succ',← Int.ediv_ediv_of_nonneg (by omega),Int.bit_val]
      congr 1
      cases c
      · simp
      · simp
        omega
    have hsign : (0 ≤ m ∧ 0 ≤ n) ∨ (m < 0 ∧ n < 0) := by
      rw [Int.bit_val,Int.bit_val] at h
      cases a <;> cases b <;> simp at h <;> omega
    rw [Int.lxor_bit,hdiv,hdiv,← ih hsign,Int.bit_val,pow_succ]
    cases (a ^^ b) <;> simp <;> omega

theorem exists_multiple_iff {a b c : ℤ} (hc : 0 < c) (hab : a ≤ b) :
    (∃ x, a ≤ x ∧ x ≤ b ∧ c ∣ x) ↔ (a - 1) / c ≠ b / c := by
  constructor
  · rintro ⟨x,h1,h2,k,rfl⟩ he
    have hk : k ≤ b / c := by
      rw [Int.le_ediv_iff_mul_le hc,mul_comm]
      exact h2
    rw [← he,Int.le_ediv_iff_mul_le hc,mul_comm] at hk
    omega
  · intro hne
    have hle : (a - 1) / c ≤ b / c := Int.ediv_le_ediv hc (by omega)
    refine ⟨c * (b / c),?_,?_,dvd_mul_right _ _⟩
    · have hlt : (a - 1) / c < b / c := by omega
      rw [Int.ediv_lt_iff_lt_mul hc,mul_comm] at hlt
      omega
    · rw [mul_comm]
      exact Int.ediv_mul_le b hc.ne'

theorem two_pow_le_signature {a b : ℤ} (hab : a ≤ b) (h0 : ¬ (a ≤ 0 ∧ 0 ≤ b)) (k : ℕ) :
    2 ^ k ≤ Int.xor (a - 1) b ↔ ∃ x, a ≤ x ∧ x ≤ b ∧ (2 : ℤ) ^ k ∣ x := by
  rw [two_pow_le_xor (by omega),exists_multiple_iff (by positivity) hab]

theorem signature_lt {lo hi a b c d p : ℤ} (hp : IsPivot lo hi p) (hab : a ≤ p ∧ p ≤ b) (hcd : c ≤ d)
    (h0 : p ≠ 0) (h1 : ¬ (a ≤ 0 ∧ 0 ≤ b)) (h2 : ¬ (c ≤ 0 ∧ 0 ≤ d)) (hc : lo ≤ c) (hd : d ≤ hi)
    (hdisj : b < c ∨ d < a) : Int.xor (c - 1) d < Int.xor (a - 1) b := by
  obtain ⟨k,e,he,hodd⟩ := exists_odd_part h0
  have hle : 2 ^ k ≤ Int.xor (a - 1) b :=
    (two_pow_le_signature (by omega) h1 k).mpr ⟨p,hab.1,hab.2,⟨e,he⟩⟩
  have hlt : ¬ 2 ^ k ≤ Int.xor (c - 1) d := by
    rw [two_pow_le_signature hcd h2]
    rintro ⟨x,hx1,hx2,hx⟩
    obtain ⟨j,hj,hj'⟩ := hp.above x (by omega) (by omega) (by omega)
    have hjk : k < j := by
      by_contra hc
      exact hj' ((pow_dvd_pow 2 (by omega)).trans hx)
    rw [he] at hj
    exact hodd (pow_succ_dvd_iff.mp ((pow_dvd_pow 2 hjk).trans hj))
  omega

end FramaC.Pivot
