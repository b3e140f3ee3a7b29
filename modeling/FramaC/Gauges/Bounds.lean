import FramaC.Ival.ArithSound

/-! # Bounds of the gauges domain

Intervals with optional bounds, for the number of iterations of a loop and for the increments of the variables in one
iteration. The operations are those of the module `Bounds`.
-/
namespace FramaC.Gauges
open Ival Integer

/-- A lower bound or `-infty`, an upper bound or `+infty`. -/
abbrev Bounds : Type := Option ℤ × Option ℤ

def opt2 (f : ℤ → ℤ → ℤ) : Option ℤ → Option ℤ → Option ℤ
  | some a, some b => some (f a b)
  | _, _ => none

namespace Bounds

def zero : Bounds := (some 0,some 0)

def injectRange (n1 n2 : ℕ) : Bounds := (some (min n1 n2 : ℕ),some (max n1 n2 : ℕ))

def enlarge (i : ℕ) (b : Bounds) : Bounds := (b.1.map (min (i : ℤ)),b.2.map (max (i : ℤ)))

def lift (fmin fmax : ℤ → ℤ → ℤ) (b1 b2 : Bounds) : Bounds := (opt2 fmin b1.1 b2.1,opt2 fmax b1.2 b2.2)

/-- How much the bounds of `i2` have increased from those of `i1`. -/
def delta (i1 i2 : Bounds) : Bounds :=
  let deltaMin := opt2 (· - ·) i2.1 i1.1
  let deltaMax := opt2 (· - ·) i2.2 i1.2
  (opt2 min deltaMin deltaMax,opt2 max deltaMin deltaMax)

def join : Bounds → Bounds → Bounds := lift min max
def add : Bounds → Bounds → Bounds := lift (· + ·) (· + ·)

def tightest (f : ℤ → ℤ → ℤ) : Option ℤ → Option ℤ → Option ℤ
  | some i1, some i2 => some (f i1 i2)
  | none, i => i
  | i, none => i

/-- `narrow`, or none for bottom. -/
def narrow (b1 b2 : Bounds) : Option Bounds :=
  match tightest max b1.1 b2.1, tightest min b1.2 b2.2 with
  | some mn, some mx => if mx < mn then none else some (some mn,some mx)
  | mn, mx => some (mn,mx)

def succ (b : Bounds) : Bounds := (b.1.map (· + 1),b.2.map (· + 1))

def mulCt (k : ℤ) (b : Bounds) : Bounds :=
  if k ≤ 0 then (b.2.map (k * ·),b.1.map (k * ·)) else (b.1.map (k * ·),b.2.map (k * ·))

def mulInf : Option ℤ → Option ℤ
  | none => none
  | some i => if i = 0 then some i else none

def mul (b1 b2 : Bounds) : Bounds :=
  let mulmin := match b1.1 with
    | none => (mulInf b2.2,mulInf b2.1)
    | some bmin1 => mulCt bmin1 b2
  let mulmax := match b1.2 with
    | none => (mulInf b2.1,mulInf b2.2)
    | some bmax1 => mulCt bmax1 b2
  join mulmin mulmax

def widenUnstableMin (b1 b2 : Option ℤ) : Option ℤ := if b1 = b2 then b1 else none

def widen (b1 b2 : Bounds) : Bounds := (widenUnstableMin b1.1 b2.1,widenUnstableMin b1.2 b2.2)

inductive Classify
  | containsZero
  | positive (min : ℤ) (max : Option ℤ)
  | negative (min : Option ℤ) (max : ℤ)

def classifySign : Bounds → Classify
  | (none,none) => .containsZero
  | (some mn,some mx) => if mn > 0 then .positive mn (some mx) else if mx < 0 then .negative (some mn) mx else .containsZero
  | (some mn,none) => if mn > 0 then .positive mn none else .containsZero
  | (none,some mx) => if mx < 0 then .negative none mx else .containsZero

def divTowardsMinusInfty (x y : ℤ) : ℤ := if y > 0 then x / y else (-x) / (-y)
def divTowardsPlusInfty (x y : ℤ) : ℤ := if y < 0 then x / y else (-x) / (-y)

/-- The possible numbers of additions of `b` that lead to `r`. -/
def backwardNb (b r : Bounds) : Bounds :=
  let nbMax := match classifySign b with
    | .containsZero => none
    | .positive minb _ =>
      match r.2 with
      | none => none
      | some maxr => if maxr > 0 then some (divTowardsMinusInfty maxr minb) else some 0
    | .negative _ maxb =>
      match r.1 with
      | none => none
      | some minr => if minr < 0 then some (divTowardsMinusInfty minr maxb) else some 0
  let nbMin := match classifySign r with
    | .containsZero => some 0
    | .positive minr _ =>
      match b.2 with
      | none => some 0
      | some maxb => if maxb > 0 then some (divTowardsPlusInfty minr maxb) else none
    | .negative _ maxr =>
      match b.1 with
      | none => some 0
      | some minb => if minb < 0 then some (divTowardsPlusInfty maxr minb) else none
  (nbMin,nbMax)

def Mem (b : Bounds) (x : ℤ) : Prop := (∀ a ∈ b.1, a ≤ x) ∧ ∀ c ∈ b.2, x ≤ c

/-- The sums of `k` members. -/
def Scaled (k : ℕ) (b : Bounds) (y : ℤ) : Prop :=
  (∀ a ∈ b.1, k * a ≤ y) ∧ (∀ c ∈ b.2, y ≤ k * c) ∧ (k = 0 → y = 0)

def Ordered (b : Bounds) : Prop := ∀ a ∈ b.1, ∀ c ∈ b.2, a ≤ c

section Members
variable {b c : Bounds} {x y : ℤ} {k : ℕ}

theorem scaled_zero : Scaled 0 b 0 := ⟨by simp,by simp,fun _ => rfl⟩

theorem scaled_of_zero (h : Scaled k zero y) : y = 0 := by
  have h1 := h.1 0 rfl
  have h2 := h.2.1 0 rfl
  simp only [mul_zero] at h1 h2
  omega

theorem zero_scaled : Scaled k zero 0 := by
  refine ⟨?_,?_,fun _ => rfl⟩
  · rintro _ ⟨⟩
    simp
  · rintro _ ⟨⟩
    simp

theorem Scaled.succ (hy : Scaled k b y) (hx : Mem b x) : Scaled (k + 1) b (y + x) := by
  refine ⟨?_,?_,by omega⟩
  · intro a ha
    have h1 := hy.1 a ha
    have h2 := hx.1 a ha
    push_cast
    linarith
  · intro a ha
    have h1 := hy.2.1 a ha
    have h2 := hx.2 a ha
    push_cast
    linarith

theorem ordered_delta (i1 i2 : Bounds) : Ordered (delta i1 i2) := by
  intro a ha c hc
  simp only [delta] at ha hc
  cases hmin : opt2 (· - ·) i2.1 i1.1 with
  | none =>
    rw [hmin] at ha
    cases ha
  | some m =>
    cases hmax : opt2 (· - ·) i2.2 i1.2 with
    | none =>
      rw [hmin,hmax] at ha
      cases ha
    | some M =>
      rw [hmin,hmax] at ha hc
      cases ha
      cases hc
      exact min_le_max

theorem Ordered.exists_mem (hc : Ordered c) : ∃ y, Mem c y := by
  obtain ⟨c1,c2⟩ := c
  cases c1 with
  | none =>
    cases c2 with
    | none => exact ⟨0,by simp [Mem]⟩
    | some u => exact ⟨u,by simp [Mem]⟩
  | some l =>
    refine ⟨l,?_,?_⟩
    · rintro _ ⟨⟩
      exact le_rfl
    · exact hc l rfl

theorem delta_cover (hc : Ordered c) (hx : Mem b x) : ∃ d y, Mem (delta c b) d ∧ Mem c y ∧ x = d + y := by
  obtain ⟨b1,b2⟩ := b
  obtain ⟨c1,c2⟩ := c
  have hany : delta (c1,c2) (b1,b2) = (none,none) → ∃ d y, Mem (delta (c1,c2) (b1,b2)) d ∧ Mem (c1,c2) y ∧ x = d + y := by
    intro he
    obtain ⟨y,hy⟩ := hc.exists_mem
    refine ⟨x - y,y,?_,hy,by ring⟩
    rw [he]
    exact ⟨by simp,by simp⟩
  cases b1 with
  | none => exact hany rfl
  | some l =>
    cases c1 with
    | none => exact hany rfl
    | some cl =>
      cases b2 with
      | none => exact hany rfl
      | some u =>
        cases c2 with
        | none => exact hany rfl
        | some cu =>
          have h1 : l ≤ x := hx.1 l rfl
          have h2 : x ≤ u := hx.2 u rfl
          have h3 : cl ≤ cu := hc cl rfl cu rfl
          have hd : delta (some cl,some cu) (some l,some u) =
            (some (min (l - cl) (u - cu)),some (max (l - cl) (u - cu))) := rfl
          rw [hd]
          -- the difference nearest to what is left after the smallest increment
          refine ⟨max (min (l - cl) (u - cu)) (min (max (l - cl) (u - cu)) (x - cl)),_,?_,?_,(add_sub_cancel _ x).symm⟩
          · refine ⟨?_,?_⟩
            · rintro _ ⟨⟩
              omega
            · rintro _ ⟨⟩
              omega
          · refine ⟨?_,?_⟩
            · rintro _ ⟨⟩
              omega
            · rintro _ ⟨⟩
              omega

theorem exists_of_opt2 {f : ℤ → ℤ → ℤ} {o1 o2 : Option ℤ} {a : ℤ} (h : a ∈ opt2 f o1 o2) :
    ∃ p ∈ o1, ∃ q ∈ o2, a = f p q := by
  cases o1 with
  | none => cases h
  | some p =>
    cases o2 with
    | none => cases h
    | some q =>
      cases h
      exact ⟨p,rfl,q,rfl,rfl⟩

theorem mem_join_left (h : Mem b x) : Mem (join b c) x := by
  refine ⟨?_,?_⟩
  · intro a ha
    obtain ⟨p,hp,q,_,rfl⟩ := exists_of_opt2 ha
    exact (min_le_left p q).trans (h.1 p hp)
  · intro a ha
    obtain ⟨p,hp,q,_,rfl⟩ := exists_of_opt2 ha
    exact (h.2 p hp).trans (le_max_left p q)

theorem opt2_comm {f : ℤ → ℤ → ℤ} (hf : ∀ a b, f a b = f b a) (a b : Option ℤ) : opt2 f a b = opt2 f b a := by
  cases a <;> cases b <;> simp [opt2,hf]

theorem join_comm (b c : Bounds) : join b c = join c b :=
  Prod.ext (opt2_comm min_comm _ _) (opt2_comm max_comm _ _)

theorem mem_join_right (h : Mem c x) : Mem (join b c) x := by
  rw [join_comm]
  exact mem_join_left h

theorem mem_add (hb : Mem b x) (hc : Mem c y) : Mem (add b c) (x + y) := by
  refine ⟨?_,?_⟩
  · intro a ha
    obtain ⟨p,hp,q,hq,rfl⟩ := exists_of_opt2 ha
    exact add_le_add (hb.1 p hp) (hc.1 q hq)
  · intro a ha
    obtain ⟨p,hp,q,hq,rfl⟩ := exists_of_opt2 ha
    exact add_le_add (hb.2 p hp) (hc.2 q hq)

theorem Scaled.join_left (h : Scaled k b y) : Scaled k (join b c) y := by
  have hk : (0 : ℤ) ≤ k := Int.natCast_nonneg k
  refine ⟨?_,?_,h.2.2⟩
  · intro a ha
    obtain ⟨p,hp,q,_,rfl⟩ := exists_of_opt2 ha
    exact (mul_le_mul_of_nonneg_left (min_le_left p q) hk).trans (h.1 p hp)
  · intro a ha
    obtain ⟨p,hp,q,_,rfl⟩ := exists_of_opt2 ha
    exact (h.2.1 p hp).trans (mul_le_mul_of_nonneg_left (le_max_left p q) hk)

theorem Scaled.join_right (h : Scaled k c y) : Scaled k (join b c) y := by
  rw [join_comm]
  exact h.join_left

theorem mem_widenUnstableMin {b1 b2 : Option ℤ} {a : ℤ} (h : a ∈ widenUnstableMin b1 b2) : a ∈ b2 := by
  unfold widenUnstableMin at h
  split at h
  · rename_i he
    rwa [he] at h
  · cases h

theorem mem_widen (h : Mem c x) : Mem (widen b c) x :=
  ⟨fun a ha => h.1 a (mem_widenUnstableMin ha),fun a ha => h.2 a (mem_widenUnstableMin ha)⟩

theorem Scaled.widen (h : Scaled k c y) : Scaled k (widen b c) y :=
  ⟨fun a ha => h.1 a (mem_widenUnstableMin ha),fun a ha => h.2.1 a (mem_widenUnstableMin ha),h.2.2⟩

theorem mem_succ (h : Mem b x) : Mem (succ b) (x + 1) := by
  refine ⟨?_,?_⟩
  · intro a ha
    obtain ⟨a',ha',rfl⟩ := Option.mem_map.mp ha
    have := h.1 a' ha'
    omega
  · intro a ha
    obtain ⟨a',ha',rfl⟩ := Option.mem_map.mp ha
    have := h.2 a' ha'
    omega

theorem mem_injectRange_left (n1 n2 : ℕ) : Mem (injectRange n1 n2) n1 := by
  refine ⟨?_,?_⟩
  · rintro _ ⟨⟩
    exact_mod_cast min_le_left n1 n2
  · rintro _ ⟨⟩
    exact_mod_cast le_max_left n1 n2

theorem mem_injectRange_right (n1 n2 : ℕ) : Mem (injectRange n1 n2) n2 := by
  refine ⟨?_,?_⟩
  · rintro _ ⟨⟩
    exact_mod_cast min_le_right n1 n2
  · rintro _ ⟨⟩
    exact_mod_cast le_max_right n1 n2

theorem mem_enlarge_self (n : ℕ) (b : Bounds) : Mem (enlarge n b) n := by
  refine ⟨?_,?_⟩
  · intro a ha
    obtain ⟨a',_,rfl⟩ := Option.mem_map.mp ha
    exact min_le_left _ _
  · intro a ha
    obtain ⟨a',_,rfl⟩ := Option.mem_map.mp ha
    exact le_max_left _ _

theorem mem_enlarge (n : ℕ) (h : Mem b x) : Mem (enlarge n b) x := by
  refine ⟨?_,?_⟩
  · intro a ha
    obtain ⟨a',ha',rfl⟩ := Option.mem_map.mp ha
    exact (min_le_right _ _).trans (h.1 a' ha')
  · intro a ha
    obtain ⟨a',ha',rfl⟩ := Option.mem_map.mp ha
    exact (h.2 a' ha').trans (le_max_right _ _)

theorem mem_tightest_max {a1 a2 : Option ℤ} (h1 : ∀ a ∈ a1, a ≤ x) (h2 : ∀ a ∈ a2, a ≤ x) :
    ∀ a ∈ tightest max a1 a2, a ≤ x := by
  cases a1 with
  | none =>
    cases a2 with
    | none => exact h2
    | some a => exact h2
  | some a =>
    cases a2 with
    | none => exact h1
    | some a' =>
      rintro _ ⟨⟩
      exact max_le (h1 a rfl) (h2 a' rfl)

theorem mem_tightest_min {a1 a2 : Option ℤ} (h1 : ∀ a ∈ a1, x ≤ a) (h2 : ∀ a ∈ a2, x ≤ a) :
    ∀ a ∈ tightest min a1 a2, x ≤ a := by
  cases a1 with
  | none =>
    cases a2 with
    | none => exact h2
    | some a => exact h2
  | some a =>
    cases a2 with
    | none => exact h1
    | some a' =>
      rintro _ ⟨⟩
      exact le_min (h1 a rfl) (h2 a' rfl)

theorem mem_narrow (hb : Mem b x) (hc : Mem c x) : ∃ d, narrow b c = some d ∧ Mem d x := by
  have h1 := mem_tightest_max hb.1 hc.1
  have h2 := mem_tightest_min hb.2 hc.2
  unfold narrow
  generalize tightest max b.1 c.1 = mn at h1
  generalize tightest min b.2 c.2 = mx at h2
  cases mn with
  | none => exact ⟨_,rfl,h1,h2⟩
  | some mn =>
    cases mx with
    | none => exact ⟨_,rfl,h1,h2⟩
    | some mx =>
      have h3 := h1 mn rfl
      have h4 := h2 mx rfl
      exact ⟨_,if_neg (by omega),h1,h2⟩

theorem mem_mulCt {a : ℤ} (hb : Mem b k) : Mem (mulCt a b) (a * k) := by
  by_cases ha : a ≤ 0
  · rw [mulCt,if_pos ha]
    refine ⟨?_,?_⟩
    · intro c hc
      obtain ⟨c',hc',rfl⟩ := Option.mem_map.mp hc
      exact mul_le_mul_of_nonpos_left (hb.2 c' hc') ha
    · intro c hc
      obtain ⟨c',hc',rfl⟩ := Option.mem_map.mp hc
      exact mul_le_mul_of_nonpos_left (hb.1 c' hc') ha
  · rw [mulCt,if_neg ha]
    refine ⟨?_,?_⟩
    · intro c hc
      obtain ⟨c',hc',rfl⟩ := Option.mem_map.mp hc
      exact mul_le_mul_of_nonneg_left (hb.1 c' hc') (by omega)
    · intro c hc
      obtain ⟨c',hc',rfl⟩ := Option.mem_map.mp hc
      exact mul_le_mul_of_nonneg_left (hb.2 c' hc') (by omega)

theorem mem_of_mulInf {o : Option ℤ} {a : ℤ} (h : a ∈ mulInf o) : a = 0 ∧ 0 ∈ o := by
  cases o with
  | none => cases h
  | some i =>
    by_cases hi : i = 0
    · rw [mulInf,if_pos hi] at h
      cases h
      exact ⟨hi,by rw [hi]; rfl⟩
    · rw [mulInf,if_neg hi] at h
      cases h

theorem mem_mul_scaled (hn : Mem b k) (hy : Scaled k c y) : Mem (mul c b) y := by
  have hzero : ∀ {a}, a ∈ mulInf b.2 → y = 0 ∧ a = 0 := by
    intro a ha
    obtain ⟨ha0,hb⟩ := mem_of_mulInf ha
    have hk := hn.2 0 hb
    exact ⟨hy.2.2 (by omega),ha0⟩
  refine ⟨?_,?_⟩
  · intro l hl
    obtain ⟨p,hp,q,_,rfl⟩ := exists_of_opt2 hl
    refine (min_le_left p q).trans ?_
    cases hc : c.1 with
    | none =>
      rw [hc] at hp
      obtain ⟨hy0,hp0⟩ := hzero hp
      omega
    | some a =>
      rw [hc] at hp
      have ha := hy.1 a hc
      rw [mul_comm] at ha
      exact ((mem_mulCt hn).1 p hp).trans ha
  · intro u hu
    obtain ⟨p,_,q,hq,rfl⟩ := exists_of_opt2 hu
    refine le_trans ?_ (le_max_right p q)
    cases hc : c.2 with
    | none =>
      rw [hc] at hq
      obtain ⟨hy0,hq0⟩ := hzero hq
      omega
    | some a =>
      rw [hc] at hq
      have ha := hy.2.1 a hc
      rw [mul_comm] at ha
      exact ha.trans ((mem_mulCt hn).2 q hq)

theorem mulCt_fst {a n : ℤ} (h : a ∈ (mulCt n c).1) : (n ≤ 0 ∧ ∃ e ∈ c.2, a = n * e) ∨ (0 < n ∧ ∃ e ∈ c.1, a = n * e) := by
  by_cases hn : n ≤ 0
  · rw [mulCt,if_pos hn] at h
    obtain ⟨e,he,rfl⟩ := Option.mem_map.mp h
    exact Or.inl ⟨hn,e,he,rfl⟩
  · rw [mulCt,if_neg hn] at h
    obtain ⟨e,he,rfl⟩ := Option.mem_map.mp h
    exact Or.inr ⟨by omega,e,he,rfl⟩

theorem mulCt_snd {a n : ℤ} (h : a ∈ (mulCt n c).2) : (n ≤ 0 ∧ ∃ e ∈ c.1, a = n * e) ∨ (0 < n ∧ ∃ e ∈ c.2, a = n * e) := by
  by_cases hn : n ≤ 0
  · rw [mulCt,if_pos hn] at h
    obtain ⟨e,he,rfl⟩ := Option.mem_map.mp h
    exact Or.inl ⟨hn,e,he,rfl⟩
  · rw [mulCt,if_neg hn] at h
    obtain ⟨e,he,rfl⟩ := Option.mem_map.mp h
    exact Or.inr ⟨by omega,e,he,rfl⟩

theorem mem_scaled_mul (hc : Ordered c) (hn : Mem b k) (hy : Scaled k c y) : Mem (mul b c) y := by
  have hk : (0 : ℤ) ≤ k := Int.natCast_nonneg k
  have hk0 : (k : ℤ) ≤ 0 → y = 0 := fun h => hy.2.2 (by omega)
  refine ⟨?_,?_⟩
  · intro l hl
    obtain ⟨p,hp,q,hq,rfl⟩ := exists_of_opt2 hl
    -- the largest number of iterations decides, unless the coefficients are positive
    cases hb2 : b.2 with
    | none =>
      rw [hb2] at hq
      obtain ⟨rfl,ha⟩ := mem_of_mulInf hq
      have := hy.1 0 ha
      rw [mul_zero] at this
      exact (min_le_right p 0).trans this
    | some n2 =>
      rw [hb2] at hq
      have hkn := hn.2 n2 hb2
      rcases mulCt_fst hq with ⟨hn2,e,_,rfl⟩ | ⟨hn2,a,ha,rfl⟩
      · have hn0 : n2 = 0 := by omega
        rw [hk0 (by omega),hn0,zero_mul]
        exact min_le_right p 0
      · have hya := hy.1 a ha
        by_cases hpos : a ≤ 0
        · refine (min_le_right _ _).trans (le_trans ?_ hya)
          exact mul_le_mul_of_nonpos_right hkn hpos
        · have hy0 : 0 ≤ y := le_trans (mul_nonneg hk (by omega)) hya
          refine (min_le_left _ _).trans ?_
          cases hb1 : b.1 with
          | none =>
            rw [hb1] at hp
            obtain ⟨rfl,_⟩ := mem_of_mulInf hp
            exact hy0
          | some n1 =>
            rw [hb1] at hp
            have hn1 := hn.1 n1 hb1
            rcases mulCt_fst hp with ⟨hneg,e,he,rfl⟩ | ⟨_,e,he,rfl⟩
            · have hae := hc a ha e he
              exact (mul_nonpos_of_nonpos_of_nonneg hneg (by omega)).trans hy0
            · have : e = a := Option.mem_unique he ha
              subst this
              exact (mul_le_mul_of_nonneg_right hn1 (by omega)).trans hya
  · intro u hu
    obtain ⟨p,hp,q,hq,rfl⟩ := exists_of_opt2 hu
    cases hb2 : b.2 with
    | none =>
      rw [hb2] at hq
      obtain ⟨rfl,ha⟩ := mem_of_mulInf hq
      have := hy.2.1 0 ha
      rw [mul_zero] at this
      exact this.trans (le_max_right p 0)
    | some n2 =>
      rw [hb2] at hq
      have hkn := hn.2 n2 hb2
      rcases mulCt_snd hq with ⟨hn2,e,_,rfl⟩ | ⟨hn2,a,ha,rfl⟩
      · have hn0 : n2 = 0 := by omega
        rw [hk0 (by omega),hn0,zero_mul]
        exact le_max_right p 0
      · have hya := hy.2.1 a ha
        by_cases hneg : 0 ≤ a
        · refine le_trans (hya.trans ?_) (le_max_right _ _)
          exact mul_le_mul_of_nonneg_right hkn hneg
        · have hy0 : y ≤ 0 := hya.trans (mul_nonpos_of_nonneg_of_nonpos hk (by omega))
          refine le_trans ?_ (le_max_left _ _)
          cases hb1 : b.1 with
          | none =>
            rw [hb1] at hp
            obtain ⟨rfl,_⟩ := mem_of_mulInf hp
            exact hy0
          | some n1 =>
            rw [hb1] at hp
            have hn1 := hn.1 n1 hb1
            rcases mulCt_snd hp with ⟨hneg',e,he,rfl⟩ | ⟨_,e,he,rfl⟩
            · have hae := hc e he a ha
              exact hy0.trans (mul_nonneg_of_nonpos_of_nonpos hneg' (by omega))
            · have : e = a := Option.mem_unique he ha
              subst this
              exact hya.trans (mul_le_mul_of_nonpos_right hn1 (by omega))

theorem classifySign_positive {mn : ℤ} {mx : Option ℤ} (h : classifySign b = .positive mn mx) : mn ∈ b.1 ∧ 0 < mn := by
  obtain ⟨b1,b2⟩ := b
  cases b1 with
  | none =>
    cases b2 with
    | none => cases h
    | some u =>
      simp only [classifySign] at h
      split at h <;> cases h
  | some l =>
    cases b2 with
    | none =>
      simp only [classifySign] at h
      split at h
      · cases h
        exact ⟨rfl,by assumption⟩
      · cases h
    | some u =>
      simp only [classifySign] at h
      split at h
      · cases h
        exact ⟨rfl,by assumption⟩
      · split at h <;> cases h

theorem classifySign_negative {mn : Option ℤ} {mx : ℤ} (h : classifySign b = .negative mn mx) : mx ∈ b.2 ∧ mx < 0 := by
  obtain ⟨b1,b2⟩ := b
  cases b1 with
  | none =>
    cases b2 with
    | none => cases h
    | some u =>
      simp only [classifySign] at h
      split at h
      · cases h
        exact ⟨rfl,by assumption⟩
      · cases h
  | some l =>
    cases b2 with
    | none =>
      simp only [classifySign] at h
      split at h <;> cases h
    | some u =>
      simp only [classifySign] at h
      split at h
      · cases h
      · split at h
        · cases h
          exact ⟨rfl,by assumption⟩
        · cases h

theorem le_floor {n m d : ℤ} (hd : 0 < d) (h : n * d ≤ m) : n ≤ m / d := (Int.le_ediv_iff_mul_le hd).mpr h

theorem ceil_le {n m d : ℤ} (hd : 0 < d) (h : m ≤ n * d) : (-m) / (-d) ≤ n := by
  rw [Int.ediv_neg,neg_le]
  exact le_floor hd (by linarith)

theorem mem_backwardNb {r : Bounds} (hr : Mem r y) (hy : Scaled k b y) : Mem (backwardNb b r) k := by
  have hk : (0 : ℤ) ≤ k := Int.natCast_nonneg k
  refine ⟨?_,?_⟩
  · intro a ha
    simp only [backwardNb] at ha
    cases hcl : classifySign r with
    | containsZero =>
      rw [hcl] at ha
      cases ha
      exact hk
    | positive minr maxr =>
      rw [hcl] at ha
      obtain ⟨hmin,hpos⟩ := classifySign_positive hcl
      have hyr := hr.1 minr hmin
      cases hb : b.2 with
      | none =>
        rw [hb] at ha
        cases ha
        exact hk
      | some maxb =>
        rw [hb] at ha
        simp only at ha
        split at ha
        · rename_i hmb
          cases ha
          rw [divTowardsPlusInfty,if_neg (by omega)]
          exact ceil_le hmb (hyr.trans (hy.2.1 maxb hb))
        · cases ha
    | negative minr maxr =>
      rw [hcl] at ha
      obtain ⟨hmax,hneg⟩ := classifySign_negative hcl
      have hyr := hr.2 maxr hmax
      cases hb : b.1 with
      | none =>
        rw [hb] at ha
        cases ha
        exact hk
      | some minb =>
        rw [hb] at ha
        simp only at ha
        split at ha
        · rename_i hmb
          cases ha
          rw [divTowardsPlusInfty,if_pos hmb]
          have hle := (hy.1 minb hb).trans hyr
          have hceil := ceil_le (n := k) (m := -maxr) (d := -minb) (by omega) (by linarith)
          rwa [neg_neg,neg_neg] at hceil
        · cases ha
  · intro a ha
    simp only [backwardNb] at ha
    cases hcl : classifySign b with
    | containsZero =>
      rw [hcl] at ha
      cases ha
    | positive minb maxb =>
      rw [hcl] at ha
      obtain ⟨hmin,hpos⟩ := classifySign_positive hcl
      have hyb := hy.1 minb hmin
      cases hmr : r.2 with
      | none =>
        rw [hmr] at ha
        cases ha
      | some maxr =>
        rw [hmr] at ha
        have hyr := hr.2 maxr hmr
        simp only at ha
        split at ha
        · cases ha
          rw [divTowardsMinusInfty,if_pos hpos]
          exact le_floor hpos (hyb.trans hyr)
        · cases ha
          by_contra hlt
          have : minb ≤ k * minb := le_mul_of_one_le_left hpos.le (by omega)
          omega
    | negative minb maxb =>
      rw [hcl] at ha
      obtain ⟨hmax,hneg⟩ := classifySign_negative hcl
      have hyb := hy.2.1 maxb hmax
      cases hmr : r.1 with
      | none =>
        rw [hmr] at ha
        cases ha
      | some minr =>
        rw [hmr] at ha
        have hyr := hr.1 minr hmr
        simp only at ha
        split at ha
        · cases ha
          rw [divTowardsMinusInfty,if_neg (by omega)]
          exact le_floor (by omega) (by linarith)
        · cases ha
          by_contra hlt
          have : -maxb ≤ k * -maxb := le_mul_of_one_le_left (by omega) (by omega)
          linarith

end Members

end Bounds

end FramaC.Gauges
