import Mathlib

/-! # Arithmetic progressions with optional bounds

The integers congruent to `r` modulo `m` between two optional bounds. A progression is
reduced when its finite bounds are members; long reduced progressions are determined by
their members, which is what makes a representation by bounds and residue canonical.
-/
namespace FramaC.Progression

def prog (mn mx : Option ℤ) (r m : ℤ) : Set ℤ :=
  {x | x % m = r ∧ (∀ a ∈ mn, a ≤ x) ∧ ∀ b ∈ mx, x ≤ b}

theorem mem_prog {mn mx : Option ℤ} {r m x : ℤ} :
    x ∈ prog mn mx r m ↔ x % m = r ∧ (∀ a ∈ mn, a ≤ x) ∧ ∀ b ∈ mx, x ≤ b := Iff.rfl

/-- Residue in range and finite bounds in the class. -/
structure Reduced (mn mx : Option ℤ) (r m : ℤ) : Prop where
  pos : 1 ≤ m
  nonneg : 0 ≤ r
  lt : r < m
  lower : ∀ a ∈ mn, a % m = r
  upper : ∀ b ∈ mx, b % m = r

/-- At least `n+1` members. -/
def Long (n : ℕ) (mn mx : Option ℤ) (m : ℤ) : Prop := ∀ a ∈ mn, ∀ b ∈ mx, n * m ≤ b - a

/-- The `n` first terms from `a` with step `m`. -/
@[grind =] def steps (m : ℤ) : ℕ → ℤ → List ℤ
  | 0, _ => []
  | n + 1, a => a :: steps m n (a + m)

@[simp] theorem length_steps (m : ℤ) (n : ℕ) (a : ℤ) : (steps m n a).length = n := by
  induction n generalizing a with
  | zero => rfl
  | succ n ih => simp [steps,ih]

theorem mem_steps {m : ℤ} {n : ℕ} {a x : ℤ} : x ∈ steps m n a ↔ ∃ k : ℕ, k < n ∧ x = a + m * k := by
  induction n generalizing a with
  | zero => simp [steps]
  | succ n ih =>
    rw [steps,List.mem_cons,ih]
    constructor
    · rintro (rfl | ⟨k,hk,rfl⟩)
      · exact ⟨0,by omega,by simp⟩
      · exact ⟨k + 1,by omega,by push_cast; ring⟩
    · rintro ⟨k,hk,rfl⟩
      cases k with
      | zero => exact .inl (by simp)
      | succ k => exact .inr ⟨k,by omega,by push_cast; ring⟩

theorem steps_append (m : ℤ) (k n : ℕ) (a : ℤ) : steps m (k + n) a = steps m k a ++ steps m n (a + m * k) := by
  induction k generalizing a with
  | zero => simp [steps]
  | succ k ih =>
    rw [Nat.succ_add,steps,steps,ih,List.cons_append]
    congr 3
    push_cast
    ring

theorem steps_pairwise {m : ℤ} (hm : 1 ≤ m) (n : ℕ) (a : ℤ) : (steps m n a).Pairwise (· < ·) := by
  induction n generalizing a with
  | zero => exact List.Pairwise.nil
  | succ n ih =>
    refine List.Pairwise.cons ?_ (ih _)
    intro x hx
    obtain ⟨k,_,rfl⟩ := (mem_steps).mp hx
    have : 0 ≤ m * k := by positivity
    omega

theorem dvd_sub_of_emod_eq {m x y : ℤ} (h : x % m = y % m) : m ∣ x - y := Int.ModEq.dvd h.symm

theorem add_le_of_emod_eq {m r a b : ℤ} (ha : a % m = r) (hb : b % m = r) (h : a < b) : a + m ≤ b := by
  have := Int.le_of_dvd (by omega) (dvd_sub_of_emod_eq (hb.trans ha.symm))
  omega

theorem emod_eq_iff_dvd {x r m : ℤ} (h0 : 0 ≤ r) (hr : r < m) : x % m = r ↔ m ∣ x - r := by
  rw [Int.dvd_iff_emod_eq_zero,← Int.emod_eq_emod_iff_emod_sub_eq_zero,Int.emod_eq_of_lt h0 hr]

theorem add_mul_emod {a r m : ℤ} (ha : a % m = r) (k : ℤ) : (a + m * k) % m = r := by
  rw [Int.add_mul_emod_self_left,ha]

section Members
variable {mn mx mn' mx' : Option ℤ} {r m r' m' : ℤ}

theorem Reduced.exists_terms (h : Reduced mn mx r m) {n : ℕ} (hl : Long n mn mx m) :
    ∃ a, ∀ k : ℕ, k ≤ n → a + m * k ∈ prog mn mx r m := by
  obtain ⟨hm,h0,hr,hmn,hmx⟩ := h
  have hmul : ∀ k : ℕ, k ≤ n → 0 ≤ m * k ∧ m * k ≤ n * m := by
    intro k hk
    have hk' : (k : ℤ) ≤ n := by exact_mod_cast hk
    exact ⟨by positivity,by nlinarith⟩
  cases mn with
  | some a =>
    refine ⟨a,fun k hk => ⟨add_mul_emod (hmn a rfl) k,?_,?_⟩⟩
    · rintro _ ⟨⟩
      have := (hmul k hk).1
      omega
    · intro b hb
      have := hl a rfl b hb
      have := (hmul k hk).2
      omega
  | none =>
    cases mx with
    | some b =>
      refine ⟨b - n * m,fun k hk => ⟨?_,by simp,?_⟩⟩
      · have he : b - n * m + m * k = b + m * (k - n) := by ring
        rw [he]
        exact add_mul_emod (hmx b rfl) _
      · rintro _ ⟨⟩
        have := (hmul k hk).2
        omega
    | none => exact ⟨r,fun k _ => ⟨add_mul_emod (Int.emod_eq_of_lt h0 hr) k,by simp,by simp⟩⟩

theorem Reduced.unbounded_below (h : Reduced none mx r m) (c : ℤ) :
    ∃ x ∈ prog none mx r m, x ≤ c := by
  obtain ⟨hm,h0,hr,-,hmx⟩ := h
  let c' := min c (mx.getD c)
  have hx : 0 ≤ (c' - r) % m := Int.emod_nonneg _ (by omega)
  refine ⟨c' - (c' - r) % m,⟨?_,by simp,?_⟩,?_⟩
  · rw [emod_eq_iff_dvd h0 hr,show c' - (c' - r) % m - r = c' - r - (c' - r) % m by ring]
    exact Int.dvd_self_sub_emod
  · rintro b ⟨⟩
    have : c' ≤ b := min_le_right _ _
    omega
  · have : c' ≤ c := min_le_left _ _
    omega

theorem Reduced.unbounded_above (h : Reduced mn none r m) (c : ℤ) :
    ∃ x ∈ prog mn none r m, c ≤ x := by
  obtain ⟨hm,h0,hr,hmn,-⟩ := h
  let c' := max c (mn.getD c)
  have hx : 0 ≤ (r - c') % m := Int.emod_nonneg _ (by omega)
  refine ⟨c' + (r - c') % m,⟨?_,?_,by simp⟩,?_⟩
  · rw [emod_eq_iff_dvd h0 hr,show c' + (r - c') % m - r = -(r - c' - (r - c') % m) by ring,dvd_neg]
    exact Int.dvd_self_sub_emod
  · rintro a ⟨⟩
    have : a ≤ c' := le_max_right _ _
    omega
  · have : c ≤ c' := le_max_left _ _
    omega

theorem Reduced.lower_mem {a : ℤ} (h : Reduced (some a) mx r m) (hl : ∀ b ∈ mx, a ≤ b) :
    a ∈ prog (some a) mx r m :=
  ⟨h.lower a rfl,by rintro _ ⟨⟩; exact le_rfl,hl⟩

theorem Reduced.upper_mem {b : ℤ} (h : Reduced mn (some b) r m) (hl : ∀ a ∈ mn, a ≤ b) :
    b ∈ prog mn (some b) r m :=
  ⟨h.upper b rfl,hl,by rintro _ ⟨⟩; exact le_rfl⟩

theorem Long.le {n : ℕ} (hl : Long n mn mx m) (hm : 1 ≤ m) {a b : ℤ} (ha : a ∈ mn) (hb : b ∈ mx) :
    a ≤ b := by
  have h := hl a ha b hb
  have : 0 ≤ n * m := by positivity
  omega

theorem Long.mono {n k : ℕ} (hl : Long n mn mx m) (hm : 1 ≤ m) (hk : k ≤ n) : Long k mn mx m := by
  intro a ha b hb
  have h := hl a ha b hb
  have : (k : ℤ) * m ≤ n * m := by gcongr
  omega

theorem Reduced.subset_iff (h : Reduced mn mx r m) (hl : Long 1 mn mx m)
    (h' : Reduced mn' mx' r' m') :
    prog mn mx r m ⊆ prog mn' mx' r' m' ↔
      (∀ a' ∈ mn', ∃ a ∈ mn, a' ≤ a) ∧ (∀ b' ∈ mx', ∃ b ∈ mx, b ≤ b') ∧ m' ∣ m ∧ r % m' = r' := by
  constructor
  · intro hs
    obtain ⟨a,ha⟩ := h.exists_terms hl
    have h0 := ha 0 (by omega)
    have h1 := ha 1 le_rfl
    simp only [Nat.cast_zero,mul_zero,add_zero] at h0
    simp only [Nat.cast_one,mul_one] at h1
    have hd : m' ∣ m := by
      have e0 := (emod_eq_iff_dvd h'.nonneg h'.lt).mp (hs h0).1
      have e1 := (emod_eq_iff_dvd h'.nonneg h'.lt).mp (hs h1).1
      have := dvd_sub e1 e0
      rwa [show a + m - r' - (a - r') = m by ring] at this
    refine ⟨?_,?_,hd,?_⟩
    · intro a' ha'
      cases mn with
      | none =>
        obtain ⟨x,hx,hxa⟩ := h.unbounded_below (a' - 1)
        have := (hs hx).2.1 a' ha'
        omega
      | some a₁ =>
        exact ⟨a₁,rfl,(hs (h.lower_mem fun b hb => hl.le h.pos rfl hb)).2.1 a' ha'⟩
    · intro b' hb'
      cases mx with
      | none =>
        obtain ⟨x,hx,hxb⟩ := h.unbounded_above (b' + 1)
        have := (hs hx).2.2 b' hb'
        omega
      | some b₁ =>
        exact ⟨b₁,rfl,(hs (h.upper_mem fun a ha => hl.le h.pos ha rfl)).2.2 b' hb'⟩
    · rw [← h0.1,Int.emod_emod_of_dvd _ hd]
      exact (hs h0).1
  · rintro ⟨hmn,hmx,hd,hr⟩ x ⟨hx,hxa,hxb⟩
    refine ⟨?_,?_,?_⟩
    · rw [← Int.emod_emod_of_dvd _ hd,hx,hr]
    · intro a' ha'
      obtain ⟨a,ha,hle⟩ := hmn a' ha'
      exact hle.trans (hxa a ha)
    · intro b' hb'
      obtain ⟨b,hb,hle⟩ := hmx b' hb'
      exact (hxb b hb).trans hle

theorem option_eq_of_forall {a b : Option ℤ} (h : ∀ x ∈ a, ∃ y ∈ b, x ≤ y)
    (h' : ∀ y ∈ b, ∃ x ∈ a, y ≤ x) : a = b := by
  cases a with
  | none =>
    cases b with
    | none => rfl
    | some y => simpa using h' y rfl
  | some x =>
    obtain ⟨y,hy,hxy⟩ := h x rfl
    obtain ⟨z,hz,hyz⟩ := h' y hy
    cases hz
    rw [hy,le_antisymm hxy hyz]

theorem Reduced.eq_of_prog_eq (h : Reduced mn mx r m) (hl : Long 1 mn mx m)
    (h' : Reduced mn' mx' r' m') (hl' : Long 1 mn' mx' m')
    (he : prog mn mx r m = prog mn' mx' r' m') : mn = mn' ∧ mx = mx' ∧ r = r' ∧ m = m' := by
  obtain ⟨h1,h2,h3,h4⟩ := (h.subset_iff hl h').mp he.subset
  obtain ⟨g1,g2,g3,_⟩ := (h'.subset_iff hl' h).mp he.symm.subset
  have hm : m = m' := Int.dvd_antisymm (by linarith [h.pos]) (by linarith [h'.pos]) g3 h3
  refine ⟨option_eq_of_forall g1 h1,?_,?_,hm⟩
  · have flip : ∀ {a b : Option ℤ}, (∀ x ∈ a, ∃ y ∈ b, y ≤ x) → (∀ y ∈ b, ∃ x ∈ a, x ≤ y) → a = b := by
      intro a b hab hba
      have := option_eq_of_forall (a := a.map Neg.neg) (b := b.map Neg.neg)
        (by simpa using hab) (by simpa using hba)
      exact Option.map_injective neg_injective this
    exact flip g2 h2
  · rw [← h4,← hm,Int.emod_eq_of_lt h.nonneg h.lt]

theorem Reduced.not_subset_list (h : Reduced mn mx r m) {n : ℕ} (hl : Long n mn mx m)
    {l : List ℤ} (hn : l.length ≤ n) : ¬ ∀ x ∈ prog mn mx r m, x ∈ l := by
  intro hs
  obtain ⟨a,ha⟩ := h.exists_terms hl
  have hsub : steps m (n + 1) a ⊆ l := by
    intro x hx
    obtain ⟨k,hk,rfl⟩ := (mem_steps).mp hx
    exact hs _ (ha k (by omega))
  have := (steps_pairwise h.pos (n + 1) a).nodup.subperm hsub |>.length_le
  rw [length_steps] at this
  omega

end Members

theorem mem_steps_iff {a b r m x : ℤ} (hm : 1 ≤ m) (ha : a % m = r) (hab : a ≤ b) :
    x ∈ steps m ((b - a) / m + 1).toNat a ↔ x ∈ prog (some a) (some b) r m := by
  have hq : 0 ≤ (b - a) / m := Int.ediv_nonneg (by omega) (by omega)
  rw [mem_steps]
  constructor
  · rintro ⟨k,hk,rfl⟩
    have hk' : (k : ℤ) ≤ (b - a) / m := by omega
    rw [Int.le_ediv_iff_mul_le (by omega)] at hk'
    refine ⟨add_mul_emod ha k,?_,?_⟩
    · rintro _ ⟨⟩
      have : 0 ≤ m * k := by positivity
      omega
    · rintro _ ⟨⟩
      rw [mul_comm] at hk'
      omega
  · rintro ⟨hx,hxa,hxb⟩
    have hxa := hxa a rfl
    have hxb := hxb b rfl
    obtain ⟨k,hk⟩ := dvd_sub_of_emod_eq (hx.trans ha.symm)
    have hk0 : 0 ≤ k := by
      by_contra hneg
      nlinarith
    have hkq : k ≤ (b - a) / m := by
      rw [Int.le_ediv_iff_mul_le (by omega),mul_comm]
      omega
    exact ⟨k.toNat,by omega,by rw [Int.toNat_of_nonneg hk0]; omega⟩

theorem span_of_pairwise {m : ℤ} {a : ℤ} {l : List ℤ} (hp : (a :: l).Pairwise (· < ·))
    (hd : ∀ x ∈ l, m ∣ x - a) : l.length * m ≤ (a :: l).getLast (by simp) - a := by
  induction l generalizing a with
  | nil => simp
  | cons b l ih =>
    obtain ⟨hab,hp⟩ := List.pairwise_cons.mp hp
    have hb : m ≤ b - a := Int.le_of_dvd (by linarith [hab b (by simp)]) (hd b (by simp))
    have hd' : ∀ x ∈ l, m ∣ x - b := by
      intro x hx
      have := dvd_sub (hd x (by simp [hx])) (hd b (by simp))
      rwa [show x - a - (b - a) = x - b by ring] at this
    have := ih hp hd'
    rw [List.getLast_cons (by simp)]
    push_cast [List.length_cons]
    linarith

theorem affine_emod {f c a r m : ℤ} (ha : a % m = r) :
    (f * a + c) % (|f| * m) = (f * r + c) % (|f| * m) := by
  obtain ⟨k,hk⟩ : m ∣ a - r := by
    rw [← ha]
    exact Int.dvd_self_sub_emod
  rw [Int.emod_eq_emod_iff_emod_sub_eq_zero,← Int.dvd_iff_emod_eq_zero,
    show f * a + c - (f * r + c) = f * (a - r) by ring,hk,← mul_assoc]
  exact (mul_dvd_mul_right (abs_dvd_self f) m).mul_right k

section Affine
variable {mn mx : Option ℤ} {f c r m : ℤ}

theorem Reduced.affine_incr (h : Reduced mn mx r m) (hf : 0 < f) :
    Reduced (mn.map fun x => f * x + c) (mx.map fun x => f * x + c) ((f * r + c) % (f * m)) (f * m) := by
  have hm := h.pos
  have hfm : 1 ≤ f * m := by nlinarith
  have hcls := fun {a : ℤ} (ha : a % m = r) => affine_emod (f := f) (c := c) ha
  rw [abs_of_pos hf] at hcls
  refine ⟨hfm,Int.emod_nonneg _ (by omega),Int.emod_lt_of_pos _ (by omega),?_,?_⟩
  · rintro _ hx
    obtain ⟨a,ha,rfl⟩ := Option.mem_map.mp hx
    exact hcls (h.lower a ha)
  · rintro _ hx
    obtain ⟨a,ha,rfl⟩ := Option.mem_map.mp hx
    exact hcls (h.upper a ha)

theorem Reduced.affine_decr (h : Reduced mn mx r m) (hf : f < 0) :
    Reduced (mx.map fun x => f * x + c) (mn.map fun x => f * x + c) ((f * r + c) % (-f * m)) (-f * m) := by
  have hm := h.pos
  have hfm : 1 ≤ -f * m := by nlinarith
  have hcls := fun {a : ℤ} (ha : a % m = r) => affine_emod (f := f) (c := c) ha
  rw [abs_of_neg hf] at hcls
  refine ⟨hfm,Int.emod_nonneg _ (by omega),Int.emod_lt_of_pos _ (by omega),?_,?_⟩
  · rintro _ hx
    obtain ⟨a,ha,rfl⟩ := Option.mem_map.mp hx
    exact hcls (h.upper a ha)
  · rintro _ hx
    obtain ⟨a,ha,rfl⟩ := Option.mem_map.mp hx
    exact hcls (h.lower a ha)

theorem Long.affine_incr {n : ℕ} (h : Long n mn mx m) (hf : 0 < f) :
    Long n (mn.map fun x => f * x + c) (mx.map fun x => f * x + c) (f * m) := by
  intro x hx y hy
  obtain ⟨a,ha,rfl⟩ := Option.mem_map.mp hx
  obtain ⟨b,hb,rfl⟩ := Option.mem_map.mp hy
  have := h a ha b hb
  calc (n : ℤ) * (f * m) = f * (n * m) := by ring
    _ ≤ f * (b - a) := by gcongr
    _ = f * b + c - (f * a + c) := by ring

theorem Long.affine_decr {n : ℕ} (h : Long n mn mx m) (hf : f < 0) :
    Long n (mx.map fun x => f * x + c) (mn.map fun x => f * x + c) (-f * m) := by
  intro x hx y hy
  obtain ⟨b,hb,rfl⟩ := Option.mem_map.mp hx
  obtain ⟨a,ha,rfl⟩ := Option.mem_map.mp hy
  have := h a ha b hb
  have hf' : 0 < -f := by omega
  calc (n : ℤ) * (-f * m) = -f * (n * m) := by ring
    _ ≤ -f * (b - a) := by gcongr
    _ = f * a + c - (f * b + c) := by ring

theorem exists_eq_affine (h0 : 0 ≤ r) (hr : r < m) {y : ℤ} (hy : y % (|f| * m) = (f * r + c) % (|f| * m)) :
    ∃ x, x % m = r ∧ y = f * x + c := by
  rw [Int.emod_eq_emod_iff_emod_sub_eq_zero,← Int.dvd_iff_emod_eq_zero] at hy
  obtain ⟨k,hk⟩ := ((mul_dvd_mul_right (self_dvd_abs f) m).trans hy)
  refine ⟨r + m * k,?_,by linear_combination hk⟩
  rw [Int.add_mul_emod_self_left,Int.emod_eq_of_lt h0 hr]

theorem Reduced.mem_affine_incr (h : Reduced mn mx r m) (hf : 0 < f) {y : ℤ} :
    y ∈ prog (mn.map fun x => f * x + c) (mx.map fun x => f * x + c) ((f * r + c) % (f * m)) (f * m) ↔
      ∃ x ∈ prog mn mx r m, y = f * x + c := by
  have hle : ∀ a b : ℤ, f * a + c ≤ f * b + c ↔ a ≤ b := by
    intro a b
    rw [add_le_add_iff_right,Int.mul_le_mul_left hf]
  simp only [mem_prog,Option.forall_mem_map]
  constructor
  · rintro ⟨hy,hmn,hmx⟩
    have hy' : y % (|f| * m) = (f * r + c) % (|f| * m) := by
      rw [abs_of_pos hf]
      exact hy
    obtain ⟨x,hx,rfl⟩ := exists_eq_affine h.nonneg h.lt hy'
    exact ⟨x,⟨hx,fun a ha => (hle a x).1 (hmn a ha),fun b hb => (hle x b).1 (hmx b hb)⟩,rfl⟩
  · rintro ⟨x,⟨hx,hmn,hmx⟩,rfl⟩
    refine ⟨?_,fun a ha => (hle a x).2 (hmn a ha),fun b hb => (hle x b).2 (hmx b hb)⟩
    have hcls := affine_emod (f := f) (c := c) hx
    rwa [abs_of_pos hf] at hcls

theorem Reduced.mem_affine_decr (h : Reduced mn mx r m) (hf : f < 0) {y : ℤ} :
    y ∈ prog (mx.map fun x => f * x + c) (mn.map fun x => f * x + c) ((f * r + c) % (-f * m)) (-f * m) ↔
      ∃ x ∈ prog mn mx r m, y = f * x + c := by
  have hle : ∀ a b : ℤ, f * a + c ≤ f * b + c ↔ b ≤ a := by
    intro a b
    rw [add_le_add_iff_right,mul_le_mul_left_of_neg hf]
  simp only [mem_prog,Option.forall_mem_map]
  constructor
  · rintro ⟨hy,hmx,hmn⟩
    rw [← abs_of_neg hf] at hy
    obtain ⟨x,hx,rfl⟩ := exists_eq_affine h.nonneg h.lt hy
    exact ⟨x,⟨hx,fun a ha => (hle x a).1 (hmn a ha),fun b hb => (hle b x).1 (hmx b hb)⟩,rfl⟩
  · rintro ⟨x,⟨hx,hmn,hmx⟩,rfl⟩
    refine ⟨?_,fun b hb => (hle b x).2 (hmx b hb),fun a ha => (hle x a).2 (hmn a ha)⟩
    have hcls := affine_emod (f := f) (c := c) hx
    rwa [abs_of_neg hf] at hcls

end Affine

end FramaC.Progression
