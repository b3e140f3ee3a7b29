import FramaC.Ival.BitwiseBits

/-! # Soundness of the bitwise operators

The congruence, the enumeration and the bounds follow the bits of a result. In the enumeration some partial result agrees
with it on the bits chosen so far; a bound is on the right side of it as soon as they differ.
-/
namespace FramaC.Ival
open Integer Progression Outcome Bits

def Combines (f : Bool → Bool → Bool) (a b z : ℤ) : Prop := ∀ i, z.testBit i = f (a.testBit i) (b.testBit i)

theorem Combines.bitOf {f : Bool → Bool → Bool} {a b z : ℤ} (h : Combines f a b z) (i : Bit) :
    bitOf i z = f (bitOf i a) (bitOf i b) := by
  cases i with
  | sign => exact sign_of_testBit h
  | bit i => exact h i

section Congruence
variable {sc : ℕ} {v : Ival}

theorem fits_numbits (x : ℤ) : Fits (numbits x) x := by
  have h : x.natAbs < 2 ^ numbits x := Nat.lt_size_self x.natAbs
  have h' : (x.natAbs : ℤ) < 2 ^ numbits x := by exact_mod_cast h
  unfold Fits
  omega

theorem trailingZerosNat_dvd (fuel n : ℕ) : 2 ^ trailingZerosNat fuel n ∣ n := by
  induction fuel generalizing n with
  | zero => simp [trailingZerosNat]
  | succ fuel ih =>
    unfold trailingZerosNat
    split
    · rename_i h
      rw [pow_succ]
      have hn : n = n / 2 * 2 := by omega
      nth_rewrite 2 [hn]
      exact mul_dvd_mul (ih (n / 2)) dvd_rfl
    · simp

theorem trailingZeros_dvd (x : ℤ) : 2 ^ trailingZeros x ∣ x := by
  rw [← Int.dvd_natAbs]
  exact_mod_cast trailingZerosNat_dvd (numbits x) x.natAbs

theorem getD_intToBitArray (n : ℕ) (x : ℤ) (i : ℕ) (s : BitValue) :
    (intToBitArray n x).getD i s = if i < n then bitValue i x else s := by
  unfold intToBitArray
  rw [List.getD_eq_getElem?_getD,List.getElem?_map]
  by_cases h : i < n
  · simp [h]
  · simp [h]

theorem lowBitMask_spec (h : Wf sc v) (hne : v ≠ bottom) :
    ∃ p, lowBitMask v = .ok p ∧ ∀ x ∈ concr v, ∀ i, (p.1.getD i p.2).Has (x.testBit i) := by
  have hmod : ∀ {r m : ℤ} {x : ℤ}, x % m = r → ∀ i,
      ((intToBitArray (trailingZeros m) r).getD i .both).Has (x.testBit i) := by
    intro r m x hx i
    rw [getD_intToBitArray]
    split
    · rename_i hi
      rw [has_bitValue]
      refine testBit_of_emod_eq (k := trailingZeros m) ?_ hi
      rw [← hx,Int.emod_emod_of_dvd _ (trailingZeros_dvd m)]
    · trivial
  cases v with
  | topItv l u r m => exact ⟨_,rfl,fun x hx => hmod hx.1⟩
  | set s =>
    cases s with
    | nil => exact absurd rfl hne
    | cons y s =>
      cases s with
      | nil =>
        refine ⟨_,rfl,?_⟩
        intro x hx i
        rw [mem_concr_set,List.mem_singleton] at hx
        subst hx
        rw [getD_intToBitArray]
        split
        · exact has_bitValue.mpr rfl
        · rename_i hi
          rw [(fits_numbits x).testBit (by omega)]
          split
          · rename_i hpos
            exact decide_eq_false (by omega)
          · rename_i hneg
            exact decide_eq_true (by omega)
      | cons y' s =>
        have h2 : 2 ≤ (y :: y' :: s).length := by simp
        have h2' : (y :: y' :: s).length ≥ 2 := h2
        simp only [lowBitMask,minMaxRMod,decide_eq_true h2',assertion_true,Res.ok_bind,unsafeMakeTopFromArray4_ok h.1 h2]
        refine ⟨_,rfl,?_⟩
        intro x hx
        exact hmod ((span_set h.1 h2).2.2 x hx).1

variable {op : BitOperator} {f : Bool → Bool → Bool} {v1 v2 : Ival}

theorem moduloStep_sound (hop : op.Lawful f) {size : ℕ} {b1 b2 : List BitValue} {s1 s2 : BitValue} {a b z : ℤ}
    (h1 : ∀ i, (b1.getD i s1).Has (a.testBit i)) (h2 : ∀ i, (b2.getD i s2).Has (b.testBit i)) (hz : Combines f a b z)
    (n i : ℕ) {rem : ℤ} (hrem : rem = z % 2 ^ i) :
    (moduloStep op size b1 s1 b2 s2 n i rem).1 = z % (moduloStep op size b1 s1 b2 s2 n i rem).2 := by
  induction n generalizing i rem with
  | zero => exact hrem
  | succ n ih =>
    simp only [moduloStep]
    split
    · exact hrem
    · have hbit := hop.forward (h1 i) (h2 i)
      rw [← hz i] at hbit
      rename_i hb
      refine ih (i + 1) ?_
      have hk : (0 : ℤ) < 2 ^ i := by positivity
      rw [emod_two_pow_succ]
      split
      · rename_i hon
        rw [hon] at hbit
        have hbit : z.testBit i = true := hbit
        rw [if_pos hbit,setBitOn,logor,hrem,lor_two_pow i (Int.emod_nonneg z hk.ne') (Int.emod_lt_of_pos z hk)]
        ring
      · rename_i hon
        cases hfw : op.forward (b1.getD i s1) (b2.getD i s2) with
        | on => exact absurd hfw hon
        | both => exact absurd hfw hb
        | off =>
          rw [hfw] at hbit
          have hbit : z.testBit i = false := hbit
          rw [if_neg (by rw [hbit]; simp),hrem,add_zero]

theorem computeModulo_spec (hop : op.Lawful f) (h1 : Wf sc v1) (h2 : Wf sc v2) (hne1 : v1 ≠ bottom) (hne2 : v2 ≠ bottom) :
    ∃ j : ℕ, ∃ r, computeModulo op v1 v2 = .ok (r,2 ^ j) ∧ 0 ≤ r ∧ r < 2 ^ j ∧
      ∀ a ∈ concr v1, ∀ b ∈ concr v2, ∀ z, Combines f a b z → z % 2 ^ j = r := by
  obtain ⟨p1,hp1,hb1⟩ := lowBitMask_spec h1 hne1
  obtain ⟨p2,hp2,hb2⟩ := lowBitMask_spec h2 hne2
  obtain ⟨j,hj,h0,hlt⟩ := moduloStep_spec op (max p1.1.length p2.1.length) p1.1 p1.2 p2.1 p2.2
    (max p1.1.length p2.1.length) 0 le_rfl (by simp)
  refine ⟨j,_,?_,h0,hlt,?_⟩
  · rw [← hj]
    simp only [computeModulo,hp1,hp2,Res.ok_bind]
    rfl
  · intro a ha b hb z hz
    rw [← hj]
    exact (moduloStep_sound hop (hb1 a ha) (hb2 b hb) hz _ 0 (by simp)).symm

end Congruence

section Size
variable {sc : ℕ} {v v1 v2 : Ival} {op : BitOperator} {f : Bool → Bool → Bool}

theorem significantBits_spec (h : Wf sc v) (hne : v ≠ bottom) :
    ∃ o, significantBits v = .ok o ∧ ∀ n ∈ o, ∀ x ∈ concr v, Fits n x := by
  obtain ⟨⟨mn,mx⟩,hmm⟩ := minAndMax_ok hne
  simp only [significantBits,hmm,Res.ok_bind]
  cases mn with
  | none => exact ⟨none,rfl,by simp⟩
  | some l =>
    cases mx with
    | none => exact ⟨none,rfl,by simp⟩
    | some u =>
      refine ⟨_,rfl,?_⟩
      rintro _ ⟨⟩ x hx
      obtain ⟨hl,hu⟩ := minAndMax_bounds h hmm hx
      have h1 := (fits_numbits l).mono (le_max_left _ (numbits u))
      have h2 := (fits_numbits u).mono (le_max_right (numbits l) _)
      have h3 := hl l rfl
      have h4 := hu u rfl
      unfold Fits at *
      omega

theorem extractSign_ok (hne : v ≠ bottom) : ∃ b, extractSign v = .ok b := by
  obtain ⟨⟨mn,mx⟩,hmm⟩ := minAndMax_ok hne
  simp only [extractSign,hmm,Res.ok_bind]
  split
  · exact ⟨_,rfl⟩
  · split
    · exact ⟨_,rfl⟩
    · exact ⟨_,rfl⟩

theorem eq_of_has {b : BitValue} (hb : b ≠ .both) {s t : Bool} (hs : b.Has s) (ht : b.Has t) : s = t := by
  cases b with
  | on => rw [hs,ht]
  | off => rw [hs,ht]
  | both => exact absurd rfl hb

theorem fits_both {a b z : ℤ} (hz : Combines f a b z) {n : ℕ} (ha : Fits n a) (hb : Fits n b) : Fits n z := by
  apply fits_of_testBit
  intro i hi
  rw [hz i,ha.testBit hi,hb.testBit hi]
  exact (hz.bitOf .sign).symm

theorem fits_right (hop : op.Lawful f) {a b z : ℤ} (hz : Combines f a b z) {n : ℕ} (hb : Fits n b) {s : BitValue}
    (hs : s.Has (decide (b < 0))) (hconst : op.forward .both s ≠ .both) : Fits n z := by
  apply fits_of_testBit
  intro i hi
  have hsign := hz.bitOf .sign
  rw [hz i,hb.testBit hi]
  refine (eq_of_has hconst (hop.forward trivial hs) ?_).trans hsign.symm
  exact hop.forward trivial hs

theorem fits_left (hop : op.Lawful f) {a b z : ℤ} (hz : Combines f a b z) {n : ℕ} (ha : Fits n a) {s : BitValue}
    (hs : s.Has (decide (a < 0))) (hconst : op.forward s .both ≠ .both) : Fits n z := by
  apply fits_of_testBit
  intro i hi
  have hsign := hz.bitOf .sign
  rw [hz i,ha.testBit hi]
  refine (eq_of_has hconst (hop.forward hs trivial) ?_).trans hsign.symm
  exact hop.forward hs trivial

theorem resultSize_spec (hop : op.Lawful f) (h1 : Wf sc v1) (h2 : Wf sc v2) (hne1 : v1 ≠ bottom) (hne2 : v2 ≠ bottom) :
    ∃ o, resultSize op v1 v2 = .ok o ∧
      ∀ n ∈ o, ∀ a ∈ concr v1, ∀ b ∈ concr v2, ∀ z, Combines f a b z → Fits n z := by
  obtain ⟨n1,hn1,hf1⟩ := significantBits_spec h1 hne1
  obtain ⟨n2,hn2,hf2⟩ := significantBits_spec h2 hne2
  obtain ⟨s1,hs1⟩ := extractSign_ok hne1
  obtain ⟨s2,hs2⟩ := extractSign_ok hne2
  simp only [resultSize,hn1,hn2,Res.ok_bind,hs1,hs2]
  cases hg : n1Greater n1 n2 with
  | true =>
    simp only [if_true]
    by_cases hc : op.forward .both s2 = .both
    · refine ⟨n1,by rw [if_pos hc]; rfl,?_⟩
      rintro n ⟨⟩ a ha b hb z hz
      cases n2 with
      | none => cases hg
      | some m =>
        refine fits_both hz (hf1 n rfl a ha) ((hf2 m rfl b hb).mono ?_)
        simpa [n1Greater] using hg
    · refine ⟨n2,by rw [if_neg hc]; rfl,?_⟩
      intro n hn a ha b hb z hz
      exact fits_right hop hz (hf2 n hn b hb) ((extractSign_exact h2 hs2).2 ⟨b,hb,rfl⟩) hc
  | false =>
    simp only [Bool.false_eq_true,if_false]
    by_cases hc : op.forward s1 .both = .both
    · refine ⟨n2,by rw [if_pos hc]; rfl,?_⟩
      rintro n ⟨⟩ a ha b hb z hz
      cases n1 with
      | none => cases hg
      | some m =>
        refine fits_both hz ((hf1 m rfl a ha).mono ?_) (hf2 n rfl b hb)
        have : ¬ m ≥ n := by simpa [n1Greater] using hg
        omega
    · refine ⟨n1,by rw [if_neg hc]; rfl,?_⟩
      intro n hn a ha b hb z hz
      exact fits_left hop hz (hf1 n hn a ha) ((extractSign_exact h1 hs1).2 ⟨a,ha,rfl⟩) hc

end Size

section Enumeration
variable {sc : ℕ} {op : BitOperator} {f : Bool → Bool → Bool}

/-- A partial result whose operands are well-formed and not empty. -/
structure Live (sc : ℕ) (t : ℤ × Ival × Ival) : Prop where
  wf1 : Wf sc t.2.1
  wf2 : Wf sc t.2.2
  left : (concr t.2.1).Nonempty
  right : (concr t.2.2).Nonempty

def Holds (a b : ℤ) (t : ℤ × Ival × Ival) : Prop := a ∈ concr t.2.1 ∧ b ∈ concr t.2.2

theorem ne_bottom_of_nonempty {v : Ival} (h : (concr v).Nonempty) : v ≠ bottom := by
  rintro rfl
  obtain ⟨x,hx⟩ := h
  cases hx

theorem extractBit_ok {v : Ival} (h : (concr v).Nonempty) (i : Bit) : ∃ b, extractBit i v = .ok b := by
  cases i with
  | sign => exact extractSign_ok (ne_bottom_of_nonempty h)
  | bit i =>
    cases v with
    | set s =>
      cases s with
      | nil => exact absurd rfl (ne_bottom_of_nonempty h)
      | cons x s => exact ⟨_,rfl⟩
    | topItv l u r m =>
      cases l with
      | none => exact ⟨_,rfl⟩
      | some l =>
        cases u with
        | none => exact ⟨_,rfl⟩
        | some u =>
          simp only [extractBit,extractBitAt]
          split
          · exact ⟨_,rfl⟩
          · exact ⟨_,rfl⟩

theorem reduce_choice (hsc : 2 ≤ sc) (hop : op.Lawful f) {r : ℤ} {v1 v2 : Ival} (h : Live sc (r,v1,v2)) {i : Bit}
    {b1 b2 : BitValue} (hb1 : extractBit i v1 = .ok b1) (hb2 : extractBit i v2 = .ok b2)
    (hboth : op.forward b1 b2 = .both) (t : Bool) : ∃ c1 c2 w1 w2,
      backward op b2 (if t then .on else .off) = .ok c1 ∧ backward op b1 (if t then .on else .off) = .ok c2 ∧
      reduceBit sc i v1 c1 = .ok w1 ∧ reduceBit sc i v2 c2 = .ok w2 ∧ (∀ r', Live sc (r',w1,w2)) ∧
      ∀ a ∈ concr v1, ∀ b ∈ concr v2, ∀ z, Combines f a b z → bitOf i z = t → a ∈ concr w1 ∧ b ∈ concr w2 := by
  obtain ⟨c1,c2,hc1,hc2,⟨x,hx1,hx2⟩,⟨y,hy1,hy2⟩,hback⟩ := hop.backward hboth t
  obtain ⟨w1,hw1,hwf1⟩ := reduceBit_wf hsc h.wf1 i c1
  obtain ⟨w2,hw2,hwf2⟩ := reduceBit_wf hsc h.wf2 i c2
  refine ⟨c1,c2,w1,w2,hc1,hc2,hw1,hw2,fun r' => ⟨hwf1,hwf2,?_,?_⟩,?_⟩
  · exact reduceBit_nonempty hsc h.wf1 hb1 hx1 hx2 hw1
  · exact reduceBit_nonempty hsc h.wf2 hb2 hy1 hy2 hw2
  · intro a ha b hb z hz hbit
    rw [hz.bitOf i] at hbit
    obtain ⟨h1,h2⟩ := hback _ _ (extractBit_sound h.wf1 hb1 ha) (extractBit_sound h.wf2 hb2 hb) hbit
    exact ⟨reduceBit_sound hsc h.wf1 hw1 ha h1,reduceBit_sound hsc h.wf2 hw2 hb h2⟩

theorem bitOf_of_forward (hop : op.Lawful f) {r : ℤ} {v1 v2 : Ival} (h : Live sc (r,v1,v2)) {i : Bit} {b1 b2 : BitValue}
    (hb1 : extractBit i v1 = .ok b1) (hb2 : extractBit i v2 = .ok b2) {a b z : ℤ} (ha : a ∈ concr v1) (hb : b ∈ concr v2)
    (hz : Combines f a b z) : (op.forward b1 b2).Has (bitOf i z) := by
  rw [hz.bitOf i]
  exact hop.forward (extractBit_sound h.wf1 hb1 ha) (extractBit_sound h.wf2 hb2 hb)

/-- What follows a partial result: a partial result with the next bit of the result and the same operands in it. -/
def Followed (f : Bool → Bool → Bool) (size : ℕ) (i : Bit) (t : ℤ × Ival × Ival) (l : List (ℤ × Ival × Ival)) : Prop :=
  ∀ a b z, Holds a b t → Combines f a b z →
    ∃ t' ∈ l, Holds a b t' ∧ t'.1 = if bitOf i z then setBitOn size i t.1 else t.1

theorem smallSetBit_spec (hsc : 2 ≤ sc) (hop : op.Lawful f) (size : ℕ) (i : Bit) (acc : List (ℤ × Ival × Ival))
    {t : ℤ × Ival × Ival} (ht : Live sc t) : ∃ l, smallSetBit sc op size i acc t = .ok (l ++ acc) ∧
      (∀ t' ∈ l, Live sc t') ∧ Followed f size i t l := by
  obtain ⟨r,v1,v2⟩ := t
  obtain ⟨b1,hb1⟩ := extractBit_ok ht.left i
  obtain ⟨b2,hb2⟩ := extractBit_ok ht.right i
  have hbit : ∀ {a b z}, Holds a b (r,v1,v2) → Combines f a b z → (op.forward b1 b2).Has (bitOf i z) :=
    fun hh hz => bitOf_of_forward hop ht hb1 hb2 hh.1 hh.2 hz
  simp only [smallSetBit,hb1,hb2,Res.ok_bind]
  cases hfw : op.forward b1 b2 with
  | on =>
    refine ⟨[(setBitOn size i r,v1,v2)],rfl,?_,?_⟩
    · intro t' ht'
      rw [List.mem_singleton] at ht'
      subst ht'
      exact ⟨ht.wf1,ht.wf2,ht.left,ht.right⟩
    · intro a b z hh hz
      have hon := hbit hh hz
      rw [hfw] at hon
      exact ⟨_,List.mem_singleton_self _,hh,(if_pos hon).symm⟩
  | off =>
    refine ⟨[(r,v1,v2)],rfl,?_,?_⟩
    · intro t' ht'
      rw [List.mem_singleton] at ht'
      subst ht'
      exact ht
    · intro a b z hh hz
      have hoff := hbit hh hz
      rw [hfw] at hoff
      have hoff : bitOf i z = false := hoff
      exact ⟨_,List.mem_singleton_self _,hh,(if_neg (by rw [hoff]; simp)).symm⟩
  | both =>
    obtain ⟨c1,c2,w1,w2,hc1,hc2,hw1,hw2,hlive,hkeep⟩ := reduce_choice hsc hop ht hb1 hb2 hfw false
    obtain ⟨d1,d2,w3,w4,hd1,hd2,hw3,hw4,hlive',hkeep'⟩ := reduce_choice hsc hop ht hb1 hb2 hfw true
    have hc1 : op.backwardOff b2 = .ok c1 := hc1
    have hc2 : op.backwardOff b1 = .ok c2 := hc2
    have hd1 : op.backwardOn b2 = .ok d1 := hd1
    have hd2 : op.backwardOn b1 = .ok d2 := hd2
    refine ⟨[(setBitOn size i r,w3,w4),(r,w1,w2)],?_,?_,?_⟩
    · simp only [hc1,hc2,hd1,hd2,Res.ok_bind,hw1,hw2,hw3,hw4]
      rfl
    · intro t' ht'
      rcases List.mem_cons.mp ht' with rfl | ht'
      · exact hlive' _
      · rw [List.mem_singleton] at ht'
        subst ht'
        exact hlive _
    · intro a b z hh hz
      cases hb : bitOf i z with
      | true => exact ⟨_,List.mem_cons_self,hkeep' a hh.1 b hh.2 z hz hb,rfl⟩
      | false => exact ⟨_,List.mem_cons_of_mem _ (List.mem_singleton_self _),hkeep a hh.1 b hh.2 z hz hb,rfl⟩

theorem Followed.mono {size : ℕ} {i : Bit} {t : ℤ × Ival × Ival} {l l' : List (ℤ × Ival × Ival)}
    (h : Followed f size i t l) (hl : ∀ t' ∈ l, t' ∈ l') : Followed f size i t l' := by
  intro a b z hh hz
  obtain ⟨t',ht',h'⟩ := h a b z hh hz
  exact ⟨t',hl t' ht',h'⟩

theorem smallSetFold_spec (hsc : 2 ≤ sc) (hop : op.Lawful f) (size : ℕ) (i : Bit) {acc : List (ℤ × Ival × Ival)}
    (hacc : ∀ t ∈ acc, Live sc t) : ∃ l, acc.foldlM (smallSetBit sc op size i) [] = .ok l ∧ (∀ t' ∈ l, Live sc t') ∧
      ∀ t ∈ acc, Followed f size i t l := by
  have hfold : Sat (fun l => (∀ t' ∈ l, Live sc t') ∧ (∀ t ∈ acc, Followed f size i t l) ∧
      ∀ t, Followed f size i t [] → Followed f size i t l) (fun _ => False) (acc.foldlM (smallSetBit sc op size i) []) := by
    refine Sat.foldlM_covers (by simp) ?_
    intro l t ht hl
    obtain ⟨new,hnew,hlive,hfol⟩ := smallSetBit_spec hsc hop size i l (hacc t ht)
    refine Sat.of_ok hnew ⟨?_,?_,?_⟩
    · intro t' ht'
      rcases List.mem_append.mp ht' with h | h
      · exact hlive t' h
      · exact hl t' h
    · exact hfol.mono fun t' h => List.mem_append_left _ h
    · intro t' h
      exact h.mono fun _ => List.mem_append_right _
  obtain ⟨l,hl,h1,h2,_⟩ := hfold.exists_ok
  exact ⟨l,hl,h1,h2⟩

/-- A partial result with the bits of the result but those between `low` and `n`. -/
def Agrees (low n : ℕ) (z r : ℤ) : Prop := ∀ k, r.testBit k = if low ≤ k ∧ k < n then false else z.testBit k

theorem Agrees.eq {low n : ℕ} {z r : ℤ} (h : Agrees low n z r) (hn : n ≤ low) : r = z := by
  apply eq_of_testBit
  intro k
  rw [h k,if_neg (by omega)]

theorem Agrees.step {size low i : ℕ} {z r : ℤ} (h : Agrees low (i + 1) z r) (hi : low ≤ i) :
    Agrees low i z (if bitOf (.bit i) z then setBitOn size (.bit i) r else r) := by
  intro k
  have hk := h k
  by_cases hki : k = i
  · subst hki
    rw [if_pos (by omega)] at hk
    rw [if_neg (show ¬ (low ≤ k ∧ k < k) by omega)]
    by_cases hz : bitOf (.bit k) z = true
    · have hbit : z.testBit k = true := hz
      rw [if_pos hz,setBitOn,logor,Int.testBit_lor,testBit_two_pow,hbit]
      simp
    · rw [if_neg hz,hk]
      exact (Bool.eq_false_iff.mpr hz).symm
  · have hiff : (low ≤ k ∧ k < i + 1) ↔ (low ≤ k ∧ k < i) := by omega
    rw [if_congr hiff rfl rfl] at hk
    rw [← hk]
    by_cases hz : bitOf (.bit i) z = true
    · rw [if_pos hz,setBitOn,logor,Int.testBit_lor,testBit_two_pow,decide_eq_false (Ne.symm hki),Bool.false_or]
    · rw [if_neg hz]

theorem Agrees.sign {size low : ℕ} {z r : ℤ} (hz : Fits size z) (hr : ∀ k, r.testBit k = (decide (k < low) && z.testBit k)) :
    Agrees low size z (if bitOf .sign z then setBitOn size .sign r else r) := by
  intro k
  by_cases hneg : bitOf .sign z = true
  · have hsign : decide (z < 0) = true := hneg
    rw [if_pos hneg,setBitOn,logor,Int.testBit_lor,testBit_neg_two_pow,hr k]
    by_cases hk : size ≤ k
    · rw [if_neg (by omega),hz.testBit hk,hsign]
      simp [hk]
    · by_cases hl : low ≤ k
      · rw [if_pos (by omega)]
        simp [hk,hl]
      · rw [if_neg (by omega)]
        simp [hk,not_le.mp hl]
  · have hsign : decide (z < 0) = false := Bool.eq_false_iff.mpr hneg
    rw [if_neg hneg,hr k]
    by_cases hl : low ≤ k
    · by_cases hk : size ≤ k
      · rw [if_neg (by omega),hz.testBit hk,hsign,Bool.and_false]
      · rw [if_pos (by omega)]
        simp [hl]
    · rw [if_neg (by omega)]
      simp [not_le.mp hl]

theorem smallSetLoop_spec (hsc : 2 ≤ sc) (hop : op.Lawful f) (size low n : ℕ) {acc : List (ℤ × Ival × Ival)}
    (hacc : ∀ t ∈ acc, Live sc t) : ∃ o, smallSetLoop sc op size low n acc = .ok o ∧ ∀ l ∈ o, ∀ a b z, Combines f a b z →
      (∃ t ∈ acc, Holds a b t ∧ Agrees low n z t.1) → ∃ t ∈ l, t.1 = z := by
  induction n generalizing acc with
  | zero =>
    refine ⟨some acc,rfl,?_⟩
    rintro _ ⟨⟩ a b z _ ⟨t,ht,_,hag⟩
    exact ⟨t,ht,hag.eq (Nat.zero_le _)⟩
  | succ i ih =>
    simp only [smallSetLoop]
    split
    · rename_i hlow
      refine ⟨some acc,rfl,?_⟩
      rintro _ ⟨⟩ a b z _ ⟨t,ht,_,hag⟩
      exact ⟨t,ht,hag.eq (by omega)⟩
    · rename_i hlow
      obtain ⟨l,hl,hlive,hfol⟩ := smallSetFold_spec hsc hop size (.bit i) hacc
      rw [hl,Res.ok_bind]
      split
      · exact ⟨none,rfl,by simp⟩
      · obtain ⟨o,ho,hspec⟩ := ih hlive
        refine ⟨o,ho,?_⟩
        rintro l' hl' a b z hz ⟨t,ht,hh,hag⟩
        obtain ⟨t',ht',hh',hval⟩ := hfol t ht a b z hh hz
        refine hspec l' hl' a b z hz ⟨t',ht',hh',?_⟩
        rw [hval]
        exact hag.step (by omega)

theorem mem_foldl_add {l : List (ℤ × Ival × Ival)} {o : List ℤ} {y : ℤ} :
    y ∈ l.foldl (fun o t => O.add t.1 o) o ↔ y ∈ o ∨ ∃ t ∈ l, t.1 = y := by
  induction l generalizing o with
  | nil => simp
  | cons t l ih =>
    rw [List.foldl_cons,ih,O.mem_add]
    simp only [List.mem_cons,exists_eq_or_imp,eq_comm (a := y)]
    tauto

theorem numbits_two_pow (j : ℕ) : numbits (2 ^ j) - 1 = j := by
  have h : numbits (2 ^ j) = j + 1 := by
    unfold numbits
    rw [Int.natAbs_pow]
    exact Nat.size_pow
  omega

theorem computeSmallSet_spec (hsc : 2 ≤ sc) (hop : op.Lawful f) {v1 v2 : Ival} (size j : ℕ) {r : ℤ}
    (h : Live sc (r,v1,v2)) : ∃ o, computeSmallSet sc op size v1 v2 r (2 ^ j) = .ok o ∧ ∀ v ∈ o, ∀ a ∈ concr v1,
      ∀ b ∈ concr v2, ∀ z, Combines f a b z → z % 2 ^ j = r → Fits size z → z ∈ concr v := by
  obtain ⟨l,hl,hlive,hfol⟩ := smallSetBit_spec hsc hop size .sign [] h
  rw [List.append_nil] at hl
  obtain ⟨o,ho,hspec⟩ := smallSetLoop_spec hsc hop size j size hlive
  simp only [computeSmallSet,hl,Res.ok_bind,numbits_two_pow,ho]
  cases o with
  | none => exact ⟨none,rfl,by simp⟩
  | some l' =>
    refine ⟨_,rfl,?_⟩
    rintro _ ⟨⟩ a ha b hb z hz hr hfit
    obtain ⟨t,ht,hh,hval⟩ := hfol a b z ⟨ha,hb⟩ hz
    obtain ⟨t',ht',he⟩ := hspec l' rfl a b z hz ⟨t,ht,hh,by
      rw [hval]
      refine Agrees.sign hfit ?_
      intro k
      rw [← hr]
      exact testBit_emod_two_pow z j k⟩
    rw [shareSet_eq,mem_concr_set,mem_foldl_add]
    exact Or.inr ⟨t',ht',he⟩

end Enumeration

section BoundSearch
variable {sc : ℕ} {op : BitOperator} {f : Bool → Bool → Bool}

def preferred (lower : Bool) : Bit → Bool
  | .sign => lower
  | .bit _ => !lower

theorem boundSetBit_both (size : ℕ) (lower : Bool) {i : Bit} (r : ℤ) {v1 v2 : Ival} {b1 b2 : BitValue}
    (hb1 : extractBit i v1 = .ok b1) (hb2 : extractBit i v2 = .ok b2) (hboth : op.forward b1 b2 = .both) :
    boundSetBit sc op size lower i (r,v1,v2) = do
      let v1' ← reduceBit sc i v1 (← backward op b2 (if preferred lower i then .on else .off))
      let v2' ← reduceBit sc i v2 (← backward op b1 (if preferred lower i then .on else .off))
      return (if preferred lower i then setBitOn size i r else r,v1',v2') := by
  cases i <;> cases lower <;> simp only [boundSetBit,hb1,hb2,Res.ok_bind,hboth] <;> rfl

theorem boundSetBit_spec (hsc : 2 ≤ sc) (hop : op.Lawful f) (size : ℕ) (lower : Bool) (i : Bit) {t : ℤ × Ival × Ival}
    (ht : Live sc t) : ∃ t', boundSetBit sc op size lower i t = .ok t' ∧ Live sc t' ∧ ∃ s : Bool,
      t'.1 = (if s then setBitOn size i t.1 else t.1) ∧ ∀ a b z, Holds a b t → Combines f a b z →
        (bitOf i z = s → Holds a b t') ∧ (bitOf i z ≠ s → s = preferred lower i) := by
  obtain ⟨r,v1,v2⟩ := t
  obtain ⟨b1,hb1⟩ := extractBit_ok ht.left i
  obtain ⟨b2,hb2⟩ := extractBit_ok ht.right i
  have hbit : ∀ {a b z}, Holds a b (r,v1,v2) → Combines f a b z → (op.forward b1 b2).Has (bitOf i z) :=
    fun hh hz => bitOf_of_forward hop ht hb1 hb2 hh.1 hh.2 hz
  cases hfw : op.forward b1 b2 with
  | on =>
    simp only [boundSetBit,hb1,hb2,Res.ok_bind,hfw]
    refine ⟨_,rfl,⟨ht.wf1,ht.wf2,ht.left,ht.right⟩,true,rfl,?_⟩
    intro a b z hh hz
    have hon := hbit hh hz
    rw [hfw] at hon
    exact ⟨fun _ => hh,fun hne => absurd hon hne⟩
  | off =>
    simp only [boundSetBit,hb1,hb2,Res.ok_bind,hfw]
    refine ⟨_,rfl,ht,false,rfl,?_⟩
    intro a b z hh hz
    have hoff := hbit hh hz
    rw [hfw] at hoff
    exact ⟨fun _ => hh,fun hne => absurd hoff hne⟩
  | both =>
    obtain ⟨c1,c2,w1,w2,hc1,hc2,hw1,hw2,hlive,hkeep⟩ := reduce_choice hsc hop ht hb1 hb2 hfw (preferred lower i)
    rw [boundSetBit_both size lower r hb1 hb2 hfw]
    simp only [hc1,hc2,Res.ok_bind,hw1,hw2]
    refine ⟨_,rfl,hlive _,preferred lower i,rfl,?_⟩
    intro a b z hh hz
    exact ⟨fun he => hkeep a hh.1 b hh.2 z hz he,fun _ => rfl⟩

/-- The search of a bound at bit `n`: it is a multiple of `2 ^ n`, on the right side of the result, and equal to it above
bit `n` only if the operands are still there. -/
def Beyond (lower : Bool) (n : ℕ) (a b z q : ℤ) (t : ℤ × Ival × Ival) : Prop :=
  (if lower then q ≤ z / 2 ^ n else z / 2 ^ n ≤ q) ∧ (q = z / 2 ^ n → Holds a b t)

theorem beyond_of_ne {lower : Bool} {n : ℕ} {a b z q : ℤ} {t : ℤ × Ival × Ival} (s : Bool)
    (hside : if lower then q ≤ z / 2 ^ (n + 1) else z / 2 ^ (n + 1) ≤ q) (hne : q ≠ z / 2 ^ (n + 1)) :
    Beyond lower n a b z (2 * q + if s then 1 else 0) t := by
  have hdiv := ediv_two_pow z n
  unfold Beyond
  cases lower with
  | true =>
    simp only [if_true] at hside ⊢
    have hlt : 2 * q + (if s then 1 else 0) < z / 2 ^ n := by
      split <;> split at hdiv <;> omega
    exact ⟨hlt.le,fun heq => absurd heq hlt.ne⟩
  | false =>
    simp only [Bool.false_eq_true,if_false] at hside ⊢
    have hlt : z / 2 ^ n < 2 * q + (if s then 1 else 0) := by
      split <;> split at hdiv <;> omega
    exact ⟨hlt.le,fun heq => absurd heq hlt.ne'⟩

theorem beyond_of_eq {lower : Bool} {n : ℕ} {a b z q : ℤ} {t : ℤ × Ival × Ival} (s : Bool) (he : q = z / 2 ^ (n + 1))
    (hin : z.testBit n = s → Holds a b t) (hout : z.testBit n ≠ s → s = !lower) :
    Beyond lower n a b z (2 * q + if s then 1 else 0) t := by
  have hdiv := ediv_two_pow z n
  rw [← he] at hdiv
  unfold Beyond
  rw [hdiv]
  by_cases hs : z.testBit n = s
  · rw [hs]
    exact ⟨by simp,fun _ => hin hs⟩
  · obtain rfl := hout hs
    have hbit : z.testBit n = lower := by simpa using hs
    rw [hbit]
    cases lower <;> simp

theorem setBitOn_mul (size n : ℕ) (q : ℤ) : setBitOn size (.bit n) (q * 2 ^ (n + 1)) = (2 * q + 1) * 2 ^ n := by
  have hbit : (q * 2 ^ (n + 1)).testBit n = false := by
    have hz : q * 2 ^ (n + 1) % 2 ^ (n + 1) = 0 % 2 ^ (n + 1) := by simp
    rw [testBit_of_emod_eq hz (by omega),zero_testBit]
  rw [setBitOn,logor,lor_two_pow_of_testBit hbit,pow_succ]
  ring

theorem boundLoop_spec (hsc : 2 ≤ sc) (hop : op.Lawful f) (size : ℕ) (lower : Bool) (n : ℕ) {t : ℤ × Ival × Ival} {q : ℤ}
    (ht : Live sc t) (hq : t.1 = q * 2 ^ n) : ∃ t', boundLoop sc op size lower n t = .ok t' ∧ ∀ a b z, Combines f a b z →
      Beyond lower n a b z q t → if lower then t'.1 ≤ z else z ≤ t'.1 := by
  induction n generalizing t q with
  | zero =>
    refine ⟨t,rfl,?_⟩
    intro a b z _ hbeyond
    rw [hq]
    simpa [Beyond] using hbeyond.1
  | succ n ih =>
    obtain ⟨t1,ht1,hlive,s,hs,hspec⟩ := boundSetBit_spec hsc hop size lower (.bit n) ht
    have hq1 : t1.1 = (2 * q + if s then 1 else 0) * 2 ^ n := by
      rw [hs,hq]
      cases s with
      | true => exact setBitOn_mul size n q
      | false =>
        simp only [Bool.false_eq_true,if_false]
        ring
    obtain ⟨t',ht',hfinal⟩ := ih hlive hq1
    refine ⟨t',by rw [boundLoop,ht1,Res.ok_bind,ht'],?_⟩
    intro a b z hz hbeyond
    refine hfinal a b z hz ?_
    obtain ⟨hside,hholds⟩ := hbeyond
    by_cases he : q = z / 2 ^ (n + 1)
    · obtain ⟨hin,hout⟩ := hspec a b z (hholds he) hz
      exact beyond_of_eq s he hin hout
    · exact beyond_of_ne s hside he

theorem computeBound_spec (hsc : 2 ≤ sc) (hop : op.Lawful f) {v1 v2 : Ival} (size : ℕ) (lower : Bool)
    (h : ∀ r, Live sc (r,v1,v2)) : ∃ m, computeBound sc op size v1 v2 lower = .ok m ∧ ∀ a ∈ concr v1, ∀ b ∈ concr v2, ∀ z,
      Combines f a b z → Fits size z → if lower then m ≤ z else z ≤ m := by
  obtain ⟨t,ht,hlive,s,hs,hspec⟩ := boundSetBit_spec hsc hop size lower .sign (h 0)
  have hq : t.1 = (if s then -1 else 0) * 2 ^ size := by
    rw [hs]
    cases s with
    | true =>
      rw [if_pos rfl,if_pos rfl,setBitOn,logor,lor_neg_two_pow]
      simp
    | false => simp
  obtain ⟨t',ht',hfinal⟩ := boundLoop_spec hsc hop size lower size hlive hq
  refine ⟨t'.1,?_,?_⟩
  · simp only [computeBound,ht,Res.ok_bind,ht']
    rfl
  · intro a ha b hb z hz hfit
    refine hfinal a b z hz ?_
    obtain ⟨hin,hout⟩ := hspec a b z ⟨ha,hb⟩ hz
    have hdiv := hfit.ediv
    unfold Beyond
    simp only [bitOf,preferred] at hin hout
    by_cases hneg : z < 0
    · cases s <;> cases lower <;> simp_all
    · cases s <;> cases lower <;> simp_all

end BoundSearch

section Operators
variable {sc : ℕ} {op : BitOperator} {f : Bool → Bool → Bool} {v1 v2 : Ival}

theorem bitwiseForward_sound (hsc : 2 ≤ sc) (hop : op.Lawful f) (h1 : Wf sc v1) (h2 : Wf sc v2) (hne1 : v1 ≠ bottom)
    (hne2 : v2 ≠ bottom) : ∃ v, bitwiseForward sc op v1 v2 = .ok v ∧
      ∀ a ∈ concr v1, ∀ b ∈ concr v2, ∀ z, Combines f a b z → z ∈ concr v := by
  have hlive : ∀ r, Live sc (r,v1,v2) := fun r => ⟨h1,h2,exists_mem_of_wf h1 hne1,exists_mem_of_wf h2 hne2⟩
  obtain ⟨j,r,hmod,h0,hlt,hr⟩ := computeModulo_spec hop h1 h2 hne1 hne2
  obtain ⟨o,ho,hfit⟩ := resultSize_spec hop h1 h2 hne1 hne2
  have hj : (1 : ℤ) ≤ 2 ^ j := one_le_pow₀ (by omega)
  simp only [bitwiseForward,hmod,Res.ok_bind,ho]
  cases o with
  | none =>
    obtain ⟨v,hv,_,hconcr⟩ := injectInterval_spec hsc none none hj h0 hlt
    simp only [hv]
    refine ⟨v,rfl,?_⟩
    intro a ha b hb z hz
    rw [hconcr]
    exact ⟨hr a ha b hb z hz,by simp,by simp⟩
  | some size =>
    obtain ⟨o,ho,hset⟩ := computeSmallSet_spec hsc hop size j (hlive r)
    simp only [ho,Res.ok_bind]
    cases o with
    | some v =>
      refine ⟨v,rfl,?_⟩
      intro a ha b hb z hz
      exact hset v rfl a ha b hb z hz (hr a ha b hb z hz) (hfit size rfl a ha b hb z hz)
    | none =>
      obtain ⟨mn,hmn,hlow⟩ := computeBound_spec hsc hop size true hlive
      obtain ⟨mx,hmx,hhigh⟩ := computeBound_spec hsc hop size false hlive
      obtain ⟨v,hv,_,hconcr⟩ := injectInterval_spec hsc (some mn) (some mx) hj h0 hlt
      simp only [hmn,hmx,Res.ok_bind,hv]
      refine ⟨v,rfl,?_⟩
      intro a ha b hb z hz
      have hz' := hfit size rfl a ha b hb z hz
      rw [hconcr]
      refine ⟨hr a ha b hb z hz,?_,?_⟩
      · rintro _ ⟨⟩
        exact hlow a ha b hb z hz hz'
      · rintro _ ⟨⟩
        exact hhigh a ha b hb z hz hz'

theorem mem_bitwiseSignedNot {v : Ival} (h : Wf sc v) : ∃ w, bitwiseSignedNot sc v = .ok w ∧
    ∀ y, y ∈ concr w ↔ ∃ a ∈ concr v, y = lognot a := by
  cases v with
  | set s =>
    refine ⟨_,rfl,?_⟩
    intro y
    rw [mem_mapSetStrictDecr]
    constructor
    · rintro ⟨a,ha,rfl⟩
      exact ⟨a,ha,rfl⟩
    · rintro ⟨a,ha,rfl⟩
      exact ⟨a,ha,rfl⟩
  | topItv l u r m =>
    refine ⟨addSingletonInt (-1) (negInt (.topItv l u r m)),rfl,?_⟩
    intro y
    rw [mem_addSingletonInt (negInt_wf h)]
    simp only [mem_negInt h,lognot,lnot_eq]
    constructor
    · rintro ⟨_,⟨a,ha,rfl⟩,rfl⟩
      exact ⟨a,ha,by ring⟩
    · rintro ⟨a,ha,rfl⟩
      exact ⟨-a,⟨a,ha,rfl⟩,by ring⟩

/-- The bitwise operators on operands that are not empty have every result, so the handler of `Error_Bottom` is not used,
and the complement is exact. -/
theorem bitwise_sound (hsc : 2 ≤ sc) (h1 : Wf sc v1) (h2 : Wf sc v2) (hne1 : v1 ≠ bottom) (hne2 : v2 ≠ bottom) :
    (∃ v, bitwiseAnd sc v1 v2 = .ok v ∧ v ≠ bottom ∧ ∀ a ∈ concr v1, ∀ b ∈ concr v2, logand a b ∈ concr v) ∧
    (∃ v, bitwiseOr sc v1 v2 = .ok v ∧ v ≠ bottom ∧ ∀ a ∈ concr v1, ∀ b ∈ concr v2, logor a b ∈ concr v) ∧
    (∃ v, bitwiseXor sc v1 v2 = .ok v ∧ v ≠ bottom ∧ ∀ a ∈ concr v1, ∀ b ∈ concr v2, logxor a b ∈ concr v) ∧
    ∃ v, bitwiseSignedNot sc v1 = .ok v ∧ ∀ y, y ∈ concr v ↔ ∃ a ∈ concr v1, y = lognot a := by
  obtain ⟨a0,ha0⟩ := exists_mem_of_wf h1 hne1
  obtain ⟨b0,hb0⟩ := exists_mem_of_wf h2 hne2
  have hop : ∀ {op : BitOperator} {f : Bool → Bool → Bool} {g : ℤ → ℤ → ℤ}, op.Lawful f →
      (∀ a b, Combines f a b (g a b)) → ∃ v, bitwiseForward sc op v1 v2 = .ok v ∧ v ≠ bottom ∧
        ∀ a ∈ concr v1, ∀ b ∈ concr v2, g a b ∈ concr v := by
    intro op f g hop hg
    obtain ⟨v,hv,hmem⟩ := bitwiseForward_sound hsc hop h1 h2 hne1 hne2
    exact ⟨v,hv,ne_bottom_of_nonempty ⟨_,hmem a0 ha0 b0 hb0 _ (hg a0 b0)⟩,fun a ha b hb => hmem a ha b hb _ (hg a b)⟩
  refine ⟨hop opAnd_lawful ?_,hop opOr_lawful ?_,hop opXor_lawful ?_,mem_bitwiseSignedNot h1⟩
  · intro a b i
    exact Int.testBit_land a b i
  · intro a b i
    exact Int.testBit_lor a b i
  · intro a b i
    exact Int.testBit_lxor a b i

end Operators

theorem bitwise_sound_half_line :
    ∃ v, bitwiseXor 8 (.topItv none (some (-1)) 1 2) (.set [0,3]) = .ok v ∧ v ≠ bottom ∧ logxor (-3) 3 ∈ concr v := by
  have hx : Wf 8 (.topItv none (some (-1)) 1 2) := ⟨by decide,by decide,by decide,by simp,by simp,by simp⟩
  have hy : Wf 8 (.set [0,3]) := ⟨by simp,by decide⟩
  obtain ⟨v,hv,hne,hmem⟩ := (bitwise_sound (by decide) hx hy (by simp [bottom]) (by simp [bottom])).2.2.1
  exact ⟨v,hv,hne,hmem (-3) ⟨by decide,by simp,by simp⟩ 3 (by simp)⟩

end FramaC.Ival
