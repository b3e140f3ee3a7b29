import FramaC.Ival.DivisionSound

/-! # Soundness of quotients and remainders by ranges, and of shifts

A quotient by a range without zero lies between the quotients at the corners. The remainder takes the sign of the
dividend, but a range of divisors that ends at zero is answered by bottom. The wide path of the right shift divides
by the range of factors, and rounds towards zero where the narrow path rounds down.
-/
namespace FramaC.Ival
open Integer Progression Outcome

theorem ediv_anti {c y1 y2 : ℤ} (hc : 0 ≤ c) (h1 : 0 < y1) (h : y1 ≤ y2) : c / y2 ≤ c / y1 := by
  rw [Int.le_ediv_iff_mul_le h1]
  have h0 : 0 ≤ c / y2 := Int.ediv_nonneg hc (by omega)
  calc c / y2 * y1 ≤ c / y2 * y2 := Int.mul_le_mul_of_nonneg_left h h0
    _ ≤ c := Int.ediv_mul_le c (by omega)

theorem tdiv_between {c b y1 y2 : ℤ} (h1 : 0 < y1) (hb1 : y1 ≤ b) (hb2 : b ≤ y2) :
    min (c.tdiv y1) (c.tdiv y2) ≤ c.tdiv b ∧ c.tdiv b ≤ max (c.tdiv y1) (c.tdiv y2) := by
  rcases le_total 0 c with hc | hc
  · have hlo := ediv_anti hc (by omega : 0 < b) hb2
    have hhi := ediv_anti hc h1 hb1
    simp only [Int.tdiv_eq_ediv_of_nonneg hc]
    omega
  · have hn : ∀ d : ℤ, c.tdiv d = -(-c / d) := by
      intro d
      rw [← Int.tdiv_eq_ediv_of_nonneg (by omega),Int.neg_tdiv,neg_neg]
    have hlo := ediv_anti (by omega : 0 ≤ -c) (by omega : 0 < b) hb2
    have hhi := ediv_anti (by omega : 0 ≤ -c) h1 hb1
    simp only [hn]
    omega

theorem tdiv_corners {a b x1 x2 y1 y2 : ℤ} (ha1 : x1 ≤ a) (ha2 : a ≤ x2) (h1 : 0 < y1) (hb1 : y1 ≤ b) (hb2 : b ≤ y2) :
    min (min (x1.tdiv y1) (x2.tdiv y1)) (min (x1.tdiv y2) (x2.tdiv y2)) ≤ a.tdiv b ∧
      a.tdiv b ≤ max (max (x1.tdiv y1) (x2.tdiv y1)) (max (x1.tdiv y2) (x2.tdiv y2)) := by
  have hlo := tdiv_le_tdiv (by omega : 0 < b) ha1
  have hhi := tdiv_le_tdiv (by omega : 0 < b) ha2
  have hx1 := tdiv_between (c := x1) h1 hb1 hb2
  have hx2 := tdiv_between (c := x2) h1 hb1 hb2
  omega

theorem tdiv_corners_of_sign {a b x1 x2 y1 y2 : ℤ} (ha1 : x1 ≤ a) (ha2 : a ≤ x2) (hy : 0 < y1 ∨ y2 < 0) (hb1 : y1 ≤ b)
    (hb2 : b ≤ y2) :
    min (min (x1.tdiv y1) (x2.tdiv y1)) (min (x1.tdiv y2) (x2.tdiv y2)) ≤ a.tdiv b ∧
      a.tdiv b ≤ max (max (x1.tdiv y1) (x2.tdiv y1)) (max (x1.tdiv y2) (x2.tdiv y2)) := by
  rcases hy with h1 | h2
  · exact tdiv_corners ha1 ha2 h1 hb1 hb2
  · have h := tdiv_corners ha1 ha2 (by omega : 0 < -y2) (by omega : -y2 ≤ -b) (by omega : -b ≤ -y1)
    simp only [Int.tdiv_neg] at h
    omega

section Quotients
variable {sc : ℕ} {x y : Ival}

theorem minAndMax_bounds (hx : Wf sc x) {b : Option ℤ × Option ℤ} (hb : minAndMax x = .ok b) {a : ℤ} (ha : a ∈ concr x) :
    (∀ c ∈ b.1, c ≤ a) ∧ ∀ c ∈ b.2, a ≤ c := by
  cases x with
  | set s =>
    rw [minAndMax] at hb
    split at hb
    · cases hb
    · cases hb
      refine ⟨?_,?_⟩
      · rintro _ ⟨⟩
        exact head_le_of_pairwise hx.1 ha
      · rintro _ ⟨⟩
        exact le_last_of_pairwise hx.1 ha
  | topItv mn mx r m =>
    cases hb
    exact ha.2

theorem minAndMax_mem (hx : Wf sc x) {b : Option ℤ × Option ℤ} (hb : minAndMax x = .ok b) :
    (∀ c ∈ b.1, c ∈ concr x) ∧ ∀ c ∈ b.2, c ∈ concr x := by
  cases x with
  | set s =>
    rw [minAndMax] at hb
    split at hb
    · cases hb
    · rename_i hs
      cases hb
      have hne : s ≠ [] := fun h => hs (by simp [h])
      exact ⟨by rintro _ ⟨⟩; exact headD_mem hne,by rintro _ ⟨⟩; exact getLastD_mem hne⟩
  | topItv mn mx r m =>
    cases hb
    obtain ⟨hr,hl⟩ := wf_topItv_iff.mp hx
    refine ⟨?_,?_⟩
    · rintro c rfl
      exact hr.lower_mem fun b hb => hl.le hr.pos rfl hb
    · rintro c rfl
      exact hr.upper_mem fun a ha => hl.le hr.pos ha rfl

theorem mem_top (c : ℤ) : c ∈ concr top := ⟨Int.emod_one c,by simp,by simp⟩

theorem divRange_sound (hsc : 2 ≤ sc) (hx : Wf sc x) (hne : x ≠ bottom) {ymn ymx : ℤ} (hmn : ymn ≠ 0) (hmx : ymx ≠ 0)
    (hy : 0 < ymn ∨ ymx < 0) : ∃ v, divRange sc x ymn ymx = .ok v ∧ Wf sc v ∧
      ∀ b, ymn ≤ b → b ≤ ymx → ∀ a ∈ concr x, a.tdiv b ∈ concr v := by
  obtain ⟨⟨mn,mx⟩,hb⟩ := minAndMax_ok hne
  rw [divRange,hb,Res.ok_bind]
  cases mn with
  | none => exact ⟨top,rfl,wf_top sc,fun b _ _ a _ => mem_top _⟩
  | some x1 =>
    cases mx with
    | none => exact ⟨top,rfl,wf_top sc,fun b _ _ a _ => mem_top _⟩
    | some x2 =>
      simp only [cDiv,if_neg hmn,if_neg hmx,Res.ok_bind]
      obtain ⟨v,hv,hw,hc⟩ := injectRange_spec hsc
        (some (min (min (x1.tdiv ymn) (x2.tdiv ymn)) (min (x1.tdiv ymx) (x2.tdiv ymx))))
        (some (max (max (x1.tdiv ymn) (x2.tdiv ymn)) (max (x1.tdiv ymx) (x2.tdiv ymx))))
      refine ⟨v,hv,hw,?_⟩
      intro b hb1 hb2 a ha
      obtain ⟨ha1,ha2⟩ := minAndMax_bounds hx hb ha
      obtain ⟨hlo,hhi⟩ := tdiv_corners_of_sign (ha1 x1 rfl) (ha2 x2 rfl) hy hb1 hb2
      rw [hc]
      exact ⟨Int.emod_one _,by rintro _ ⟨⟩; exact hlo,by rintro _ ⟨⟩; exact hhi⟩

theorem divPos_sound (hsc : 2 ≤ sc) (hx : Wf sc x) (hne : x ≠ bottom) (mn mx r : ℤ) {m : ℤ} (hm : 1 ≤ m) :
    ∃ v, divPos sc x mn mx r m = .ok v ∧ Wf sc v ∧
      ∀ b ∈ prog (some mn) (some mx) r m, 0 < b → ∀ a ∈ concr x, a.tdiv b ∈ concr v := by
  unfold divPos
  split
  · rename_i hmx
    have h1 : 1 ≤ roundUpToR 1 r m := le_roundUpToR (by omega)
    have hlpos : 0 < if mn > 0 then mn else roundUpToR 1 r m := by split <;> omega
    obtain ⟨v,hv,hw,hmem⟩ := divRange_sound hsc hx hne hlpos.ne' (by omega : mx ≠ 0) (Or.inl hlpos)
    refine ⟨v,hv,hw,?_⟩
    rintro b ⟨hcls,hlo,hhi⟩ hb a ha
    refine hmem b ?_ (hhi mx rfl) a ha
    split
    · exact hlo mn rfl
    · exact roundUpToR_le (by omega) hcls hb
  · rename_i hmx
    refine ⟨bottom,rfl,wf_bottom sc,?_⟩
    rintro b ⟨_,_,hhi⟩ hb
    have := hhi mx rfl
    omega

theorem divNeg_sound (hsc : 2 ≤ sc) (hx : Wf sc x) (hne : x ≠ bottom) (mn mx r : ℤ) {m : ℤ} (hm : 1 ≤ m) :
    ∃ v, divNeg sc x mn mx r m = .ok v ∧ Wf sc v ∧
      ∀ b ∈ prog (some mn) (some mx) r m, b < 0 → ∀ a ∈ concr x, a.tdiv b ∈ concr v := by
  unfold divNeg
  split
  · rename_i hmn
    have h1 : roundDownToR (-1) r m ≤ -1 := roundDownToR_le (by omega)
    have hgneg : (if mx < 0 then mx else roundDownToR (-1) r m) < 0 := by split <;> omega
    obtain ⟨v,hv,hw,hmem⟩ := divRange_sound hsc hx hne (by omega : mn ≠ 0) hgneg.ne (Or.inr hgneg)
    refine ⟨v,hv,hw,?_⟩
    rintro b ⟨hcls,hlo,hhi⟩ hb a ha
    refine hmem b (hlo mn rfl) ?_ a ha
    split
    · exact hhi mx rfl
    · exact le_roundDownToR (by omega) hcls (by omega)
  · rename_i hmn
    refine ⟨bottom,rfl,wf_bottom sc,?_⟩
    rintro b ⟨_,hlo,_⟩ hb
    have := hlo mn rfl
    omega

theorem divSet_sound (hsc : 2 ≤ sc) (hx : Wf sc x) (sy : List ℤ) : ∃ v, divSet sc x sy = .ok v ∧ Wf sc v ∧
    ∀ b ∈ sy, b ≠ 0 → ∀ a ∈ concr x, a.tdiv b ∈ concr v := by
  have hfold : Sat (fun v => Wf sc v ∧ (∀ b ∈ sy, b ≠ 0 → ∀ a ∈ concr x, a.tdiv b ∈ concr v) ∧
      ∀ b, (b ≠ 0 → ∀ a ∈ concr x, a.tdiv b ∈ concr bottom) → b ≠ 0 → ∀ a ∈ concr x, a.tdiv b ∈ concr v)
      (fun _ => False) (divSet sc x sy) := by
    refine Sat.foldlM_covers (G := fun b v => b ≠ 0 → ∀ a ∈ concr x, a.tdiv b ∈ concr v) (wf_bottom sc)
      fun acc b _ hacc => ?_
    split
    · rename_i hz
      have hb : b = 0 := by simpa [isZero] using hz
      exact ⟨hacc,fun h => absurd hb h,fun _ h => h⟩
    · rename_i hz
      have hb : b ≠ 0 := by simpa [isZero] using hz
      obtain ⟨q,hq,hqw⟩ := scaleDiv_wf hsc hx false hb
      obtain ⟨j,hj,hjw,hhull⟩ := join_spec hsc hacc hqw
      rw [hq,Res.ok_bind,hj]
      refine ⟨hjw,?_,?_⟩
      · intro _ a ha
        exact hhull.1 (Or.inr (scaleDiv_sound hsc hx hb hq ha))
      · intro c hc hc0 a ha
        exact hhull.1 (Or.inl (hc hc0 a ha))
  obtain ⟨v,hv,hw,hmem,_⟩ := hfold.exists_ok
  exact ⟨v,hv,hw,hmem⟩

theorem div_sound (hsc : 2 ≤ sc) (hx : Wf sc x) (hne : x ≠ bottom) (hy : Wf sc y) :
    ∃ v, div sc x y = .ok v ∧ ∀ a ∈ concr x, ∀ b ∈ concr y, b ≠ 0 → a.tdiv b ∈ concr v := by
  cases y with
  | set sy =>
    obtain ⟨v,hv,_,hmem⟩ := divSet_sound hsc hx sy
    exact ⟨v,hv,fun a ha b hb h0 => hmem b hb h0 a ha⟩
  | topItv mn mx r m =>
    have hm := (wf_topItv_iff.mp hy).1.pos
    cases mn with
    | none => exact ⟨top,rfl,fun _ _ _ _ _ => mem_top _⟩
    | some mn =>
      cases mx with
      | none => exact ⟨top,rfl,fun _ _ _ _ _ => mem_top _⟩
      | some mx =>
        obtain ⟨p,hp,hpw,hpmem⟩ := divPos_sound hsc hx hne mn mx r hm
        obtain ⟨n,hn,hnw,hnmem⟩ := divNeg_sound hsc hx hne mn mx r hm
        obtain ⟨j,hj,_,hhull⟩ := join_spec hsc hnw hpw
        refine ⟨j,?_,?_⟩
        · rw [div,hp,Res.ok_bind,hn,Res.ok_bind,hj]
        · intro a ha b hb h0
          rcases lt_or_gt_of_ne h0 with hneg | hpos
          · exact hhull.1 (Or.inl (hnmem b hb hneg a ha))
          · exact hhull.1 (Or.inr (hpmem b hb hpos a ha))

theorem remF_abs (a b : ℤ) : remF false |b| a = a.tmod b := by
  change a.tmod |b| = a.tmod b
  rcases abs_choice b with h | h
  · rw [h]
  · rw [h,Int.tmod_neg]

theorem tmod_bounds {a b M : ℤ} (hb : b ≠ 0) (hM : |b| ≤ M) :
    -(M - 1) ≤ a.tmod b ∧ a.tmod b ≤ M - 1 ∧ |a.tmod b| ≤ |a| ∧ (0 ≤ a → 0 ≤ a.tmod b) ∧ (a ≤ 0 → a.tmod b ≤ 0) := by
  obtain ⟨h1,h2,h3,h4⟩ := remF_bounds false (abs_pos.mpr hb) a
  rw [remF_abs] at h1 h2 h3 h4
  refine ⟨by omega,by omega,?_,fun h => h3 (Or.inr h),fun h => h4 ⟨rfl,h⟩⟩
  rw [Int.abs_eq_natAbs,Int.abs_eq_natAbs,Int.natAbs_tmod]
  exact_mod_cast Nat.mod_le _ _

theorem dividendBounds_spec (hx : Wf sc x) {a : ℤ} (ha : a ∈ concr x) :
    ((dividendBounds x).1 = false → 0 ≤ a) ∧ ((dividendBounds x).2.1 = false → a ≤ 0) ∧
      ∀ b ∈ (dividendBounds x).2.2, |a| ≤ b := by
  have habs : ∀ {c d : ℤ}, c ≤ a → a ≤ d → |a| ≤ max |c| |d| := by
    intro c d hc hd
    have h1 := neg_abs_le c
    have h2 := le_abs_self d
    rw [abs_le]
    omega
  cases x with
  | set s =>
    have hs : s.length ≠ 0 := by
      intro h0
      rw [List.length_eq_zero_iff] at h0
      subst h0
      cases ha
    have hlo := head_le_of_pairwise hx.1 ha
    have hhi := le_last_of_pairwise hx.1 ha
    rw [dividendBounds,if_neg hs]
    refine ⟨?_,?_,?_⟩
    · intro h
      have := of_decide_eq_false h
      omega
    · intro h
      have := of_decide_eq_false h
      omega
    · rintro _ ⟨⟩
      exact habs hlo hhi
  | topItv mn mx r m =>
    obtain ⟨_,hlo,hhi⟩ := ha
    refine ⟨?_,?_,?_⟩
    · intro h
      by_contra hneg
      have hle : minLeElt mn (-1) = true := minLeElt_iff.mpr fun c hc => (hlo c hc).trans (by omega)
      exact Bool.false_ne_true (h.symm.trans hle)
    · intro h
      by_contra hpos
      have hge : maxGeElt mx 1 = true := maxGeElt_iff.mpr fun c hc => le_trans (by omega) (hhi c hc)
      exact Bool.false_ne_true (h.symm.trans hge)
    · intro b hb
      cases mn with
      | none => cases hb
      | some c =>
        cases mx with
        | none => cases hb
        | some d =>
          cases hb
          exact habs (hlo c rfl) (hhi d rfl)

def EndsAtZero (y : Ival) : Prop := ∃ mn r m, y = .topItv (some mn) (some 0) r m

theorem cRem_set_sound (hsc : 2 ≤ sc) (hx : Wf sc x) (yy : List ℤ) : ∃ v, cRem sc x (.set yy) = .ok v ∧
    ∀ b ∈ yy, b ≠ 0 → ∀ a ∈ concr x, a.tmod b ∈ concr v := by
  cases x with
  | set xx => exact ⟨_,rfl,fun b hb h0 a ha => (apply2Notzero_spec hsc _ _ _).2 a ha b hb h0⟩
  | topItv mn mx r m =>
    have hfold : Sat (fun v => Wf sc v ∧ (∀ b ∈ yy, b ≠ 0 → ∀ a ∈ prog mn mx r m, a.tmod b ∈ concr v) ∧
        ∀ b, (b ≠ 0 → ∀ a ∈ prog mn mx r m, a.tmod b ∈ concr bottom) → b ≠ 0 → ∀ a ∈ prog mn mx r m,
          a.tmod b ∈ concr v)
        (fun _ => False) (cRem sc (.topItv mn mx r m) (.set yy)) := by
      refine Sat.foldlM_covers (G := fun b v => b ≠ 0 → ∀ a ∈ prog mn mx r m, a.tmod b ∈ concr v) (wf_bottom sc)
        fun acc b _ hacc => ?_
      obtain ⟨q,hq,hqw⟩ := scaleRem_wf hsc hx false b
      obtain ⟨j,hj,hjw,hhull⟩ := join_spec hsc hqw hacc
      rw [hq,Res.ok_bind,hj]
      refine ⟨hjw,?_,?_⟩
      · intro hb a ha
        have hmem := scaleRem_sound hsc hx hb hq ha
        rw [remF_abs] at hmem
        exact hhull.1 (Or.inl hmem)
      · intro c hc hc0 a ha
        exact hhull.1 (Or.inr (hc hc0 a ha))
    obtain ⟨v,hv,_,hmem,_⟩ := hfold.exists_ok
    exact ⟨v,hv,hmem⟩

theorem cRem_sound (hsc : 2 ≤ sc) (hx : Wf sc x) (hy : ¬ EndsAtZero y) :
    ∃ v, cRem sc x y = .ok v ∧ ∀ a ∈ concr x, ∀ b ∈ concr y, b ≠ 0 → a.tmod b ∈ concr v := by
  cases y with
  | set yy =>
    obtain ⟨v,hv,hmem⟩ := cRem_set_sound hsc hx yy
    exact ⟨v,hv,fun a ha b hb h0 => hmem b hb h0 a ha⟩
  | topItv mn mx r m =>
    cases mn with
    | none => exact ⟨top,rfl,fun _ _ _ _ _ => mem_top _⟩
    | some mn =>
      cases mx with
      | none => exact ⟨top,rfl,fun _ _ _ _ _ => mem_top _⟩
      | some mx =>
        have h0 : mx ≠ 0 := by
          rintro rfl
          exact hy ⟨mn,r,m,rfl⟩
        simp only [cRem,if_neg h0]
        generalize hlo : (if (dividendBounds x).1 = true then _ else some (0 : ℤ)) = lo
        generalize hhi : (if (dividendBounds x).2.1 = true then _ else some (0 : ℤ)) = hi
        obtain ⟨w,hw,_,hc⟩ := injectTop_spec hsc (reduced_unit lo hi)
        refine ⟨w,hw,?_⟩
        rintro a ha b ⟨_,hb1,hb2⟩ hb0
        obtain ⟨hsn,hsp,hmax⟩ := dividendBounds_spec hx ha
        have hbM : |b| ≤ max |mn| |mx| := by
          have h1 := neg_abs_le mn
          have h2 := le_abs_self mx
          have h3 := hb1 mn rfl
          have h4 := hb2 mx rfl
          rw [abs_le]
          omega
        obtain ⟨ht1,ht2,ht3,ht4,ht5⟩ := tmod_bounds (a := a) hb0 hbM
        -- any bound of the absolute value gives the bounds once the signs are known
        have key : ∀ B : ℤ, |a.tmod b| ≤ B → (if (dividendBounds x).1 = true then some (-B) else some 0) = lo →
            (if (dividendBounds x).2.1 = true then some B else some 0) = hi → a.tmod b ∈ concr w := by
          intro B hB hlo hhi
          obtain ⟨hB1,hB2⟩ := abs_le.mp hB
          rw [hc]
          refine ⟨Int.emod_one _,?_,?_⟩
          · rw [← hlo]
            split
            · rintro _ ⟨⟩
              exact hB1
            · rename_i hneg
              rintro _ ⟨⟩
              exact ht4 (hsn (by simpa using hneg))
          · rw [← hhi]
            split
            · rintro _ ⟨⟩
              exact hB2
            · rename_i hpos
              rintro _ ⟨⟩
              exact ht5 (hsp (by simpa using hpos))
        have hM : |a.tmod b| ≤ max |mn| |mx| - 1 := abs_le.mpr ⟨ht1,ht2⟩
        cases hd : (dividendBounds x).2.2 with
        | none =>
          rw [hd] at hlo hhi
          exact key _ hM hlo hhi
        | some d =>
          rw [hd] at hlo hhi
          exact key _ (le_min hM (ht3.trans (hmax d hd))) hlo hhi

theorem cRem_endsAtZero (hy : EndsAtZero y) : cRem sc x y = .ok bottom := by
  obtain ⟨mn,r,m,rfl⟩ := hy
  rfl

theorem EndsAtZero.exists_ne_zero (hy : EndsAtZero y) (hsc : 2 ≤ sc) (hw : Wf sc y) : ∃ b ∈ concr y, b ≠ 0 := by
  obtain ⟨mn,r,m,rfl⟩ := hy
  obtain ⟨hr,hl⟩ := wf_topItv_iff.mp hw
  have hm := hr.pos
  refine ⟨mn,hr.lower_mem fun b hb => hl.le hm rfl hb,?_⟩
  have hlen := hl mn rfl 0 rfl
  have : (2 : ℤ) * 1 ≤ sc * m := mul_le_mul (by omega) hm (by omega) (by omega)
  omega

end Quotients

/-- Quotients and remainders by the members that are not zero are contained in the results, exactly when the divisor is
not a range that ends at zero. -/
theorem div_c_rem_sound_iff {sc : ℕ} (hsc : 2 ≤ sc) {x y : Ival} (hx : Wf sc x) (hy : Wf sc y) (hne : x ≠ bottom) :
    ((∃ v, div sc x y = .ok v ∧ ∀ a ∈ concr x, ∀ b ∈ concr y, b ≠ 0 → a.tdiv b ∈ concr v) ∧
      ∃ v, cRem sc x y = .ok v ∧ ∀ a ∈ concr x, ∀ b ∈ concr y, b ≠ 0 → a.tmod b ∈ concr v) ↔ ¬ EndsAtZero y := by
  constructor
  · rintro ⟨_,v,hv,hmem⟩ hz
    obtain ⟨a,ha⟩ := exists_mem_of_wf hx hne
    obtain ⟨b,hb,h0⟩ := hz.exists_ne_zero hsc hy
    rw [cRem_endsAtZero hz] at hv
    cases hv
    exact absurd (hmem a ha b hb h0) List.not_mem_nil
  · intro hz
    exact ⟨div_sound hsc hx hne hy,cRem_sound hsc hx hz⟩

theorem div_c_rem_sound_iff_small :
    ∃ v, cRem 8 (.topItv none (some 7) 0 1) (.set [0,3]) = .ok v ∧ Int.tmod (-5) 3 ∈ concr v := by
  have hx : Wf 8 (.topItv none (some 7) 0 1) := ⟨by decide,by decide,by decide,by simp,by simp,by simp⟩
  have hy : Wf 8 (.set [0,3]) := ⟨by simp,by decide⟩
  have hz : ¬ EndsAtZero (.set [0,3]) := by
    rintro ⟨_,_,_,h⟩
    cases h
  obtain ⟨_,v,hv,hmem⟩ := (div_c_rem_sound_iff (by decide) hx hy (by simp [bottom])).2 hz
  exact ⟨v,hv,hmem (-5) ⟨by decide,by simp,by simp⟩ 3 (by simp) (by decide)⟩

theorem cRem_ends_at_zero_misses :
    Wf 8 (.set [-5]) ∧ Wf 8 (.topItv (some (-9)) (some 0) 0 1) ∧ -5 ∈ concr (.set [-5]) ∧
      -3 ∈ concr (.topItv (some (-9)) (some 0) 0 1) ∧
      cRem 8 (.set [-5]) (.topItv (some (-9)) (some 0) 0 1) = .ok bottom ∧ Int.tmod (-5) (-3) ∉ concr bottom := by
  refine ⟨⟨by simp,by decide⟩,⟨by decide,by decide,by decide,by simp,by simp,by simp⟩,by simp,?_,rfl,List.not_mem_nil⟩
  exact ⟨by decide,by simp,by simp⟩

end FramaC.Ival
