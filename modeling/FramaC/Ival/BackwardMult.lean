import FramaC.Ival.Cast
import FramaC.Ival.RangeSound

/-! # Backward multiplication

`backward_mult_int_left` bounds the left factor of a product from its right factor and its result. Zero is kept out of
the right factor by cases on its bounds; what remains has one sign, or is cut in two halves that are joined.
-/
namespace FramaC.Ival
open Integer Progression Outcome

def containsZero : Ival → Bool
  | .topItv mn mx r m => inInterval 0 mn mx r m
  | .set s => (arrayMem 0 s).isSome

namespace Infty

def lt0 : Option ℤ → Bool
  | none => true
  | some a => decide (a < 0)

def div (a b : Option ℤ) : Option ℤ :=
  match a with
  | none => none
  | some a =>
    match b with
    | none => some 0
    | some b => some (a / b)

def neg : Option ℤ → Option ℤ
  | some a => some (-a)
  | none => none

end Infty

def backwardMultPosLeft (sc : ℕ) (minRight : ℤ) (maxRight : Option ℤ) (result : Ival) : Res Ival := do
  let (minRes,maxRes) ← minAndMax result
  let minLeft := Infty.div minRes (if Infty.lt0 minRes then some minRight else maxRight)
  let maxLeft := Infty.div maxRes (if Infty.lt0 maxRes then maxRight else some minRight)
  injectRange sc minLeft maxLeft

def backwardMultNegLeft (sc : ℕ) (minRight : Option ℤ) (maxRight : ℤ) (result : Ival) : Res Ival :=
  backwardMultPosLeft sc (-maxRight) (Infty.neg minRight) (negInt result)

def backwardMultMixed (sc : ℕ) (min max : Option ℤ) (result : Ival) : Res (OrBottom (Option Ival)) :=
  if containsZero result then return .value none
  else do
    let pos ← backwardMultPosLeft sc 1 max result
    let neg ← backwardMultNegLeft sc min 1 result
    return .value (some (← join sc pos neg))

/-- `none` inside a value is the absence of any reduction. -/
def backwardMultIntLeft (sc : ℕ) (right result : Ival) : Res (OrBottom (Option Ival)) := do
  let some' (v : Res Ival) : Res (OrBottom (Option Ival)) := do return .value (some (← v))
  match ← minAndMax right with
  | (none,none) => return .value none
  | (some a,some b) =>
    if a > b then return .bottom
    else if a = 0 ∧ b = 0 then return (if containsZero result then .value none else .bottom)
    else if a > 0 then some' (backwardMultPosLeft sc a (some b) result)
    else if a ≥ 0 then
      if containsZero result then return .value none else some' (backwardMultPosLeft sc 1 (some b) result)
    else if b < 0 then some' (backwardMultNegLeft sc (some a) b result)
    else if b = 0 then
      if containsZero result then return .value none else some' (backwardMultNegLeft sc (some a) (-1) result)
    else backwardMultMixed sc (some a) (some b) result
  | (some a,none) =>
    if a > 0 then some' (backwardMultPosLeft sc a none result)
    else if a ≥ 0 then
      if containsZero result then return .value none else some' (backwardMultPosLeft sc 1 none result)
    else backwardMultMixed sc (some a) none result
  | (none,some b) =>
    if b < 0 then some' (backwardMultNegLeft sc none b result)
    else if b = 0 then
      if containsZero result then return .value none else some' (backwardMultNegLeft sc none (-1) result)
    else backwardMultMixed sc none (some b) result

theorem containsZero_iff {sc : ℕ} {v : Ival} (h : Wf sc v) : containsZero v = true ↔ 0 ∈ concr v := by
  cases v with
  | topItv mn mx r m => exact inInterval_iff
  | set s => exact arrayMem_isSome h.1

theorem ediv_le_of_le_mul {c x y d : ℤ} (hd : 0 < d) (hy : d ≤ y) (hc : c < 0) (h : c ≤ x * y) : c / d ≤ x := by
  have hneg : c / d < 0 := Int.ediv_neg_of_neg_of_pos hc hd
  by_cases hx : 0 ≤ x
  · omega
  · have hle : x * y ≤ x * d := mul_le_mul_of_nonpos_left hy (by omega)
    exact Int.ediv_le_of_le_mul hd (h.trans hle)

theorem le_ediv_of_mul_le {C x y d : ℤ} (hd : 0 < d) (hy : d ≤ y) (hC : 0 ≤ C) (h : x * y ≤ C) : x ≤ C / d := by
  have hpos : 0 ≤ C / d := Int.ediv_nonneg hC hd.le
  by_cases hx : x ≤ 0
  · omega
  · have hle : x * d ≤ x * y := mul_le_mul_of_nonneg_left hy (by omega)
    exact Int.le_ediv_of_mul_le hd (hle.trans h)

theorem minLeft_le (mn : Option ℤ) {mx : Option ℤ} {d x y : ℤ} (hd : 0 < d) (hdy : d ≤ y) (hymx : ∀ b ∈ mx, y ≤ b)
    (h : ∀ c ∈ mn, c ≤ x * y) : ∀ a ∈ Infty.div mn (if Infty.lt0 mn then some d else mx), a ≤ x := by
  cases mn with
  | none => simp [Infty.div]
  | some c =>
    have hc := h c rfl
    by_cases hneg : c < 0
    · simpa [Infty.div,Infty.lt0,hneg] using ediv_le_of_le_mul hd hdy hneg hc
    · have hx : 0 ≤ x := by
        have hxy : 0 ≤ x * y := by omega
        exact nonneg_of_mul_nonneg_left hxy (by omega)
      cases mx with
      | none => simpa [Infty.div,Infty.lt0,hneg] using hx
      | some b =>
        have hyb := hymx b rfl
        have hle : x * y ≤ x * b := mul_le_mul_of_nonneg_left hyb hx
        simpa [Infty.div,Infty.lt0,hneg] using Int.ediv_le_of_le_mul (by omega) (hc.trans hle)

theorem le_maxLeft (mn : Option ℤ) {mx : Option ℤ} {d x y : ℤ} (hd : 0 < d) (hdy : d ≤ y) (hymx : ∀ b ∈ mx, y ≤ b)
    (h : ∀ c ∈ mn, x * y ≤ c) : ∀ a ∈ Infty.div mn (if Infty.lt0 mn then mx else some d), x ≤ a := by
  cases mn with
  | none => simp [Infty.div]
  | some c =>
    have hc := h c rfl
    by_cases hneg : c < 0
    · have hx : x ≤ 0 := by
        by_contra hpos
        have hxy : 0 < x * y := mul_pos (by omega) (by omega)
        omega
      cases mx with
      | none => simpa [Infty.div,Infty.lt0,hneg] using hx
      | some b =>
        have hyb := hymx b rfl
        have hle : x * b ≤ x * y := mul_le_mul_of_nonpos_left hyb hx
        simpa [Infty.div,Infty.lt0,hneg] using Int.le_ediv_of_mul_le (by omega) (hle.trans hc)
    · simpa [Infty.div,Infty.lt0,hneg] using le_ediv_of_mul_le hd hdy (by omega) hc

section Halves
variable {sc : ℕ} {right result : Ival}

theorem bounds_map_neg {s : List ℤ} (hs : s ≠ []) :
    (s.map fun x => -x).reverse.headD 0 = -s.getLastD 0 ∧ (s.map fun x => -x).reverse.getLastD 0 = -s.headD 0 := by
  refine ⟨?_,?_⟩
  · simp [List.headD_eq_head?_getD,List.getLastD_eq_getLast?,List.getLast?_eq_some_getLast hs]
  · cases s with
    | nil => exact absurd rfl hs
    | cons a s => simp

theorem minAndMax_negInt {mn mx : Option ℤ} (hb : minAndMax result = .ok (mn,mx)) :
    minAndMax (negInt result) = .ok (Infty.neg mx,Infty.neg mn) := by
  cases result with
  | topItv a b r m =>
    cases hb
    cases mn <;> cases mx <;> rfl
  | set s =>
    rw [minAndMax] at hb
    split at hb
    · cases hb
    · rename_i hs
      cases hb
      obtain ⟨h1,h2⟩ := bounds_map_neg fun h : s = [] => hs (by simp [h])
      have hl : s.length = (s.map fun x => -x).reverse.length := by simp
      rw [negInt,mapSetStrictDecr,hl,shareArray_eq,minAndMax,if_neg (hl ▸ hs),h1,h2]
      rfl

theorem backwardMultPosLeft_concr (hsc : 2 ≤ sc) {mn mx : Option ℤ} (hb : minAndMax result = .ok (mn,mx)) (d : ℤ)
    (max : Option ℤ) : ∃ v, backwardMultPosLeft sc d max result = .ok v ∧ Wf sc v ∧
      concr v = prog (Infty.div mn (if Infty.lt0 mn then some d else max))
        (Infty.div mx (if Infty.lt0 mx then max else some d)) 0 1 := by
  obtain ⟨v,hv,hvw,hc⟩ := injectRange_spec hsc (Infty.div mn (if Infty.lt0 mn then some d else max))
    (Infty.div mx (if Infty.lt0 mx then max else some d))
  exact ⟨v,by rw [backwardMultPosLeft,hb,Res.ok_bind]; exact hv,hvw,hc⟩

theorem backwardMultPosLeft_sound (hsc : 2 ≤ sc) (hw : Wf sc result) (hne : result ≠ bottom) {d : ℤ} (hd : 0 < d)
    (max : Option ℤ) : ∃ v, backwardMultPosLeft sc d max result = .ok v ∧ Wf sc v ∧
      ∀ x y, d ≤ y → (∀ b ∈ max, y ≤ b) → x * y ∈ concr result → x ∈ concr v := by
  obtain ⟨⟨mn,mx⟩,hb⟩ := minAndMax_ok hne
  obtain ⟨v,hv,hvw,hc⟩ := backwardMultPosLeft_concr hsc hb d max
  refine ⟨v,hv,hvw,?_⟩
  intro x y hdy hy hxy
  obtain ⟨h1,h2⟩ := minAndMax_bounds hw hb hxy
  rw [hc]
  exact ⟨Int.emod_one _,minLeft_le _ hd hdy hy h1,le_maxLeft _ hd hdy hy h2⟩

theorem negInt_ne_bottom (hw : Wf sc result) (hne : result ≠ bottom) : negInt result ≠ bottom := by
  intro h
  obtain ⟨a,ha⟩ := exists_mem_of_wf hw hne
  have hna : -a ∈ concr (negInt result) := (mem_negInt hw).mpr ⟨a,ha,rfl⟩
  rw [h] at hna
  exact List.not_mem_nil hna

theorem neg_mem_negInt (hw : Wf sc result) {a : ℤ} (ha : a ∈ concr result) : -a ∈ concr (negInt result) :=
  (mem_negInt hw).mpr ⟨a,ha,rfl⟩

theorem backwardMultNegLeft_sound (hsc : 2 ≤ sc) (hw : Wf sc result) (hne : result ≠ bottom) (min : Option ℤ) {b : ℤ}
    (hb : b < 0) : ∃ v, backwardMultNegLeft sc min b result = .ok v ∧ Wf sc v ∧
      ∀ x y, y ≤ b → (∀ a ∈ min, a ≤ y) → x * y ∈ concr result → x ∈ concr v := by
  obtain ⟨v,hv,hvw,hs⟩ := backwardMultPosLeft_sound hsc (negInt_wf hw) (negInt_ne_bottom hw hne)
    (by omega : 0 < -b) (Infty.neg min)
  refine ⟨v,hv,hvw,?_⟩
  intro x y hyb hy hxy
  refine hs x (-y) (by omega) ?_ (by rw [mul_neg]; exact neg_mem_negInt hw hxy)
  intro a ha
  cases min with
  | none => cases ha
  | some c =>
    cases ha
    have := hy c rfl
    omega

end Halves

section Mixed
variable {mn mx : Option ℤ} {c C x y : ℤ}

theorem mixed_neg_empty (hmn : ∀ a ∈ mn, a < 0) (hC : C ≠ 0) (hcC : c ≤ C) :
    prog (Infty.div (some (-C)) (if Infty.lt0 (some (-C)) then some (-1) else Infty.neg mn))
      (Infty.div (some (-c)) (if Infty.lt0 (some (-c)) then Infty.neg mn else some (-1))) 0 1 = ∅ := by
  have hquot : ∀ d : ℤ, ∃ q, Infty.div (some d) (Infty.neg mn) = some q ∧ (0 ≤ d → 0 ≤ q) ∧ (d ≤ 0 → q ≤ 0) := by
    intro d
    cases mn with
    | none => exact ⟨0,rfl,fun _ => le_rfl,fun _ => le_rfl⟩
    | some a =>
      have ha := hmn a rfl
      exact ⟨d / -a,rfl,fun hd => Int.ediv_nonneg hd (by omega),fun hd => Int.ediv_nonpos_of_nonpos_of_neg hd (by omega)⟩
  obtain ⟨q1,hq1,hq1p,_⟩ := hquot (-C)
  obtain ⟨q2,hq2,_,hq2n⟩ := hquot (-c)
  refine Set.eq_empty_of_forall_notMem fun x hx => ?_
  obtain ⟨_,hlo,hhi⟩ := hx
  by_cases h1 : 0 < C
  · have hlow : C ≤ x := by simpa [Infty.lt0,Infty.div,h1] using hlo
    by_cases h2 : 0 < c
    · have hup : x ≤ q2 := by simpa [Infty.lt0,h2,hq2] using hhi
      have := hq2n (by omega)
      omega
    · have hup : x ≤ c := by simpa [Infty.lt0,Infty.div,h2] using hhi
      omega
  · have hlow : q1 ≤ x := by simpa [Infty.lt0,h1,hq1] using hlo
    have h2 : ¬ 0 < c := by omega
    have hup : x ≤ c := by simpa [Infty.lt0,Infty.div,h2] using hhi
    have := hq1p (by omega)
    omega

theorem mixed_pos_iff (hmx : ∀ b ∈ mx, 0 < b) (hc : c ≠ 0) (hC : C ≠ 0) (hy : y < 0) (h1 : c ≤ x * y) (h2 : x * y ≤ C) :
    x ∈ prog (Infty.div (some c) (if Infty.lt0 (some c) then some 1 else mx))
      (Infty.div (some C) (if Infty.lt0 (some C) then mx else some 1)) 0 1 ↔ c ≤ x ∧ x ≤ C := by
  have hquot : ∀ d : ℤ, ∃ q, Infty.div (some d) mx = some q ∧ (0 ≤ d → 0 ≤ q) ∧ (d ≤ 0 → q ≤ 0) := by
    intro d
    cases mx with
    | none => exact ⟨0,rfl,fun _ => le_rfl,fun _ => le_rfl⟩
    | some b =>
      have hb := hmx b rfl
      exact ⟨d / b,rfl,fun hd => Int.ediv_nonneg hd hb.le,fun hd => Int.ediv_nonpos_of_nonpos_of_neg hd hb⟩
  obtain ⟨q1,hq1,hq1p,_⟩ := hquot c
  obtain ⟨q2,hq2,_,hq2n⟩ := hquot C
  have hlo : (∀ a ∈ Infty.div (some c) (if Infty.lt0 (some c) then some 1 else mx), a ≤ x) ↔ c ≤ x := by
    by_cases hneg : c < 0
    · simp [Infty.lt0,Infty.div,hneg]
    · -- a positive product with a negative factor
      have hx : x < 0 := by
        by_contra hx
        have := mul_nonpos_of_nonneg_of_nonpos (by omega : 0 ≤ x) hy.le
        omega
      have := hq1p (by omega)
      simp only [Infty.lt0,hneg,decide_false,Bool.false_eq_true,if_false,hq1,Option.mem_def,Option.some.injEq,forall_eq']
      omega
  have hhi : (∀ a ∈ Infty.div (some C) (if Infty.lt0 (some C) then mx else some 1), x ≤ a) ↔ x ≤ C := by
    by_cases hneg : C < 0
    · have hx : 0 < x := by
        by_contra hx
        have := mul_nonneg_of_nonpos_of_nonpos (by omega : x ≤ 0) hy.le
        omega
      have := hq2n (by omega)
      simp only [Infty.lt0,hneg,decide_true,if_true,hq2,Option.mem_def,Option.some.injEq,forall_eq']
      omega
    · simp [Infty.lt0,Infty.div,hneg]
  rw [mem_prog,hlo,hhi]
  simp

end Mixed

section Coverage
variable {sc : ℕ} {right result : Ival}

/-- The reduction keeps every left factor of a member of the result by a member of the right factor. -/
def Covers (right result : Ival) (r : OrBottom (Option Ival)) : Prop :=
  ∀ x, ∀ y ∈ concr right, x * y ∈ concr result → ∃ o, r = .value o ∧ ∀ v ∈ o, x ∈ concr v

theorem covers_none : Covers right result (.value none) :=
  fun _ _ _ _ => ⟨none,rfl,by simp⟩

theorem covers_some {v : Ival} (h : ∀ x, ∀ y ∈ concr right, x * y ∈ concr result → x ∈ concr v) :
    Covers right result (.value (some v)) := by
  intro x y hy hxy
  refine ⟨some v,rfl,?_⟩
  rintro _ ⟨⟩
  exact h x y hy hxy

theorem covers_pos (right : Ival) (max : Option ℤ) (hsc : 2 ≤ sc) (hw : Wf sc result) (hne : result ≠ bottom) {d : ℤ} (hd : 0 < d)
    (h : ∀ x, ∀ y ∈ concr right, x * y ∈ concr result → d ≤ y ∧ ∀ b ∈ max, y ≤ b) :
    ∃ v, backwardMultPosLeft sc d max result = .ok v ∧ Covers right result (.value (some v)) := by
  obtain ⟨v,hv,_,hs⟩ := backwardMultPosLeft_sound hsc hw hne hd max
  exact ⟨v,hv,covers_some fun x y hy hxy => hs x y (h x y hy hxy).1 (h x y hy hxy).2 hxy⟩

theorem covers_neg (right : Ival) (min : Option ℤ) (hsc : 2 ≤ sc) (hw : Wf sc result) (hne : result ≠ bottom) {b : ℤ} (hb : b < 0)
    (h : ∀ x, ∀ y ∈ concr right, x * y ∈ concr result → y ≤ b ∧ ∀ a ∈ min, a ≤ y) :
    ∃ v, backwardMultNegLeft sc min b result = .ok v ∧ Covers right result (.value (some v)) := by
  obtain ⟨v,hv,_,hs⟩ := backwardMultNegLeft_sound hsc hw hne min hb
  exact ⟨v,hv,covers_some fun x y hy hxy => hs x y (h x y hy hxy).1 (h x y hy hxy).2 hxy⟩

/-- A bounded result without zero, divided exactly by a negative member of a right factor of both signs, has a quotient
outside its own bounds. -/
def LostQuotient (right result : Ival) : Prop :=
  ∃ mn mx, minAndMax right = .ok (mn,mx) ∧ (mn ≠ none ∨ mx ≠ none) ∧ (∀ b ∈ mx, 0 < b) ∧ 0 ∉ concr result ∧
    ∃ c C, minAndMax result = .ok (some c,some C) ∧
      ∃ y ∈ concr right, y < 0 ∧ ∃ z ∈ concr result, y ∣ z ∧ (z / y < c ∨ C < z / y)

theorem lostQuotient_iff {mn mx : Option ℤ} (hb : minAndMax right = .ok (mn,mx)) (hfin : mn ≠ none ∨ mx ≠ none)
    (hmx : ∀ b ∈ mx, 0 < b) (h0 : 0 ∉ concr result) : LostQuotient right result ↔
      ∃ c C, minAndMax result = .ok (some c,some C) ∧
        ∃ x, ∃ y ∈ concr right, y < 0 ∧ x * y ∈ concr result ∧ (x < c ∨ C < x) := by
  constructor
  · rintro ⟨_,_,_,_,_,_,c,C,hbr,y,hy,hneg,z,hz,⟨x,rfl⟩,hout⟩
    rw [Int.mul_ediv_cancel_left x hneg.ne] at hout
    exact ⟨c,C,hbr,x,y,hy,hneg,by rwa [mul_comm],hout⟩
  · rintro ⟨c,C,hbr,x,y,hy,hneg,hxy,hout⟩
    refine ⟨mn,mx,hb,hfin,hmx,h0,c,C,hbr,y,hy,hneg,x * y,hxy,dvd_mul_left y x,?_⟩
    rwa [Int.mul_ediv_cancel x hneg.ne]

theorem minAndMax_isSome {sc : ℕ} {v : Ival} (hw : Wf sc v) {c C : ℤ} (hb : minAndMax v = .ok (some c,some C)) :
    c ∈ concr v ∧ C ∈ concr v ∧ c ≤ C := by
  obtain ⟨h1,h2⟩ := minAndMax_mem hw hb
  exact ⟨h1 c rfl,h2 C rfl,(minAndMax_bounds hw hb (h1 c rfl)).2 C rfl⟩

theorem mixed_unbounded_covers (hw : Wf sc result) {mn mx lo hi : Option ℤ}
    (hmn : ∀ a ∈ mn, a < 0) (hbr : minAndMax result = .ok (lo,hi)) (hinf : lo = none ∨ hi = none) (h0 : 0 ∉ concr result)
    {x y : ℤ} (hxy : x * y ∈ concr result) (hy : y < 0) (hyr : ∀ a ∈ mn, a ≤ y) :
    x ∈ prog (Infty.div lo (if Infty.lt0 lo then some 1 else mx)) (Infty.div hi (if Infty.lt0 hi then mx else some 1)) 0 1 ∪
      prog (Infty.div (Infty.neg hi) (if Infty.lt0 (Infty.neg hi) then some (-1) else Infty.neg mn))
        (Infty.div (Infty.neg lo) (if Infty.lt0 (Infty.neg lo) then Infty.neg mn else some (-1))) 0 1 := by
  obtain ⟨hlo,hhi⟩ := minAndMax_bounds hw hbr hxy
  obtain ⟨hlom,hhim⟩ := minAndMax_mem hw hbr
  have hneg : ∀ b ∈ Infty.neg mn, -y ≤ b := by
    intro b hb
    cases mn with
    | none => cases hb
    | some a =>
      cases hb
      have := hyr a rfl
      omega
  cases lo with
  | none =>
    cases hi with
    | none => exact Or.inl ⟨Int.emod_one _,by simp [Infty.div],by simp [Infty.div]⟩
    | some C =>
      have hC : C ≠ 0 := fun h => h0 (h ▸ hhim C rfl)
      by_cases hpos : 0 < C
      · -- the halves meet at the bound of the result
        by_cases hxC : x ≤ C
        · exact Or.inl ⟨Int.emod_one _,by simp [Infty.div],by simpa [Infty.div,Infty.lt0,not_lt.mpr hpos.le] using hxC⟩
        · refine Or.inr ⟨Int.emod_one _,?_,by simp [Infty.div,Infty.neg]⟩
          simpa [Infty.div,Infty.neg,Infty.lt0,hpos] using (not_le.mp hxC).le
      · refine Or.inr ⟨Int.emod_one _,?_,by simp [Infty.div,Infty.neg]⟩
        have hmin := minLeft_le (some (-C)) (x := x) (y := -y) (d := 1) (by omega) (by omega) hneg (by
          rintro _ ⟨⟩
          have := hhi C rfl
          rw [mul_neg]
          omega)
        simpa [Infty.neg,Infty.lt0,hpos] using hmin
  | some c =>
    cases hi with
    | some C => simp at hinf
    | none =>
      have hc : c ≠ 0 := fun h => h0 (h ▸ hlom c rfl)
      by_cases hpos : 0 < c
      · refine Or.inr ⟨Int.emod_one _,by simp [Infty.div,Infty.neg],?_⟩
        have hmax := le_maxLeft (some (-c)) (x := x) (y := -y) (d := 1) (by omega) (by omega) hneg (by
          rintro _ ⟨⟩
          have := hlo c rfl
          rw [mul_neg]
          omega)
        simpa [Infty.neg,Infty.lt0,hpos] using hmax
      · have hc' : c < 0 := by omega
        by_cases hxc : c ≤ x
        · exact Or.inl ⟨Int.emod_one _,by simpa [Infty.div,Infty.lt0,hc'] using hxc,by simp [Infty.div]⟩
        · refine Or.inr ⟨Int.emod_one _,by simp [Infty.div,Infty.neg],?_⟩
          simpa [Infty.div,Infty.neg,Infty.lt0,hpos] using (not_le.mp hxc).le

theorem mixed_bounded_covers_iff (hr : Wf sc right) (hw : Wf sc result) {mn mx : Option ℤ} {c C : ℤ}
    (hb : minAndMax right = .ok (mn,mx)) (hfin : mn ≠ none ∨ mx ≠ none) (hmx : ∀ b ∈ mx, 0 < b)
    (hbr : minAndMax result = .ok (some c,some C)) (h0 : 0 ∉ concr result) {v : Ival}
    (hv : concr v = prog (Infty.div (some c) (if Infty.lt0 (some c) then some 1 else mx))
      (Infty.div (some C) (if Infty.lt0 (some C) then mx else some 1)) 0 1) :
    Covers right result (.value (some v)) ↔ ¬ LostQuotient right result := by
  obtain ⟨hcm,hCm,hcC⟩ := minAndMax_isSome hw hbr
  have hc : c ≠ 0 := fun h => h0 (h ▸ hcm)
  have hC : C ≠ 0 := fun h => h0 (h ▸ hCm)
  have hneg : ∀ x y : ℤ, y < 0 → x * y ∈ concr result → (x ∈ concr v ↔ c ≤ x ∧ x ≤ C) := by
    intro x y hy hxy
    obtain ⟨h1,h2⟩ := minAndMax_bounds hw hbr hxy
    rw [hv]
    exact mixed_pos_iff hmx hc hC hy (h1 c rfl) (h2 C rfl)
  rw [lostQuotient_iff hb hfin hmx h0]
  constructor
  · rintro hcov ⟨c',C',hbr',x,y,hy,hy0,hxy,hout⟩
    obtain ⟨o,ho,hmem⟩ := hcov x y hy hxy
    cases ho
    obtain ⟨h1,h2⟩ := (hneg x y hy0 hxy).mp (hmem v rfl)
    rw [hbr] at hbr'
    cases hbr'
    omega
  · intro hnone
    refine covers_some fun x y hy hxy => ?_
    obtain ⟨h1,h2⟩ := minAndMax_bounds hw hbr hxy
    rcases lt_trichotomy y 0 with hy0 | rfl | hy0
    · refine (hneg x y hy0 hxy).mpr ?_
      by_contra hout
      exact hnone ⟨c,C,hbr,x,y,hy,hy0,hxy,by omega⟩
    · exact absurd (by simpa using hxy) h0
    · have hyb := (minAndMax_bounds hr hb hy).2
      rw [hv]
      exact ⟨Int.emod_one _,minLeft_le _ one_pos (by omega) hyb h1,le_maxLeft _ one_pos (by omega) hyb h2⟩

theorem backwardMultMixed_covers_iff (hsc : 2 ≤ sc) (hr : Wf sc right) (hw : Wf sc result) (hne : result ≠ bottom)
    {mn mx : Option ℤ} (hb : minAndMax right = .ok (mn,mx)) (hfin : mn ≠ none ∨ mx ≠ none) (hmn : ∀ a ∈ mn, a < 0)
    (hmx : ∀ b ∈ mx, 0 < b) :
    ∃ r, backwardMultMixed sc mn mx result = .ok r ∧ (Covers right result r ↔ ¬ LostQuotient right result) := by
  by_cases h0 : 0 ∈ concr result
  · refine ⟨.value none,by rw [backwardMultMixed,if_pos ((containsZero_iff hw).mpr h0)]; rfl,?_⟩
    have hnot : ¬ LostQuotient right result := fun ⟨_,_,_,_,_,h0',_⟩ => h0' h0
    exact iff_of_true covers_none hnot
  · obtain ⟨⟨lo,hi⟩,hbr⟩ := minAndMax_ok hne
    obtain ⟨p,hp,hpw,hpc⟩ := backwardMultPosLeft_concr hsc hbr 1 mx
    obtain ⟨n,hn,hnw,hnc⟩ := backwardMultPosLeft_concr hsc (minAndMax_negInt hbr) (-1) (Infty.neg mn)
    obtain ⟨j,hj,hjw,hhull⟩ := join_spec hsc hpw hnw
    have hneg : backwardMultNegLeft sc mn 1 result = .ok n := hn
    refine ⟨.value (some j),?_,?_⟩
    · have hz : ¬ containsZero result = true := fun h => h0 ((containsZero_iff hw).mp h)
      simp only [backwardMultMixed,if_neg hz,hp,hneg,hj,Res.ok_bind]
      rfl
    by_cases hfinr : ∃ c C, lo = some c ∧ hi = some C
    · obtain ⟨c,C,rfl,rfl⟩ := hfinr
      obtain ⟨hcm,hCm,hcC⟩ := minAndMax_isSome hw hbr
      have hempty : concr n = ∅ := by
        rw [hnc]
        exact mixed_neg_empty hmn (fun h => h0 (h ▸ hCm)) hcC
      have hjp : concr j = concr p := by
        refine Set.Subset.antisymm (hhull.2 p hpw ?_) fun x hx => hhull.1 (Or.inl hx)
        rw [hempty,Set.union_empty]
      exact mixed_bounded_covers_iff hr hw hb hfin hmx hbr h0 (hjp.trans hpc)
    · have hinf : lo = none ∨ hi = none := by
        cases lo with
        | none => exact Or.inl rfl
        | some c =>
          cases hi with
          | none => exact Or.inr rfl
          | some C => exact absurd ⟨c,C,rfl,rfl⟩ hfinr
      have hnot : ¬ LostQuotient right result := by
        rintro ⟨_,_,_,_,_,_,c,C,hbr',_⟩
        rw [hbr] at hbr'
        cases hbr'
        exact hfinr ⟨c,C,rfl,rfl⟩
      refine iff_of_true (covers_some fun x y hy hxy => hhull.1 ?_) hnot
      obtain ⟨hylo,hyhi⟩ := minAndMax_bounds hr hb hy
      rcases lt_trichotomy y 0 with hy0 | rfl | hy0
      · rw [hpc,hnc]
        exact mixed_unbounded_covers hw hmn hbr hinf h0 hxy hy0 hylo
      · exact absurd (by simpa using hxy) h0
      · obtain ⟨h1,h2⟩ := minAndMax_bounds hw hbr hxy
        left
        rw [hpc]
        exact ⟨Int.emod_one _,minLeft_le _ one_pos (by omega) hyhi h1,le_maxLeft _ one_pos (by omega) hyhi h2⟩

theorem covers_nonneg (hsc : 2 ≤ sc) (hw : Wf sc result) (hne : result ≠ bottom) {max : Option ℤ}
    (h : ∀ y ∈ concr right, 0 ≤ y ∧ ∀ b ∈ max, y ≤ b) :
    ∃ r, (if containsZero result then return .value none
      else do return .value (some (← backwardMultPosLeft sc 1 max result)) : Res (OrBottom (Option Ival))) = .ok r ∧
      Covers right result r := by
  by_cases h0 : containsZero result = true
  · exact ⟨_,by rw [if_pos h0]; rfl,covers_none⟩
  · have hz : 0 ∉ concr result := fun h => h0 ((containsZero_iff hw).mpr h)
    obtain ⟨v,hv,hcov⟩ := covers_pos right max hsc hw hne one_pos fun x y hy hxy => by
      have hy0 : y ≠ 0 := by
        rintro rfl
        exact hz (by simpa using hxy)
      have := (h y hy).1
      exact ⟨by omega,(h y hy).2⟩
    exact ⟨_,by rw [if_neg h0,hv]; rfl,hcov⟩

theorem covers_nonpos (hsc : 2 ≤ sc) (hw : Wf sc result) (hne : result ≠ bottom) {min : Option ℤ}
    (h : ∀ y ∈ concr right, y ≤ 0 ∧ ∀ a ∈ min, a ≤ y) :
    ∃ r, (if containsZero result then return .value none
      else do return .value (some (← backwardMultNegLeft sc min (-1) result)) : Res (OrBottom (Option Ival))) = .ok r ∧
      Covers right result r := by
  by_cases h0 : containsZero result = true
  · exact ⟨_,by rw [if_pos h0]; rfl,covers_none⟩
  · have hz : 0 ∉ concr result := fun h => h0 ((containsZero_iff hw).mpr h)
    obtain ⟨v,hv,hcov⟩ := covers_neg right min hsc hw hne (by omega : (-1 : ℤ) < 0) fun x y hy hxy => by
      have hy0 : y ≠ 0 := by
        rintro rfl
        exact hz (by simpa using hxy)
      have := (h y hy).1
      exact ⟨by omega,(h y hy).2⟩
    exact ⟨_,by rw [if_neg h0,hv]; rfl,hcov⟩

theorem covers_zero (hw : Wf sc result) (h : ∀ y ∈ concr right, y = 0) :
    Covers right result (if containsZero result then .value none else .bottom) := by
  by_cases h0 : containsZero result = true
  · rw [if_pos h0]
    exact covers_none
  · intro x y hy hxy
    rw [h y hy,mul_zero] at hxy
    exact absurd ((containsZero_iff hw).mpr hxy) h0

theorem backwardMultIntLeft_covers (hsc : 2 ≤ sc) (hr : Wf sc right) (hw : Wf sc result) (hne : result ≠ bottom)
    {mn mx : Option ℤ} (hb : minAndMax right = .ok (mn,mx)) (hsign : (∃ a ∈ mn, 0 ≤ a) ∨ ∃ b ∈ mx, b ≤ 0) :
    ∃ r, backwardMultIntLeft sc right result = .ok r ∧ Covers right result r := by
  have hbound := fun y hy => minAndMax_bounds hr hb (a := y) hy
  rw [backwardMultIntLeft,hb,Res.ok_bind]
  have hpos : ∀ d : ℤ, 0 < d → (∀ y ∈ concr right, d ≤ y) →
      ∃ r, (do return .value (some (← backwardMultPosLeft sc d mx result)) : Res (OrBottom (Option Ival))) = .ok r ∧
        Covers right result r := by
    intro d hd hy
    obtain ⟨v,hv,hcov⟩ := covers_pos right mx hsc hw hne hd fun x y hyr _ =>
      ⟨hy y hyr,(hbound y hyr).2⟩
    exact ⟨_,by rw [hv]; rfl,hcov⟩
  have hneg : ∀ d : ℤ, d < 0 → (∀ y ∈ concr right, y ≤ d) →
      ∃ r, (do return .value (some (← backwardMultNegLeft sc mn d result)) : Res (OrBottom (Option Ival))) = .ok r ∧
        Covers right result r := by
    intro d hd hy
    obtain ⟨v,hv,hcov⟩ := covers_neg right mn hsc hw hne hd fun x y hyr _ =>
      ⟨hy y hyr,(hbound y hyr).1⟩
    exact ⟨_,by rw [hv]; rfl,hcov⟩
  cases mn with
  | none =>
    cases mx with
    | none => simp at hsign
    | some b =>
      dsimp only
      split
      · rename_i hb0
        exact hneg b hb0 fun y hy => (hbound y hy).2 b rfl
      split
      · rename_i hb0
        exact covers_nonpos hsc hw hne fun y hy => ⟨hb0 ▸ (hbound y hy).2 b rfl,(hbound y hy).1⟩
      · simp only [Option.mem_def,reduceCtorEq,false_and,exists_false,Option.some.injEq,exists_eq_left',false_or] at hsign
        omega
  | some a =>
    cases mx with
    | none =>
      dsimp only
      split
      · rename_i ha0
        exact hpos a ha0 fun y hy => (hbound y hy).1 a rfl
      split
      · rename_i ha0
        exact covers_nonneg hsc hw hne fun y hy => ⟨ha0.le.trans ((hbound y hy).1 a rfl),(hbound y hy).2⟩
      · simp only [Option.mem_def,reduceCtorEq,false_and,exists_false,Option.some.injEq,exists_eq_left',or_false] at hsign
        omega
    | some b =>
      obtain ⟨_,_,hab⟩ := minAndMax_isSome hr hb
      dsimp only
      rw [if_neg (by omega)]
      split
      · rename_i h0
        refine ⟨_,rfl,covers_zero hw fun y hy => ?_⟩
        have h1 := (hbound y hy).1 a rfl
        have h2 := (hbound y hy).2 b rfl
        omega
      split
      · rename_i ha0
        exact hpos a ha0 fun y hy => (hbound y hy).1 a rfl
      split
      · rename_i ha0
        exact covers_nonneg hsc hw hne fun y hy => ⟨ha0.le.trans ((hbound y hy).1 a rfl),(hbound y hy).2⟩
      split
      · rename_i hb0
        exact hneg b hb0 fun y hy => (hbound y hy).2 b rfl
      split
      · rename_i hb0
        exact covers_nonpos hsc hw hne fun y hy => ⟨hb0 ▸ (hbound y hy).2 b rfl,(hbound y hy).1⟩
      · simp only [Option.mem_def,Option.some.injEq,exists_eq_left'] at hsign
        omega

theorem backwardMultIntLeft_mixed {mn mx : Option ℤ} (hb : minAndMax right = .ok (mn,mx)) (hfin : mn ≠ none ∨ mx ≠ none)
    (hmn : ∀ a ∈ mn, a < 0) (hmx : ∀ b ∈ mx, 0 < b) :
    backwardMultIntLeft sc right result = backwardMultMixed sc mn mx result := by
  rw [backwardMultIntLeft,hb,Res.ok_bind]
  cases mn with
  | none =>
    cases mx with
    | none => simp at hfin
    | some b =>
      have := hmx b rfl
      dsimp only
      rw [if_neg (by omega),if_neg (by omega)]
  | some a =>
    have := hmn a rfl
    cases mx with
    | none =>
      dsimp only
      rw [if_neg (by omega),if_neg (by omega)]
    | some b =>
      have := hmx b rfl
      dsimp only
      rw [if_neg (by omega),if_neg (by omega),if_neg (by omega),if_neg (by omega),if_neg (by omega),if_neg (by omega)]

/-- Every left factor is kept, exactly when no quotient is lost in the case of both signs. -/
theorem backwardMultIntLeft_covers_iff {sc : ℕ} (hsc : 2 ≤ sc) {right result : Ival} (hr : Wf sc right)
    (hrne : right ≠ bottom) (hw : Wf sc result) (hne : result ≠ bottom) :
    (∃ r, backwardMultIntLeft sc right result = .ok r ∧ Covers right result r) ↔ ¬ LostQuotient right result := by
  obtain ⟨⟨mn,mx⟩,hb⟩ := minAndMax_ok hrne
  by_cases hsign : (∃ a ∈ mn, 0 ≤ a) ∨ ∃ b ∈ mx, b ≤ 0
  · refine iff_of_true (backwardMultIntLeft_covers hsc hr hw hne hb hsign) ?_
    rintro ⟨_,_,hb',_,hmx,_,_,_,_,y,hy,hy0,_⟩
    rw [hb] at hb'
    cases hb'
    rcases hsign with ⟨a,ha,ha0⟩ | ⟨b,hbx,hb0⟩
    · have := (minAndMax_bounds hr hb hy).1 a ha
      omega
    · have := hmx b hbx
      omega
  · push Not at hsign
    by_cases hfin : mn ≠ none ∨ mx ≠ none
    · obtain ⟨r,hrr,hiff⟩ := backwardMultMixed_covers_iff hsc hr hw hne hb hfin hsign.1 hsign.2
      rw [backwardMultIntLeft_mixed hb hfin hsign.1 hsign.2,hrr]
      constructor
      · rintro ⟨_,⟨⟩,hcov⟩
        exact hiff.mp hcov
      · intro hnot
        exact ⟨r,rfl,hiff.mpr hnot⟩
    · push Not at hfin
      obtain ⟨rfl,rfl⟩ := hfin
      refine iff_of_true ⟨.value none,by rw [backwardMultIntLeft,hb]; rfl,covers_none⟩ ?_
      rintro ⟨_,_,hb',hfin,_⟩
      rw [hb] at hb'
      cases hb'
      simp at hfin

theorem backwardMultIntLeft_covers_quotients :
    ∃ r, backwardMultIntLeft 8 (.set [-2,3]) (.set [-6,6]) = .ok r ∧ Covers (.set [-2,3]) (.set [-6,6]) r := by
  have hr : Wf 8 (.set [-2,3]) := ⟨by simp,by decide⟩
  have hw : Wf 8 (.set [-6,6]) := ⟨by simp,by decide⟩
  refine (backwardMultIntLeft_covers_iff (by decide) hr (by simp [bottom]) hw (by simp [bottom])).mpr ?_
  rintro ⟨_,_,_,_,_,_,c,C,hb,y,hy,hy0,z,hz,_,hout⟩
  cases hb
  have hy2 : y = -2 := by
    simp only [mem_concr_set,List.mem_cons,List.not_mem_nil,or_false] at hy
    omega
  subst hy2
  simp only [mem_concr_set,List.mem_cons,List.not_mem_nil,or_false] at hz
  rcases hz with rfl | rfl <;> simp at hout

/-- Negative left factors of a positive result are lost. -/
theorem backwardMultIntLeft_loses_negative :
    Wf 8 (.topItv (some (-5)) (some 5) 0 1) ∧ Wf 8 (.set [10]) ∧ -1 ∈ concr (.topItv (some (-5)) (some 5) 0 1) ∧
      (-10) * (-1) ∈ concr (.set [10]) ∧
      backwardMultIntLeft 8 (.topItv (some (-5)) (some 5) 0 1) (.set [10]) =
        .ok (.value (some (.topItv (some 2) (some 10) 0 1))) ∧ -10 ∉ concr (.topItv (some 2) (some 10) 0 1) := by
  refine ⟨⟨by decide,by decide,by decide,by simp,by simp,by simp⟩,⟨by simp,by decide⟩,⟨by decide,by simp,by simp⟩,by simp,
    by decide,?_⟩
  rintro ⟨_,hlo,_⟩
  have := hlo 2 rfl
  omega

end Coverage

end FramaC.Ival
