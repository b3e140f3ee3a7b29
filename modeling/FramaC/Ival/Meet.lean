import FramaC.Ival.Lattice

/-! # Exact intersection of integer ivals

Two residue classes are intersected by the Chinese remainder theorem, with Bezout coefficients
computed by the extended Euclidean loop of the source.
-/
namespace FramaC.Ival
open Integer Progression

def computeFirstCommon (mn1 mn2 : Option ℤ) (r modu : ℤ) : Option ℤ :=
  match mn1, mn2 with
  | none, none => none
  | some m, none => some (roundUpToR m r modu)
  | none, some m => some (roundUpToR m r modu)
  | some m1, some m2 => some (roundUpToR (max m1 m2) r modu)

def computeLastCommon (mx1 mx2 : Option ℤ) (r modu : ℤ) : Option ℤ :=
  match mx1, mx2 with
  | none, none => none
  | some m, none => some (roundDownToR m r modu)
  | none, some m => some (roundDownToR m r modu)
  | some m1, some m2 => some (roundDownToR (min m1 m2) r modu)

/-- The loop on the references `a`, `b`, `x`, `lastx`, `y`, `lasty`. -/
def extendedEuclidianLoop (a b x lastx y lasty : ℤ) : ℤ × ℤ × ℤ :=
  if b = 0 then (lastx,lasty,a)
  else
    let q := a / b
    let r := a % b
    extendedEuclidianLoop b r (lastx - q * x) x (lasty - q * y) y
termination_by b.natAbs
decreasing_by
  have h1 := Int.emod_nonneg a ‹¬ b = 0›
  have h2 := Int.emod_lt_abs a ‹¬ b = 0›
  rw [Int.abs_eq_natAbs] at h2
  omega

def extendedEuclidianAlgorithm (a b : ℤ) : Res (ℤ × ℤ × ℤ) := do
  assertion (decide (a > 0))
  assertion (decide (b > 0))
  return extendedEuclidianLoop a b 0 1 1 0

/-- Solutions of `x == r1 mod m1 && x == r2 mod m2`, or `Error_Bottom`. -/
def computeRCommon (r1 m1 r2 m2 : ℤ) : Res (ℤ × ℤ) := do
  let (x1,_,pgcd) ← extendedEuclidianAlgorithm m1 m2
  let r := r2 - r1
  let rDiv := r / pgcd
  let rRem := r % pgcd
  if rRem ≠ 0 then .error .errorBottom
  else
    let k1 := x1 * rDiv
    let x := r1 + k1 * m1
    let ppcm := Integer.ppcm m1 m2
    return (x % ppcm,ppcm)

def arrayTruncate (r : List ℤ) : Ival :=
  if r.length = 0 then bottom
  else if r.length = 1 then injectSingleton (r.headD 0)
  else .set r

def arrayFilter (f : ℤ → Bool) (a : List ℤ) : Ival := arrayTruncate (a.filter f)

/-- The common elements, in the order in which `array_inter` writes them. -/
def arrayInterElts : List ℤ → List ℤ → List ℤ
  | [], _ => []
  | _ :: _, [] => []
  | e1 :: a1, e2 :: a2 =>
    if e1 = e2 then e1 :: arrayInterElts a1 a2
    else if e1 < e2 then arrayInterElts a1 (e2 :: a2)
    else arrayInterElts (e1 :: a1) a2
termination_by a1 a2 => a1.length + a2.length

def arrayInter (a1 a2 : List ℤ) : Ival := arrayTruncate (arrayInterElts a1 a2)

def arraysIntersect : List ℤ → List ℤ → Bool
  | [], _ => false
  | _ :: _, [] => false
  | e1 :: a1, e2 :: a2 =>
    if e1 = e2 then true
    else if e1 < e2 then arraysIntersect a1 (e2 :: a2)
    else arraysIntersect (e1 :: a1) a2
termination_by a1 a2 => a1.length + a2.length

def meetTops (sc : ℕ) (min1 max1 : Option ℤ) (r1 modu1 : ℤ) (min2 max2 : Option ℤ) (r2 modu2 : ℤ) : Res Ival := do
  let (r,modu) ← computeRCommon r1 modu1 r2 modu2
  injectTop sc (computeFirstCommon min1 min2 r modu) (computeLastCommon max1 max2 r modu) r modu

/-- `try v with Error_Bottom -> bottom`. -/
def catchBottom (v : Res Ival) : Res Ival :=
  match v with
  | .error .errorBottom => .ok bottom
  | v => v

def meetBody (sc : ℕ) (v1 v2 : Ival) : Res Ival :=
  match v1, v2 with
  | .topItv min1 max1 r1 modu1, .topItv min2 max2 r2 modu2 =>
    catchBottom (meetTops sc min1 max1 r1 modu1 min2 max2 r2 modu2)
  | .set s1, .set s2 => return arrayInter s1 s2
  | .set s, .topItv min max rm modu => return arrayFilter (fun x => inInterval x min max rm modu) s
  | .topItv min max rm modu, .set s => return arrayFilter (fun x => inInterval x min max rm modu) s

def meet (sc : ℕ) (v1 v2 : Ival) : Res Ival := if v1 = v2 then return v1 else meetBody sc v1 v2

def intersects (sc : ℕ) (v1 v2 : Ival) : Res Bool :=
  if v1 = v2 then return true
  else
    match v1, v2 with
    | .topItv .., .topItv .. => do
      let m ← meet sc v1 v2
      return !decide (m = bottom)
    | .set s1, .set s2 => return arraysIntersect s1 s2
    | .set s, .topItv min max rm modu => return s.any fun x => inInterval x min max rm modu
    | .topItv min max rm modu, .set s => return s.any fun x => inInterval x min max rm modu

def narrow (sc : ℕ) (v1 v2 : Ival) : Res Ival :=
  match v1, v2 with
  | _, .set [] => return bottom
  | .set [], _ => return bottom
  | v1, v2 => meet sc v1 v2

theorem extendedEuclidianLoop_spec (a0 b0 a b x lastx y lasty : ℤ) (ha : 0 ≤ a) (hb : 0 ≤ b)
    (h1 : a0 * lastx + b0 * lasty = a) (h2 : a0 * x + b0 * y = b) (hg : Int.gcd a b = Int.gcd a0 b0) :
    ∃ u v, extendedEuclidianLoop a b x lastx y lasty = (u,v,(Int.gcd a0 b0 : ℤ)) ∧
      a0 * u + b0 * v = Int.gcd a0 b0 := by
  fun_induction extendedEuclidianLoop a b x lastx y lasty with
  | case1 a x lastx y lasty =>
    rw [Int.gcd_zero_right] at hg
    have he : (Int.gcd a0 b0 : ℤ) = a := by rw [← hg]; exact Int.natAbs_of_nonneg ha
    exact ⟨lastx,lasty,by rw [he],by rw [he,h1]⟩
  | case2 a b x lastx y lasty hne q r ih =>
    refine ih hb (Int.emod_nonneg _ hne) h2 ?_ ?_
    · have hr : r = a - b * q := Int.emod_def a b
      rw [hr,← h1,← h2]
      ring
    · rw [← hg,Int.gcd_comm b]
      exact Int.gcd_emod a b

theorem extendedEuclidianAlgorithm_spec {a b : ℤ} (ha : 1 ≤ a) (hb : 1 ≤ b) :
    ∃ u v, extendedEuclidianAlgorithm a b = .ok (u,v,(Int.gcd a b : ℤ)) ∧ a * u + b * v = Int.gcd a b := by
  obtain ⟨u,v,he,hbez⟩ := extendedEuclidianLoop_spec a b a b 0 1 1 0 (by omega) (by omega) (by ring) (by ring) rfl
  refine ⟨u,v,?_,hbez⟩
  have ha' : decide (a > 0) = true := by simp; omega
  have hb' : decide (b > 0) = true := by simp; omega
  rw [extendedEuclidianAlgorithm,ha',hb',he]
  rfl

/-- `compute_r_common` fails exactly on incompatible congruences, and otherwise returns the
class of all common solutions modulo the least common multiple. -/
theorem computeRCommon_spec (r1 r2 : ℤ) {m1 m2 : ℤ} (h1 : 1 ≤ m1) (h2 : 1 ≤ m2) :
    (computeRCommon r1 m1 r2 m2 = .error .errorBottom ∧ ∀ x, ¬ (m1 ∣ x - r1 ∧ m2 ∣ x - r2)) ∨
    ∃ r, computeRCommon r1 m1 r2 m2 = .ok (r,(Int.lcm m1 m2 : ℤ)) ∧ 0 ≤ r ∧ r < Int.lcm m1 m2 ∧
      ∀ x, (m1 ∣ x - r1 ∧ m2 ∣ x - r2) ↔ x % Int.lcm m1 m2 = r := by
  obtain ⟨u,v,he,hbez⟩ := extendedEuclidianAlgorithm_spec h1 h2
  set d : ℤ := (Int.gcd m1 m2 : ℤ) with hd
  by_cases hdr : d ∣ r2 - r1
  · right
    have hrem : (r2 - r1) % d = 0 := Int.emod_eq_zero_of_dvd hdr
    set q := (r2 - r1) / d with hq
    have hqd : d * q = r2 - r1 := Int.mul_ediv_cancel' hdr
    set x0 := r1 + u * q * m1 with hx0
    have hlpos : (0 : ℤ) < Int.lcm m1 m2 := by
      have := Int.lcm_pos (m := m1) (n := m2) (by omega) (by omega)
      exact_mod_cast this
    have hs1 : m1 ∣ x0 - r1 := ⟨u * q,by rw [hx0]; ring⟩
    have hs2 : m2 ∣ x0 - r2 := by
      refine ⟨-(v * q),?_⟩
      have : u * q * m1 = d * q - m2 * (v * q) := by rw [← hbez]; ring
      rw [hx0,this,hqd]
      ring
    refine ⟨x0 % Int.lcm m1 m2,?_,Int.emod_nonneg _ hlpos.ne',Int.emod_lt_of_pos _ hlpos,?_⟩
    · simp only [computeRCommon,he,Res.ok_bind,← hq,hrem,ne_eq,not_true_eq_false,if_false,
        ppcm_eq (show m1 ≠ 0 by omega) (show m2 ≠ 0 by omega)]
      rfl
    · intro x
      have hiff : x % Int.lcm m1 m2 = x0 % Int.lcm m1 m2 ↔ (Int.lcm m1 m2 : ℤ) ∣ x - x0 :=
        ⟨dvd_sub_of_emod_eq,emod_eq_of_dvd_sub⟩
      rw [hiff]
      constructor
      · rintro ⟨hx1,hx2⟩
        refine Int.coe_lcm_dvd ?_ ?_
        · have := dvd_sub hx1 hs1
          rwa [show x - r1 - (x0 - r1) = x - x0 by ring] at this
        · have := dvd_sub hx2 hs2
          rwa [show x - r2 - (x0 - r2) = x - x0 by ring] at this
      · intro hx
        constructor
        · have := dvd_add ((Int.dvd_lcm_left m1 m2).trans hx) hs1
          rwa [show x - x0 + (x0 - r1) = x - r1 by ring] at this
        · have := dvd_add ((Int.dvd_lcm_right m1 m2).trans hx) hs2
          rwa [show x - x0 + (x0 - r2) = x - r2 by ring] at this
  · left
    constructor
    · have hrem : (r2 - r1) % d ≠ 0 := fun h => hdr (Int.dvd_of_emod_eq_zero h)
      simp only [computeRCommon,he,Res.ok_bind,if_pos hrem]
    · rintro x ⟨hx1,hx2⟩
      apply hdr
      have e1 := (Int.gcd_dvd_left m1 m2).trans hx1
      have e2 := (Int.gcd_dvd_right m1 m2).trans hx2
      have := dvd_sub e1 e2
      rwa [show x - r1 - (x - r2) = r2 - r1 by ring] at this

theorem arrayTruncate_eq (l : List ℤ) : arrayTruncate l = .set l := by
  unfold arrayTruncate
  split
  · rename_i h
    rw [List.length_eq_zero_iff.mp h,bottom]
  · split
    · rename_i h
      obtain ⟨a,rfl⟩ := List.length_eq_one_iff.mp h
      rfl
    · rfl

theorem arrayFilter_spec {sc : ℕ} {s : List ℤ} (h : Wf sc (.set s)) (f : ℤ → Bool) :
    Wf sc (arrayFilter f s) ∧ ∀ x, x ∈ concr (arrayFilter f s) ↔ x ∈ s ∧ f x = true := by
  rw [arrayFilter,arrayTruncate_eq]
  exact ⟨⟨h.1.filter _,(List.length_filter_le _ _).trans h.2⟩,fun x => List.mem_filter⟩

theorem arrayInterElts_sublist (a1 a2 : List ℤ) : (arrayInterElts a1 a2).Sublist a1 := by
  fun_induction arrayInterElts a1 a2 with
  | case1 a2 => simp
  | case2 e1 a1 => simp
  | case3 a1 e a2 ih => exact ih.cons_cons _
  | case4 e1 a1 e2 a2 hne hlt ih => exact ih.cons _
  | case5 e1 a1 e2 a2 hne hlt ih => exact ih

theorem mem_arrayInterElts {a1 a2 : List ℤ} (h1 : a1.Pairwise (· < ·)) (h2 : a2.Pairwise (· < ·)) {x : ℤ} :
    x ∈ arrayInterElts a1 a2 ↔ x ∈ a1 ∧ x ∈ a2 := by
  fun_induction arrayInterElts a1 a2 with
  | case1 a2 => simp
  | case2 e1 a1 => simp
  | case3 a1 e a2 ih =>
    obtain ⟨hlt1,h1'⟩ := List.pairwise_cons.mp h1
    obtain ⟨hlt2,h2'⟩ := List.pairwise_cons.mp h2
    rw [List.mem_cons,ih h1' h2',List.mem_cons,List.mem_cons]
    constructor
    · rintro (rfl | ⟨hx1,hx2⟩)
      · exact ⟨.inl rfl,.inl rfl⟩
      · exact ⟨.inr hx1,.inr hx2⟩
    · rintro ⟨rfl | hx1,hx2⟩
      · exact .inl rfl
      · rcases hx2 with rfl | hx2
        · exact .inl rfl
        · exact .inr ⟨hx1,hx2⟩
  | case4 e1 a1 e2 a2 hne hlt ih =>
    obtain ⟨_,h1'⟩ := List.pairwise_cons.mp h1
    obtain ⟨hlt2,_⟩ := List.pairwise_cons.mp h2
    rw [ih h1' h2,List.mem_cons (a := x) (b := e1)]
    constructor
    · exact fun ⟨hx1,hx2⟩ => ⟨.inr hx1,hx2⟩
    · rintro ⟨rfl | hx1,hx2⟩
      · rcases List.mem_cons.mp hx2 with he | hx2
        · exact absurd he hne
        · have := hlt2 x hx2
          omega
      · exact ⟨hx1,hx2⟩
  | case5 e1 a1 e2 a2 hne hlt ih =>
    obtain ⟨hlt1,_⟩ := List.pairwise_cons.mp h1
    obtain ⟨_,h2'⟩ := List.pairwise_cons.mp h2
    rw [ih h1 h2',List.mem_cons (a := x) (b := e2)]
    constructor
    · exact fun ⟨hx1,hx2⟩ => ⟨hx1,.inr hx2⟩
    · rintro ⟨hx1,rfl | hx2⟩
      · rcases List.mem_cons.mp hx1 with he | hx1
        · exact absurd he.symm hne
        · have := hlt1 x hx1
          omega
      · exact ⟨hx1,hx2⟩

theorem arraysIntersect_iff_ne_nil (a1 a2 : List ℤ) : arraysIntersect a1 a2 = true ↔ arrayInterElts a1 a2 ≠ [] := by
  fun_induction arraysIntersect a1 a2 with
  | case1 a2 => simp [arrayInterElts]
  | case2 e1 a1 => simp [arrayInterElts]
  | case3 a1 e a2 => simp [arrayInterElts]
  | case4 e1 a1 e2 a2 hne hlt ih => rw [ih,arrayInterElts,if_neg hne,if_pos hlt]
  | case5 e1 a1 e2 a2 hne hlt ih => rw [ih,arrayInterElts,if_neg hne,if_neg hlt]

theorem computeFirstCommon_iff {mn1 mn2 : Option ℤ} {r m x : ℤ} (hm : 1 ≤ m) (hx : x % m = r) :
    (∀ a ∈ computeFirstCommon mn1 mn2 r m, a ≤ x) ↔ (∀ a ∈ mn1, a ≤ x) ∧ ∀ a ∈ mn2, a ≤ x := by
  have hround : ∀ b, roundUpToR b r m ≤ x ↔ b ≤ x := fun b =>
    ⟨fun h => (le_roundUpToR (by omega)).trans h,fun h => roundUpToR_le (by omega) hx h⟩
  cases mn1 <;> cases mn2 <;> simp [computeFirstCommon,hround]

theorem computeLastCommon_iff {mx1 mx2 : Option ℤ} {r m x : ℤ} (hm : 1 ≤ m) (hx : x % m = r) :
    (∀ b ∈ computeLastCommon mx1 mx2 r m, x ≤ b) ↔ (∀ b ∈ mx1, x ≤ b) ∧ ∀ b ∈ mx2, x ≤ b := by
  have hround : ∀ b, x ≤ roundDownToR b r m ↔ x ≤ b := fun b =>
    ⟨fun h => h.trans (roundDownToR_le (by omega)),fun h => le_roundDownToR (by omega) hx h⟩
  cases mx1 <;> cases mx2 <;> simp [computeLastCommon,hround]

theorem reduced_common (mn1 mn2 mx1 mx2 : Option ℤ) {r m : ℤ} (hm : 1 ≤ m) (h0 : 0 ≤ r) (hr : r < m) :
    Reduced (computeFirstCommon mn1 mn2 r m) (computeLastCommon mx1 mx2 r m) r m := by
  refine ⟨hm,h0,hr,?_,?_⟩
  · cases mn1 <;> cases mn2 <;> simp [computeFirstCommon,roundUpToR_emod h0 hr]
  · cases mx1 <;> cases mx2 <;> simp [computeLastCommon,roundDownToR_emod h0 hr]

theorem meetTops_spec {sc : ℕ} (hsc : 2 ≤ sc) {mn1 mx1 mn2 mx2 : Option ℤ} {r1 m1 r2 m2 : ℤ}
    (h1 : Reduced mn1 mx1 r1 m1) (h2 : Reduced mn2 mx2 r2 m2) :
    ∃ v, catchBottom (meetTops sc mn1 mx1 r1 m1 mn2 mx2 r2 m2) = .ok v ∧ Wf sc v ∧
      concr v = prog mn1 mx1 r1 m1 ∩ prog mn2 mx2 r2 m2 := by
  rcases computeRCommon_spec r1 r2 h1.pos h2.pos with ⟨he,hno⟩ | ⟨r,he,h0,hlt,hsol⟩
  · refine ⟨bottom,by simp [meetTops,he,catchBottom],wf_bottom sc,?_⟩
    ext x
    simp only [bottom,mem_concr_set,List.not_mem_nil,false_iff,Set.mem_inter_iff,mem_prog,
      emod_eq_iff_dvd h1.nonneg h1.lt,emod_eq_iff_dvd h2.nonneg h2.lt]
    rintro ⟨⟨hx1,_⟩,hx2,_⟩
    exact hno x ⟨hx1,hx2⟩
  · have hpos : (1 : ℤ) ≤ Int.lcm m1 m2 := by omega
    obtain ⟨v,hv,hw,hc⟩ := injectTop_spec hsc (reduced_common mn1 mn2 mx1 mx2 hpos h0 hlt)
    refine ⟨v,by simp [meetTops,he,hv,catchBottom],hw,?_⟩
    rw [hc]
    ext x
    have hcl : x % Int.lcm m1 m2 = r ↔ x % m1 = r1 ∧ x % m2 = r2 := by
      rw [← hsol,emod_eq_iff_dvd h1.nonneg h1.lt,emod_eq_iff_dvd h2.nonneg h2.lt]
    rw [Set.mem_inter_iff,mem_prog,mem_prog,mem_prog]
    constructor
    · rintro ⟨hx,hxa,hxb⟩
      obtain ⟨ha1,ha2⟩ := (computeFirstCommon_iff hpos hx).mp hxa
      obtain ⟨hb1,hb2⟩ := (computeLastCommon_iff hpos hx).mp hxb
      obtain ⟨hx1,hx2⟩ := hcl.mp hx
      exact ⟨⟨hx1,ha1,hb1⟩,hx2,ha2,hb2⟩
    · rintro ⟨⟨hx1,ha1,hb1⟩,hx2,ha2,hb2⟩
      have hx := hcl.mpr ⟨hx1,hx2⟩
      exact ⟨hx,(computeFirstCommon_iff hpos hx).mpr ⟨ha1,ha2⟩,(computeLastCommon_iff hpos hx).mpr ⟨hb1,hb2⟩⟩

theorem meetBody_spec {sc : ℕ} (hsc : 2 ≤ sc) {v1 v2 : Ival} (h1 : Wf sc v1) (h2 : Wf sc v2) :
    ∃ v, meetBody sc v1 v2 = .ok v ∧ Wf sc v ∧ concr v = concr v1 ∩ concr v2 := by
  cases v1 with
  | set s1 =>
    cases v2 with
    | set s2 =>
      refine ⟨_,rfl,?_,?_⟩
      · rw [arrayInter,arrayTruncate_eq]
        exact ⟨h1.1.sublist (arrayInterElts_sublist _ _),(arrayInterElts_sublist _ _).length_le.trans h1.2⟩
      · rw [arrayInter,arrayTruncate_eq]
        ext x
        exact mem_arrayInterElts h1.1 h2.1
    | topItv mn mx r m =>
      obtain ⟨hw,hmem⟩ := arrayFilter_spec h1 fun x => inInterval x mn mx r m
      refine ⟨_,rfl,hw,?_⟩
      ext x
      rw [hmem,inInterval_iff]
      rfl
  | topItv mn mx r m =>
    cases v2 with
    | set s2 =>
      obtain ⟨hw,hmem⟩ := arrayFilter_spec h2 fun x => inInterval x mn mx r m
      refine ⟨_,rfl,hw,?_⟩
      ext x
      rw [hmem,inInterval_iff,and_comm]
      rfl
    | topItv mn' mx' r' m' =>
      exact meetTops_spec hsc (wf_topItv_iff.mp h1).1 (wf_topItv_iff.mp h2).1

theorem meet_spec {sc : ℕ} (hsc : 2 ≤ sc) {v1 v2 : Ival} (h1 : Wf sc v1) (h2 : Wf sc v2) :
    ∃ v, meet sc v1 v2 = .ok v ∧ Wf sc v ∧ concr v = concr v1 ∩ concr v2 := by
  unfold meet
  split
  · rename_i he
    subst he
    exact ⟨v1,rfl,h1,(Set.inter_self _).symm⟩
  · exact meetBody_spec hsc h1 h2

theorem narrow_spec {sc : ℕ} (hsc : 2 ≤ sc) {v1 v2 : Ival} (h1 : Wf sc v1) (h2 : Wf sc v2) :
    ∃ v, narrow sc v1 v2 = .ok v ∧ Wf sc v ∧ concr v = concr v1 ∩ concr v2 := by
  unfold narrow
  split
  · exact ⟨bottom,rfl,wf_bottom sc,by ext x; simp [bottom]⟩
  · exact ⟨bottom,rfl,wf_bottom sc,by ext x; simp [bottom]⟩
  · exact meet_spec hsc h1 h2

theorem concr_eq_empty_iff {sc : ℕ} {v : Ival} (h : Wf sc v) : concr v = ∅ ↔ v = bottom := by
  cases v with
  | set s =>
    rw [bottom,set.injEq,List.eq_nil_iff_forall_not_mem,Set.eq_empty_iff_forall_notMem]
    rfl
  | topItv mn mx r m =>
    obtain ⟨hr,hl⟩ := wf_topItv_iff.mp h
    obtain ⟨a,ha⟩ := hr.exists_terms hl
    have hne : concr (.topItv mn mx r m) ≠ ∅ := Set.Nonempty.ne_empty ⟨_,ha 0 (by omega)⟩
    exact iff_of_false hne (by simp [bottom])

theorem intersects_spec {sc : ℕ} (hsc : 2 ≤ sc) {v1 v2 : Ival} (h1 : Wf sc v1) (h2 : Wf sc v2)
    (hb1 : v1 ≠ bottom) :
    ∃ b, intersects sc v1 v2 = .ok b ∧ (b = true ↔ (concr v1 ∩ concr v2).Nonempty) := by
  unfold intersects
  split
  · rename_i he
    subst he
    refine ⟨true,rfl,?_⟩
    rw [Set.inter_self,Set.nonempty_iff_ne_empty,ne_eq,concr_eq_empty_iff h1]
    simp [hb1]
  · cases v1 with
    | set s1 =>
      cases v2 with
      | set s2 =>
        refine ⟨_,rfl,?_⟩
        rw [arraysIntersect_iff_ne_nil,ne_eq,List.eq_nil_iff_forall_not_mem,not_forall_not]
        exact exists_congr fun x => mem_arrayInterElts h1.1 h2.1
      | topItv mn mx r m =>
        refine ⟨_,rfl,?_⟩
        rw [List.any_eq_true]
        exact exists_congr fun x => and_congr_right fun _ => inInterval_iff
    | topItv mn mx r m =>
      cases v2 with
      | set s2 =>
        refine ⟨_,rfl,?_⟩
        rw [List.any_eq_true]
        exact exists_congr fun x => by rw [inInterval_iff,and_comm]; rfl
      | topItv mn' mx' r' m' =>
        obtain ⟨v,hv,hw,hc⟩ := meet_spec hsc h1 h2
        refine ⟨!decide (v = bottom),by simp only [hv,Res.ok_bind]; rfl,?_⟩
        rw [← hc,Set.nonempty_iff_ne_empty,ne_eq,concr_eq_empty_iff hw]
        simp

/-- The intersection of integer ivals is exact, and the congruence solver underneath returns
the class of all common solutions or fails when there is none. -/
theorem meet_narrow_exact {sc : ℕ} (hsc : 2 ≤ sc) :
    (∀ v1 v2, Wf sc v1 → Wf sc v2 →
      (∃ v, meet sc v1 v2 = .ok v ∧ ∀ x, x ∈ concr v ↔ x ∈ concr v1 ∧ x ∈ concr v2) ∧
      (∃ v, narrow sc v1 v2 = .ok v ∧ ∀ x, x ∈ concr v ↔ x ∈ concr v1 ∧ x ∈ concr v2) ∧
      (v1 ≠ bottom → v2 ≠ bottom →
        ∃ b, intersects sc v1 v2 = .ok b ∧ (b = true ↔ ∃ x, x ∈ concr v1 ∧ x ∈ concr v2))) ∧
    ∀ r1 m1 r2 m2 : ℤ, 1 ≤ m1 → 1 ≤ m2 →
      (computeRCommon r1 m1 r2 m2 = .error .errorBottom ↔
        ¬ ∃ x, x % m1 = r1 % m1 ∧ x % m2 = r2 % m2) ∧
      ((∃ x, x % m1 = r1 % m1 ∧ x % m2 = r2 % m2) →
        ∃ r, computeRCommon r1 m1 r2 m2 = .ok (r,(Int.lcm m1 m2 : ℤ)) ∧ 0 ≤ r ∧ r < Int.lcm m1 m2 ∧
          (∀ x, (x % m1 = r1 % m1 ∧ x % m2 = r2 % m2) ↔ x % Int.lcm m1 m2 = r) ∧
          ∀ r' : ℤ, 0 ≤ r' → r' < Int.lcm m1 m2 →
            (∀ x, (x % m1 = r1 % m1 ∧ x % m2 = r2 % m2) ↔ x % Int.lcm m1 m2 = r') → r' = r) := by
  constructor
  · intro v1 v2 h1 h2
    obtain ⟨v,hv,_,hc⟩ := meet_spec hsc h1 h2
    obtain ⟨w,hw,_,hd⟩ := narrow_spec hsc h1 h2
    refine ⟨⟨v,hv,fun x => by rw [hc]; rfl⟩,⟨w,hw,fun x => by rw [hd]; rfl⟩,fun hb1 _ => ?_⟩
    exact intersects_spec hsc h1 h2 hb1
  · intro r1 m1 r2 m2 hm1 hm2
    have hcl : ∀ {m x r : ℤ}, x % m = r % m ↔ m ∣ x - r := ⟨dvd_sub_of_emod_eq,emod_eq_of_dvd_sub⟩
    simp only [hcl]
    rcases computeRCommon_spec r1 r2 hm1 hm2 with ⟨he,hno⟩ | ⟨r,he,h0,hlt,hsol⟩
    · refine ⟨by simp [he]; exact fun x hx1 hx2 => hno x ⟨hx1,hx2⟩,?_⟩
      rintro ⟨x,hx⟩
      exact absurd hx (hno x)
    · have hr : r % Int.lcm m1 m2 = r := Int.emod_eq_of_lt h0 hlt
      refine ⟨by simp [he]; exact ⟨r,(hsol r).mpr hr⟩,fun _ => ⟨r,he,h0,hlt,hsol,?_⟩⟩
      intro r' h0' hlt' hsol'
      have := (hsol r').mp ((hsol' r').mpr (Int.emod_eq_of_lt h0' hlt'))
      rwa [Int.emod_eq_of_lt h0' hlt'] at this

theorem meet_narrow_exact_eight : ∃ v, meet 8 (.topItv none none 1 2) (.topItv none none 2 3) = .ok v ∧
    ∀ x, x ∈ concr v ↔ x ∈ concr (.topItv none none 1 2) ∧ x ∈ concr (.topItv none none 2 3) :=
  ((@meet_narrow_exact 8 (by omega)).1 _ _ (by simp [Wf]) (by simp [Wf])).1

end FramaC.Ival
