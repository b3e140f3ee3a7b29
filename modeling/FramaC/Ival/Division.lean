import FramaC.Ival.Arith
import FramaC.Lib.Outcome

/-! # Quotients, remainders and shifts

`e_div` and `e_rem` are Euclidean, `c_div` and `c_rem` round towards zero. Messages about
imprecision are dropped, and so is the argument `size` of `extract_bits`, which only
floating-point values use.
-/
namespace FramaC.Ival
open Integer Progression Outcome

def minInt : Ival → Res (Option ℤ)
  | .topItv min _ _ _ => return min
  | .set s => if s.length = 0 then .error .errorBottom else return some (s.headD 0)

def maxInt : Ival → Res (Option ℤ)
  | .topItv _ max _ _ => return max
  | .set s => if s.length = 0 then .error .errorBottom else return some (s.getLastD 0)

/-- The loop of `map_set_incr` and `map_set_decr`: equal consecutive images are written once. -/
def mapSetLoop (f : ℤ → ℤ) : ℤ → List ℤ → List ℤ
  | last, [] => [last]
  | last, x :: s =>
    let v := f x
    if v = last then mapSetLoop f last s else last :: mapSetLoop f v s

def mapSetIncr (f : ℤ → ℤ) : List ℤ → Ival
  | [] => bottom
  | x :: s => arrayTruncate (mapSetLoop f (f x) s)

def mapSetDecr (f : ℤ → ℤ) (s : List ℤ) : Ival := mapSetIncr f s.reverse

def divF (pos : Bool) (f a : ℤ) : ℤ := if pos then a / f else a.tdiv f
def remF (pos : Bool) (f a : ℤ) : ℤ := if pos then a % f else a.tmod f

def scaleDivCommon (sc : ℕ) (pos : Bool) (f : ℤ) (v : Ival) (degenerateIval : ℤ → ℤ → Res (ℤ × ℤ)) :
    Res Ival := do
  assertion (!isZero f)
  match v with
  | .topItv mn1 mx1 r1 m1 =>
    let negative := maxIsGreater (some 0) mx1
    let (r,modu) ←
      if (negative || pos || minIsLower (some 0) mn1 || isZero (r1 % f)) && isZero (m1 % f) then
        let modu := |divF pos f m1|
        let r := if negative then r1 - m1 else r1
        pure (divF pos f r % modu,modu)
      else degenerateIval r1 m1
    let divfMn1 := opt1 (divF pos f) mn1
    let divfMx1 := opt1 (divF pos f) mx1
    let (mn,mx) := if f > 0 then (divfMn1,divfMx1) else (divfMx1,divfMn1)
    injectTop sc mn mx r modu
  | .set s => return if f < 0 then mapSetDecr (divF pos f) s else mapSetIncr (divF pos f) s

def scaleDiv (sc : ℕ) (pos : Bool) (f : ℤ) (v : Ival) : Res Ival :=
  scaleDivCommon sc pos f v fun _ _ => return (0,1)

def divSet (sc : ℕ) (x : Ival) (sy : List ℤ) : Res Ival :=
  sy.foldlM (fun acc elt => if isZero elt then return acc else do join sc acc (← scaleDiv sc false elt x)) bottom

def cDiv (a b : ℤ) : Res ℤ := if b = 0 then .error .divisionByZero else .ok (a.tdiv b)

def divRange (sc : ℕ) (x : Ival) (ymn ymx : ℤ) : Res Ival := do
  match ← minAndMax x with
  | (some xmn,some xmx) =>
    let c1 ← cDiv xmn ymn
    let c2 ← cDiv xmx ymn
    let c3 ← cDiv xmn ymx
    let c4 ← cDiv xmx ymx
    injectRange sc (some (min (min c1 c2) (min c3 c4))) (some (max (max c1 c2) (max c3 c4)))
  | _ => return top

/-- `result_pos` of `div`: the quotients by the positive divisors. -/
def divPos (sc : ℕ) (x : Ival) (mn mx r modu : ℤ) : Res Ival :=
  if mx > 0 then
    let lpos := if mn > 0 then mn else roundUpToR 1 r modu
    divRange sc x lpos mx
  else return bottom

/-- `result_neg` of `div`: the quotients by the negative divisors. -/
def divNeg (sc : ℕ) (x : Ival) (mn mx r modu : ℤ) : Res Ival :=
  if mn < 0 then
    let gneg := if mx < 0 then mx else roundDownToR (-1) r modu
    divRange sc x mn gneg
  else return bottom

def div (sc : ℕ) (x y : Ival) : Res Ival :=
  match y with
  | .set sy => divSet sc x sy
  | .topItv (some mn) (some mx) r modu => do
    let resultPos ← divPos sc x mn mx r modu
    let resultNeg ← divNeg sc x mn mx r modu
    join sc resultNeg resultPos
  | .topItv none _ _ _ | .topItv _ none _ _ => return top

def scaleRem (sc : ℕ) (pos : Bool) (f : ℤ) (v : Ival) : Res Ival :=
  if isZero f then return bottom
  else
    let f := if f < 0 then -f else f
    match v with
    | .topItv mn mx r m =>
      let modu := pgcd f m
      let rr := r % modu
      let (binf,bsup) :=
        if pos then (roundUpToR 0 rr modu,roundDownToR (f - 1) rr modu)
        else
          let min := if allPositives mn then 0 else -(f - 1)
          let max := if allNegatives mx then 0 else f - 1
          (roundUpToR min rr modu,roundDownToR max rr modu)
      let (mnRem,mxRem) :=
        match mn, mx with
        | some mn, some mx =>
          if divF pos f mn = divF pos f mx then (remF pos f mn,remF pos f mx) else (binf,bsup)
        | _, _ => (binf,bsup)
      injectTop sc (some mnRem) (some mxRem) rr modu
    | .set s => return mapSetExnsafe sc (remF pos f) s

def dividendBounds : Ival → Bool × Bool × Option ℤ
  | .set s =>
    if s.length = 0 then (false,false,none)
    else (decide (s.headD 0 ≤ -1),decide (s.getLastD 0 ≥ 1),some (max |s.headD 0| |s.getLastD 0|))
  | .topItv mn mx _ _ =>
    (minLeElt mn (-1),maxGeElt mx 1,
      match mn, mx with
      | some mn, some mx => some (max |mn| |mx|)
      | _, _ => none)

def cRem (sc : ℕ) (x y : Ival) : Res Ival :=
  match y with
  | .topItv none _ _ _ | .topItv _ none _ _ => return top
  | .topItv (some mn) (some mx) _ _ =>
    if mx = 0 then return bottom
    else
      let (neg,pos,maxX) := dividendBounds x
      let posRem := max |mn| |mx|
      let bound := posRem - 1
      let bound := match maxX with
        | none => bound
        | some b => min bound b
      let mn := if neg then some (-bound) else some 0
      let mx := if pos then some bound else some 0
      injectTop sc mn mx 0 1
  | .set yy =>
    match x with
    | .set xx => return apply2Notzero sc Int.tmod xx yy
    | .topItv .. => yy.foldlM (fun acc y => do join sc (← scaleRem sc false y x) acc) bottom

/-- `try body with Z.Overflow -> handler`. -/
def catchOverflow (body : Res Ival) (handler : Ival) : Res Ival :=
  match body with
  | .error .overflow => return handler
  | r => r

def optMap (f : ℤ → Res ℤ) : Option ℤ → Res (Option ℤ)
  | none => return none
  | some m => do return some (← f m)

def shiftAux (sc : ℕ) (scale : ℤ → Ival → Res Ival) (op : Ival → Ival → Res Ival) (x y : Ival) :
    Res Ival := do
  let y ← narrow sc (← injectRange sc (some 0) none) y
  catchOverflow
    (match y with
    | .set s => s.foldlM (fun acc n => do join sc acc (← scale (← twoPower n) x)) bottom
    | .topItv .. => do
      let minFactor ← optMap twoPower (← minInt y)
      let maxFactor ← optMap twoPower (← maxInt y)
      let modu := match minFactor with
        | none => 1
        | some m => m
      let factor ← injectTop sc minFactor maxFactor 0 modu
      op x factor)
    (if isIncluded x positiveIntegers then positiveIntegers
    else if isIncluded x negativeIntegers then negativeIntegers
    else top)

def shiftRight (sc : ℕ) (x y : Ival) : Res Ival := shiftAux sc (scaleDiv sc true) (div sc) x y
def shiftLeft (sc : ℕ) (x y : Ival) : Res Ival := shiftAux sc (fun f v => return scale f v) (mul sc) x y

def extractBits (sc : ℕ) (start stop : ℤ) (v : Ival) : Res Ival :=
  match v with
  | .set s => do
    return injectPs (← s.foldlM (fun acc elt => do return addPs sc acc (← Integer.extractBits start stop elt))
      emptyPs)
  | .topItv .. =>
    catchOverflow
      (do
        let dived ← scaleDiv sc true (← twoPower start) v
        scaleRem sc true (← twoPower (Integer.length start stop)) dived)
      top

theorem mapSetLoop_spec (f : ℤ → ℤ) (last : ℤ) (s : List ℤ) (hs : (s.map f).Pairwise (· ≤ ·))
    (hl : ∀ x ∈ s, last ≤ f x) :
    (mapSetLoop f last s).Pairwise (· < ·) ∧ (mapSetLoop f last s).length ≤ s.length + 1 ∧
      ∀ y ∈ mapSetLoop f last s, last ≤ y := by
  induction s generalizing last with
  | nil => simp [mapSetLoop]
  | cons x s ih =>
    obtain ⟨hx,hs'⟩ := List.pairwise_cons.mp hs
    simp only [mapSetLoop]
    split
    · obtain ⟨h1,h2,h3⟩ := ih last hs' fun y hy => hl y (by simp [hy])
      exact ⟨h1,by simp only [List.length_cons]; omega,h3⟩
    · rename_i hne
      have hlt : last < f x := lt_of_le_of_ne (hl x (by simp)) (Ne.symm hne)
      obtain ⟨h1,h2,h3⟩ := ih (f x) hs' fun y hy => hx (f y) (List.mem_map_of_mem hy)
      refine ⟨List.pairwise_cons.mpr ⟨fun y hy => hlt.trans_le (h3 y hy),h1⟩,?_,?_⟩
      · simp only [List.length_cons]
        omega
      · intro y hy
        rcases List.mem_cons.mp hy with rfl | hy
        · exact le_rfl
        · exact hlt.le.trans (h3 y hy)

theorem mapSetIncr_wf_of_map {sc : ℕ} {s : List ℤ} {f : ℤ → ℤ} (hs : (s.map f).Pairwise (· ≤ ·))
    (hl : s.length ≤ sc) : Wf sc (mapSetIncr f s) := by
  cases s with
  | nil => exact wf_bottom sc
  | cons x s =>
    obtain ⟨hx,hs'⟩ := List.pairwise_cons.mp hs
    obtain ⟨h1,h2,_⟩ := mapSetLoop_spec f (f x) s hs' fun y hy => hx (f y) (List.mem_map_of_mem hy)
    rw [mapSetIncr,arrayTruncate_eq]
    exact ⟨h1,h2.trans (by simpa using hl)⟩

theorem mapSetIncr_wf {sc : ℕ} {s : List ℤ} (h : Wf sc (.set s)) {f : ℤ → ℤ}
    (hf : ∀ a b, a ≤ b → f a ≤ f b) : Wf sc (mapSetIncr f s) := by
  refine mapSetIncr_wf_of_map ?_ h.2
  rw [List.pairwise_map]
  exact h.1.imp fun hab => hf _ _ hab.le

theorem mapSetDecr_wf {sc : ℕ} {s : List ℤ} (h : Wf sc (.set s)) {f : ℤ → ℤ}
    (hf : ∀ a b, a ≤ b → f b ≤ f a) : Wf sc (mapSetDecr f s) := by
  refine mapSetIncr_wf_of_map ?_ (by simpa using h.2)
  rw [List.pairwise_map,List.pairwise_reverse]
  exact h.1.imp fun hab => hf _ _ hab.le

theorem tdiv_le_tdiv {a b f : ℤ} (hf : 0 < f) (hab : a ≤ b) : a.tdiv f ≤ b.tdiv f := by
  rcases le_total 0 a with ha | ha
  · rw [Int.tdiv_eq_ediv_of_nonneg ha,Int.tdiv_eq_ediv_of_nonneg (ha.trans hab)]
    exact Int.ediv_le_ediv hf hab
  · have hna : a.tdiv f = -(-a / f) := by
      rw [← Int.tdiv_eq_ediv_of_nonneg (by omega),Int.neg_tdiv,neg_neg]
    have h0 : 0 ≤ -a / f := Int.ediv_nonneg (by omega) hf.le
    rcases le_total 0 b with hb | hb
    · have : 0 ≤ b / f := Int.ediv_nonneg hb hf.le
      rw [hna,Int.tdiv_eq_ediv_of_nonneg hb]
      omega
    · have hnb : b.tdiv f = -(-b / f) := by
        rw [← Int.tdiv_eq_ediv_of_nonneg (by omega),Int.neg_tdiv,neg_neg]
      have := Int.ediv_le_ediv hf (neg_le_neg hab)
      rw [hna,hnb]
      omega

theorem divF_mono (pos : Bool) {f a b : ℤ} (hf : 0 < f) (hab : a ≤ b) : divF pos f a ≤ divF pos f b := by
  cases pos with
  | true => exact Int.ediv_le_ediv hf hab
  | false => exact tdiv_le_tdiv hf hab

theorem divF_neg (pos : Bool) (f a : ℤ) : divF pos (-f) a = -divF pos f a := by
  cases pos with
  | true => exact Int.ediv_neg a f
  | false => exact Int.tdiv_neg a f

theorem divF_anti (pos : Bool) {f a b : ℤ} (hf : f < 0) (hab : a ≤ b) : divF pos f b ≤ divF pos f a := by
  have h := divF_mono pos (f := -f) (by omega) hab
  rw [divF_neg,divF_neg] at h
  omega

theorem ediv_congr {f q x y k : ℤ} (hf : f ≠ 0) (h : x = y + f * q * k) : x / f % |q| = y / f % |q| := by
  rw [h,mul_assoc,Int.add_mul_ediv_left _ _ hf,Int.emod_abs,Int.emod_abs,Int.add_mul_emod_self_left]

theorem divF_congr {pos : Bool} {f q x y k : ℤ} (hf : f ≠ 0) (h : x = y + f * q * k)
    (hs : pos = true ∨ (x ≤ 0 ∧ y ≤ 0) ∨ (0 ≤ x ∧ 0 ≤ y) ∨ f ∣ y) :
    divF pos f x % |q| = divF pos f y % |q| := by
  cases pos with
  | true => exact ediv_congr hf h
  | false =>
    change x.tdiv f % |q| = y.tdiv f % |q|
    rcases hs with hs | ⟨hx,hy⟩ | ⟨hx,hy⟩ | hd
    · cases hs
    · have hc : -x / f % |q| = -y / f % |q| := ediv_congr (k := -k) hf (by rw [h]; ring)
      rw [← Int.tdiv_eq_ediv_of_nonneg (by omega),← Int.tdiv_eq_ediv_of_nonneg (by omega),Int.neg_tdiv,
        Int.neg_tdiv] at hc
      have := Int.ModEq.neg hc
      simpa [Int.ModEq] using this
    · rw [Int.tdiv_eq_ediv_of_nonneg hx,Int.tdiv_eq_ediv_of_nonneg hy]
      exact ediv_congr hf h
    · have hdx : f ∣ x := by
        rw [h,mul_assoc]
        exact dvd_add hd (dvd_mul_right _ _)
      rw [Int.tdiv_eq_ediv_of_dvd hdx,Int.tdiv_eq_ediv_of_dvd hd]
      exact ediv_congr hf h

section Quotients
variable {sc : ℕ} {v x y : Ival}

theorem scaleDiv_reduced {pos : Bool} {f : ℤ} (hf : f ≠ 0) {mn mx : Option ℤ} {r m : ℤ}
    (hr : Reduced mn mx r m) (hl : Long sc mn mx m)
    (hs : (maxIsGreater (some 0) mx || pos || minIsLower (some 0) mn || isZero (r % f)) = true)
    (hd : f ∣ m) :
    1 ≤ |divF pos f m| ∧ ∀ a, a ∈ mn ∨ a ∈ mx → divF pos f a % |divF pos f m| =
      divF pos f (if maxIsGreater (some 0) mx then r - m else r) % |divF pos f m| := by
  obtain ⟨q,rfl⟩ := hd
  have hm := hr.pos
  have hq : divF pos f (f * q) = q := by
    cases pos with
    | true => exact Int.mul_ediv_cancel_left q hf
    | false => exact Int.mul_tdiv_cancel_left q hf
  have hq0 : q ≠ 0 := by
    rintro rfl
    simp at hm
  rw [hq]
  refine ⟨Int.one_le_abs hq0,fun a ha => ?_⟩
  have hcls : a % (f * q) = r := ha.elim (hr.lower a) (hr.upper a)
  obtain ⟨k,hk⟩ := exists_eq_add_mul hcls
  by_cases hneg : maxIsGreater (some 0) mx = true
  · rw [if_pos hneg]
    refine divF_congr (k := k + 1) hf (by rw [hk]; ring) (.inr (.inl ⟨?_,by linarith [hr.lt]⟩))
    obtain ⟨b,hb,hb0⟩ := maxIsGreater_iff.mp hneg 0 rfl
    rcases ha with ha | ha
    · exact (hl.le hm ha hb).trans hb0
    · rw [hb] at ha
      cases ha
      exact hb0
  · rw [if_neg hneg]
    refine divF_congr (k := k) hf hk ?_
    simp only [Bool.or_eq_true,or_assoc] at hs
    rcases hs with hmax | hpos | hmin | hz
    · exact absurd hmax hneg
    · exact .inl hpos
    · obtain ⟨c,hc,hc0⟩ := minIsLower_iff.mp hmin 0 rfl
      refine .inr (.inr (.inl ⟨?_,hr.nonneg⟩))
      rcases ha with ha | ha
      · rw [hc] at ha
        cases ha
        exact hc0
      · exact hc0.trans (hl.le hm hc ha)
    · refine .inr (.inr (.inr (Int.dvd_of_emod_eq_zero ?_)))
      simpa [isZero] using hz

theorem scaleDiv_wf (hsc : 2 ≤ sc) (h : Wf sc v) (pos : Bool) {f : ℤ} (hf : f ≠ 0) :
    ∃ v', scaleDiv sc pos f v = .ok v' ∧ Wf sc v' := by
  have ha : (!isZero f) = true := by simp [isZero,hf]
  unfold scaleDiv scaleDivCommon
  rw [ha,assertion_true,Res.ok_bind]
  cases v with
  | set s =>
    refine ⟨_,rfl,?_⟩
    split
    · rename_i hneg
      exact mapSetDecr_wf h fun a b hab => divF_anti pos hneg hab
    · exact mapSetIncr_wf h fun a b hab => divF_mono pos (by omega) hab
  | topItv mn mx r m =>
    obtain ⟨hr,hl⟩ := wf_topItv_iff.mp h
    have fin : ∀ {r' m' : ℤ}, 1 ≤ m' → (∀ a, a ∈ mn ∨ a ∈ mx → divF pos f a % m' = r' % m') →
        ∃ v', (do
          let (mn,mx) := if f > 0 then (opt1 (divF pos f) mn,opt1 (divF pos f) mx)
            else (opt1 (divF pos f) mx,opt1 (divF pos f) mn)
          injectTop sc mn mx (r' % m') m') = .ok v' ∧ Wf sc v' := by
      intro r' m' hm' hcls
      have h0 : 0 ≤ r' % m' := Int.emod_nonneg _ (by omega)
      have hlt : r' % m' < m' := Int.emod_lt_of_pos _ (by omega)
      have hmn : ∀ a ∈ mn.map (divF pos f), a % m' = r' % m' := by
        intro a ha
        obtain ⟨b,hb,rfl⟩ := Option.mem_map.mp ha
        exact hcls b (.inl hb)
      have hmx : ∀ a ∈ mx.map (divF pos f), a % m' = r' % m' := by
        intro a ha
        obtain ⟨b,hb,rfl⟩ := Option.mem_map.mp ha
        exact hcls b (.inr hb)
      rw [opt1_eq_map,opt1_eq_map]
      by_cases hpos : f > 0
      · simp only [if_pos hpos]
        obtain ⟨w,hw,hwf,_⟩ := injectTop_spec hsc ⟨hm',h0,hlt,hmn,hmx⟩
        exact ⟨w,hw,hwf⟩
      · simp only [if_neg hpos]
        obtain ⟨w,hw,hwf,_⟩ := injectTop_spec hsc ⟨hm',h0,hlt,hmx,hmn⟩
        exact ⟨w,hw,hwf⟩
    simp only
    split
    · rename_i hc
      rw [Bool.and_eq_true] at hc
      obtain ⟨hpos,hcls⟩ := scaleDiv_reduced hf hr hl hc.1
        (Int.dvd_of_emod_eq_zero (by simpa [isZero] using hc.2))
      exact fin hpos hcls
    · exact @fin 0 1 le_rfl fun a _ => by simp

theorem divSet_wf (hsc : 2 ≤ sc) (h : Wf sc x) (sy : List ℤ) :
    ∃ v, divSet sc x sy = .ok v ∧ Wf sc v := by
  refine Sat.exists_ok (Sat.foldlM (wf_bottom sc) fun acc elt _ hacc => ?_)
  split
  · exact hacc
  · rename_i hz
    obtain ⟨q,hq,hqw⟩ := scaleDiv_wf hsc h false (f := elt) (by simpa [isZero] using hz)
    obtain ⟨j,hj,hjw,_⟩ := join_spec hsc hacc hqw
    rw [hq,Res.ok_bind]
    exact Sat.of_ok hj hjw

theorem minAndMax_ok (h : x ≠ bottom) : ∃ b, minAndMax x = .ok b := by
  cases x with
  | set s =>
    have hs : s.length ≠ 0 := fun he => h (by rw [List.length_eq_zero_iff.mp he,bottom])
    exact ⟨_,by rw [minAndMax,if_neg hs]; rfl⟩
  | topItv mn mx r m => exact ⟨_,rfl⟩

theorem divRange_wf (hsc : 2 ≤ sc) {ymn ymx : ℤ} (hmn : ymn ≠ 0) (hmx : ymx ≠ 0) :
    Sat (Wf sc) (fun e => e = .errorBottom ∧ x = bottom) (divRange sc x ymn ymx) := by
  by_cases hx : x = bottom
  · subst hx
    exact ⟨rfl,rfl⟩
  · obtain ⟨⟨mn,mx⟩,hb⟩ := minAndMax_ok hx
    rw [divRange,hb,Res.ok_bind]
    cases mn with
    | none => exact wf_top sc
    | some a =>
      cases mx with
      | none => exact wf_top sc
      | some b =>
        simp only [cDiv,if_neg hmn,if_neg hmx,Res.ok_bind]
        obtain ⟨v,hv,hw,_⟩ := injectRange_spec hsc
          (some (min (min (a.tdiv ymn) (b.tdiv ymn)) (min (a.tdiv ymx) (b.tdiv ymx))))
          (some (max (max (a.tdiv ymn) (b.tdiv ymn)) (max (a.tdiv ymx) (b.tdiv ymx))))
        exact Sat.of_ok hv hw

theorem divPos_wf (hsc : 2 ≤ sc) {mn mx r m : ℤ} (hm : 1 ≤ m) :
    Sat (Wf sc) (fun e => e = .errorBottom ∧ x = bottom) (divPos sc x mn mx r m) := by
  unfold divPos
  split
  · have h1 : 1 ≤ roundUpToR 1 r m := le_roundUpToR (by omega)
    refine divRange_wf hsc ?_ (by omega)
    split <;> omega
  · exact wf_bottom sc

theorem divNeg_wf (hsc : 2 ≤ sc) {mn mx r m : ℤ} (hm : 1 ≤ m) :
    Sat (Wf sc) (fun e => e = .errorBottom ∧ x = bottom) (divNeg sc x mn mx r m) := by
  unfold divNeg
  split
  · have h1 : roundDownToR (-1) r m ≤ -1 := roundDownToR_le (by omega)
    refine divRange_wf hsc (by omega) ?_
    split <;> omega
  · exact wf_bottom sc

theorem div_wf (hsc : 2 ≤ sc) (hx : Wf sc x) (hy : Wf sc y) :
    Sat (Wf sc) (fun e => e = .errorBottom ∧ x = bottom) (div sc x y) := by
  cases y with
  | set sy =>
    obtain ⟨v,hv,hw⟩ := divSet_wf hsc hx sy
    exact Sat.of_ok hv hw
  | topItv mn mx r m =>
    have hm := (wf_topItv_iff.mp hy).1.pos
    cases mn with
    | none => exact wf_top sc
    | some a =>
      cases mx with
      | none => exact wf_top sc
      | some b =>
        refine Sat.bind (divPos_wf hsc hm) fun p hp => Sat.bind (divNeg_wf hsc hm) fun n hn => ?_
        obtain ⟨j,hj,hjw,_⟩ := join_spec hsc hn hp
        exact Sat.of_ok hj hjw

theorem remF_emod {pos : Bool} {f a m : ℤ} (hd : m ∣ f) : remF pos f a % m = a % m := by
  cases pos with
  | true => exact Int.emod_emod_of_dvd a hd
  | false =>
    obtain ⟨q,rfl⟩ := hd
    change a.tmod (m * q) % m = a % m
    rw [Int.tmod_def,mul_assoc,Int.sub_mul_emod_self_left]

theorem scaleRem_wf (hsc : 2 ≤ sc) (h : Wf sc v) (pos : Bool) (f : ℤ) :
    ∃ v', scaleRem sc pos f v = .ok v' ∧ Wf sc v' := by
  unfold scaleRem
  split
  · exact ⟨_,rfl,wf_bottom sc⟩
  · rename_i hz
    have hf : 1 ≤ if f < 0 then -f else f := by
      have : f ≠ 0 := by simpa [isZero] using hz
      split <;> omega
    generalize (if f < 0 then -f else f) = f at hf
    cases v with
    | set s => exact ⟨_,rfl,(mapSetExnsafe_spec hsc _ s).1⟩
    | topItv mn mx r m =>
      obtain ⟨hr,_⟩ := wf_topItv_iff.mp h
      have hm : 1 ≤ pgcd f m := one_le_pgcd_left hf
      have h0 : 0 ≤ r % pgcd f m := Int.emod_nonneg _ (by omega)
      have hlt : r % pgcd f m < pgcd f m := Int.emod_lt_of_pos _ (by omega)
      have fin : ∀ {a b : ℤ}, a % pgcd f m = r % pgcd f m → b % pgcd f m = r % pgcd f m →
          ∃ v', injectTop sc (some a) (some b) (r % pgcd f m) (pgcd f m) = .ok v' ∧ Wf sc v' := by
        intro a b ha hb
        have hred : Reduced (some a) (some b) (r % pgcd f m) (pgcd f m) :=
          ⟨hm,h0,hlt,by rintro _ ⟨⟩; exact ha,by rintro _ ⟨⟩; exact hb⟩
        obtain ⟨w,hw,hwf,_⟩ := injectTop_spec hsc hred
        exact ⟨w,hw,hwf⟩
      have hrem : ∀ {a}, a % m = r → remF pos f a % pgcd f m = r % pgcd f m := by
        intro a ha
        rw [remF_emod (pgcd_dvd_left f m),← ha,Int.emod_emod_of_dvd _ (pgcd_dvd_right f m)]
      have hround : ∀ a b, ∃ v', injectTop sc (some (roundUpToR a (r % pgcd f m) (pgcd f m)))
          (some (roundDownToR b (r % pgcd f m) (pgcd f m))) (r % pgcd f m) (pgcd f m) = .ok v' ∧ Wf sc v' :=
        fun a b => fin (roundUpToR_emod h0 hlt) (roundDownToR_emod h0 hlt)
      simp only
      cases pos with
      | true =>
        cases mn with
        | none => exact hround _ _
        | some a =>
          cases mx with
          | none => exact hround _ _
          | some b =>
            by_cases hc : divF true f a = divF true f b
            · simp only [if_pos hc]
              exact fin (hrem (hr.lower a rfl)) (hrem (hr.upper b rfl))
            · simp only [if_neg hc]
              exact hround _ _
      | false =>
        cases mn with
        | none => exact hround _ _
        | some a =>
          cases mx with
          | none => exact hround _ _
          | some b =>
            by_cases hc : divF false f a = divF false f b
            · simp only [if_pos hc]
              exact fin (hrem (hr.lower a rfl)) (hrem (hr.upper b rfl))
            · simp only [if_neg hc]
              exact hround _ _

theorem cRem_wf (hsc : 2 ≤ sc) (hx : Wf sc x) : ∃ v, cRem sc x y = .ok v ∧ Wf sc v := by
  cases y with
  | topItv mn mx r m =>
    cases mn with
    | none => exact ⟨_,rfl,wf_top sc⟩
    | some a =>
      cases mx with
      | none => exact ⟨_,rfl,wf_top sc⟩
      | some b =>
        simp only [cRem]
        split
        · exact ⟨_,rfl,wf_bottom sc⟩
        · have fin : ∀ mn mx, ∃ v, injectTop sc mn mx 0 1 = .ok v ∧ Wf sc v := fun mn mx => by
            obtain ⟨w,hw,hwf,_⟩ := injectTop_spec hsc (reduced_unit mn mx)
            exact ⟨w,hw,hwf⟩
          exact fin _ _
  | set yy =>
    cases x with
    | set xx => exact ⟨_,rfl,(apply2Notzero_spec hsc _ _ _).1⟩
    | topItv mn mx r m =>
      refine Sat.exists_ok (Sat.foldlM (wf_bottom sc) fun acc e _ hacc => ?_)
      obtain ⟨q,hq,hqw⟩ := scaleRem_wf hsc hx false e
      obtain ⟨j,hj,hjw,_⟩ := join_spec hsc hqw hacc
      rw [hq,Res.ok_bind]
      exact Sat.of_ok hj hjw

theorem catchOverflow_sat {body : Res Ival} {handler : Ival} {E : Exn → Prop} (hh : Wf sc handler)
    (hb : Sat (Wf sc) (fun e => e = .overflow ∨ E e) body) : Sat (Wf sc) E (catchOverflow body handler) := by
  unfold catchOverflow
  split
  · exact hh
  · rename_i hne
    cases body with
    | ok v => exact hb
    | error e =>
      rcases hb with rfl | he
      · exact absurd rfl hne
      · exact he

theorem wf_shift_handler : Wf sc (if isIncluded x positiveIntegers then positiveIntegers
    else if isIncluded x negativeIntegers then negativeIntegers else top) := by
  split
  · simp [Wf,positiveIntegers]
  · split
    · simp [Wf,negativeIntegers]
    · exact wf_top sc

theorem shiftAux_wf (hsc : 2 ≤ sc) {scale : ℤ → Ival → Res Ival} {op : Ival → Ival → Res Ival}
    {E : Exn → Prop} (hscale : ∀ f, 1 ≤ f → Sat (Wf sc) E (scale f x))
    (hop : ∀ w, Wf sc w → Sat (Wf sc) E (op x w)) (hy : Wf sc y) :
    Sat (Wf sc) E (shiftAux sc scale op x y) := by
  have hpow : ∀ n : ℤ, (1 : ℤ) ≤ 2 ^ n.toNat := fun n => one_le_pow₀ (by omega)
  obtain ⟨rng,hrng,hrngw,hrngc⟩ := injectRange_spec hsc (some 0) none
  obtain ⟨z,hz,hzw,hzc⟩ := narrow_spec hsc hrngw hy
  have hnn : ∀ n ∈ concr z, 0 ≤ n := by
    intro n hn
    rw [hzc,hrngc] at hn
    exact hn.1.2.1 0 rfl
  rw [shiftAux,hrng,Res.ok_bind,hz,Res.ok_bind]
  refine catchOverflow_sat wf_shift_handler ?_
  cases z with
  | set s =>
    refine Sat.foldlM (wf_bottom sc) fun acc n hn hacc => ?_
    rcases twoPower_nonneg (hnn n hn) with h | h
    · rw [h,Res.ok_bind]
      refine Sat.bind ((hscale _ (hpow n)).mono (fun _ => id) fun _ => .inr) fun q hq => ?_
      obtain ⟨j,hj,hjw,_⟩ := join_spec hsc hacc hq
      exact Sat.of_ok hj hjw
    · rw [h,Res.error_bind]
      exact .inl rfl
  | topItv mn mx r m =>
    obtain ⟨hr,hl⟩ := wf_topItv_iff.mp hzw
    have hm := hr.pos
    have hmem : ∀ n, n ∈ mn ∨ n ∈ mx → 0 ≤ n := by
      intro n hn
      cases mn with
      | none =>
        obtain ⟨w,hw,hw0⟩ := hr.unbounded_below (-1)
        have := hnn w hw
        omega
      | some a =>
        have ha := hnn a (hr.lower_mem fun b hb => hl.le hm rfl hb)
        rcases hn with hn | hn
        · cases hn
          exact ha
        · exact ha.trans (hl.le hm rfl hn)
    have hfac : ∀ {b : Option ℤ}, (∀ n ∈ b, 0 ≤ n) →
        optMap twoPower b = .ok (b.map fun n => 2 ^ n.toNat) ∨ optMap twoPower b = .error .overflow := by
      intro b hb
      cases b with
      | none => exact .inl rfl
      | some n =>
        rcases twoPower_nonneg (hb n rfl) with h | h
        · exact .inl (by rw [optMap,h]; rfl)
        · exact .inr (by rw [optMap,h]; rfl)
    simp only [minInt,maxInt,pure_bind]
    rcases hfac fun n hn => hmem n (.inl hn) with h1 | h1
    · rcases hfac fun n hn => hmem n (.inr hn) with h2 | h2
      · rw [h1,h2,Res.ok_bind,Res.ok_bind]
        -- the lower factor divides the upper one, and is the modulus
        have hred : ∃ w, injectTop sc (mn.map fun n => (2 : ℤ) ^ n.toNat) (mx.map fun n => 2 ^ n.toNat) 0
            (match mn.map fun n => (2 : ℤ) ^ n.toNat with
              | none => 1
              | some m => m) = .ok w ∧ Wf sc w := by
          cases mn with
          | none =>
            obtain ⟨w,hw,hwf,_⟩ := injectTop_spec hsc (reduced_unit none (mx.map fun n => 2 ^ n.toNat))
            exact ⟨w,hw,hwf⟩
          | some a =>
            have ha := hpow a
            have hred : Reduced (some ((2 : ℤ) ^ a.toNat)) (mx.map fun n => 2 ^ n.toNat) 0 (2 ^ a.toNat) := by
              refine ⟨ha,le_rfl,by omega,by rintro _ ⟨⟩; exact Int.emod_self,?_⟩
              intro c hc
              obtain ⟨b,hb,rfl⟩ := Option.mem_map.mp hc
              have hab := hl.le hm rfl hb
              exact Int.emod_eq_zero_of_dvd (pow_dvd_pow 2 (by omega))
            obtain ⟨w,hw,hwf,_⟩ := injectTop_spec hsc hred
            exact ⟨w,hw,hwf⟩
        obtain ⟨w,hw,hwf⟩ := hred
        rw [hw,Res.ok_bind]
        exact (hop w hwf).mono (fun _ => id) fun _ => .inr
      · rw [h1,h2,Res.ok_bind,Res.error_bind]
        exact .inl rfl
    · rw [h1,Res.error_bind]
      exact .inl rfl

theorem shiftLeft_wf (hsc : 2 ≤ sc) (hx : Wf sc x) (hy : Wf sc y) :
    ∃ v, shiftLeft sc x y = .ok v ∧ Wf sc v := by
  refine Sat.exists_ok (shiftAux_wf hsc (fun f _ => ?_) (fun w hw => ?_) hy)
  · exact scale_wf hsc hx f
  · obtain ⟨v,hv,hvw⟩ := mul_wf hsc hx hw
    exact Sat.of_ok hv hvw

theorem shiftRight_wf (hsc : 2 ≤ sc) (hx : Wf sc x) (hy : Wf sc y) :
    Sat (Wf sc) (fun e => e = .errorBottom ∧ x = bottom) (shiftRight sc x y) := by
  refine shiftAux_wf hsc (fun f hf => ?_) (fun w hw => div_wf hsc hx hw) hy
  obtain ⟨v,hv,hvw⟩ := scaleDiv_wf hsc hx true (f := f) (by omega)
  exact Sat.of_ok hv hvw

theorem extractBits_wf (hsc : 2 ≤ sc) (h : Wf sc v) {start stop : ℤ} (h0 : 0 ≤ start) (h1 : start ≤ stop)
    (h2 : stop < 2 ^ 62 - 1) : ∃ v', extractBits sc start stop v = .ok v' ∧ Wf sc v' := by
  cases v with
  | set s =>
    have hex : ∀ e, ∃ b, Integer.extractBits start stop e = .ok b := by
      intro e
      have ht : toInt start = .ok start := toInt_ok ⟨by omega,by omega⟩
      have ht' : toInt (Integer.length start stop) = .ok (Integer.length start stop) := by
        unfold Integer.length
        exact toInt_ok ⟨by omega,by omega⟩
      have hlen : ¬ (start < 0 ∨ Integer.length start stop ≤ 0) := by
        unfold Integer.length
        omega
      refine ⟨e / 2 ^ start.toNat % 2 ^ (Integer.length start stop).toNat,?_⟩
      rw [Integer.extractBits,decide_eq_true ⟨h0,h1⟩,assertion_true,Res.ok_bind,ht,Res.ok_bind,ht',Res.ok_bind,
        Integer.extract,if_neg hlen]
    have hfold : Sat (fun ps => ∃ E, PreSet.Holds sc E ps) (fun _ => False)
        (s.foldlM (fun acc elt => do return addPs sc acc (← Integer.extractBits start stop elt)) emptyPs) := by
      refine Sat.foldlM ⟨∅,emptyPs_holds sc⟩ fun ps e _ hps => ?_
      obtain ⟨E,hE⟩ := hps
      obtain ⟨b,hb⟩ := hex e
      rw [hb,Res.ok_bind]
      exact ⟨insert b E,addPs_holds hsc hE b⟩
    obtain ⟨ps,hps,E,hE⟩ := hfold.exists_ok
    refine ⟨_,by rw [extractBits,hps]; rfl,(injectPs_spec hE).1⟩
  | topItv mn mx r m =>
    refine Sat.exists_ok (catchOverflow_sat (wf_top sc) ?_)
    rcases twoPower_nonneg h0 with hp | hp
    · have hpos : (0 : ℤ) < 2 ^ start.toNat := by positivity
      obtain ⟨q,hq,hqw⟩ := scaleDiv_wf hsc h true hpos.ne'
      rw [hp,Res.ok_bind,hq,Res.ok_bind]
      have hlen : 0 ≤ Integer.length start stop := by
        unfold Integer.length
        omega
      rcases twoPower_nonneg hlen with hp' | hp'
      · obtain ⟨w,hw,hww⟩ := scaleRem_wf hsc hqw true (2 ^ (Integer.length start stop).toNat)
        rw [hp',Res.ok_bind]
        exact Sat.of_ok hw hww
      · rw [hp',Res.error_bind]
        exact .inl rfl
    · rw [hp,Res.error_bind]
      exact .inl rfl

end Quotients

end FramaC.Ival
