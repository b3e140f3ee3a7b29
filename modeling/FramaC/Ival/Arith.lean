import FramaC.Ival.Meet
import FramaC.Lib.Bits

/-! # Additive and multiplicative operations

Sums, opposites, scaling, products and the bitwise complement. Loops that fill an array in
increasing or decreasing order are maps over lists. Results on progressions are built by
`share_top`, without any check, or by `inject_top`.
-/
namespace FramaC.Ival
open Integer Progression

def opt1 (f : ℤ → ℤ) : Option ℤ → Option ℤ
  | none => none
  | some m => some (f m)

/-- `none` is the exception `Infinity`. -/
def opt2 (f : ℤ → ℤ → ℤ) : Option ℤ → Option ℤ → Option ℤ
  | none, _ => none
  | some _, none => none
  | some m1, some m2 => some (f m1 m2)

def applyBin1StrictIncr (f : ℤ → ℤ → ℤ) (x : ℤ) (s : List ℤ) : Ival := shareArray (s.map (f x)) s.length

def applyBin1StrictDecr (f : ℤ → ℤ → ℤ) (x : ℤ) (s : List ℤ) : Ival :=
  shareArray (s.map (f x)).reverse s.length

def mapSetStrictDecr (f : ℤ → ℤ) (s : List ℤ) : Ival := shareArray (s.map f).reverse s.length

def addSingletonInt (i : ℤ) : Ival → Ival
  | .set s => applyBin1StrictIncr (· + ·) i s
  | .topItv mn mx r m =>
    let incr v := i + v
    shareTop (opt1 incr mn) (opt1 incr mx) (incr r % m) m

/-- The case of two progressions, which the recursive call of `add_int` reaches. -/
def addTops (sc : ℕ) (mn1 mx1 : Option ℤ) (r1 m1 : ℤ) (mn2 mx2 : Option ℤ) (r2 m2 : ℤ) : Res Ival :=
  let m := pgcd m1 m2
  let r := (r1 + r2) % m
  let mn := (opt2 (· + ·) mn1 mn2).map fun min => roundUpToR min r m
  let mx := (opt2 (· + ·) mx1 mx2).map fun max => roundDownToR max r m
  injectTop sc mn mx r m

def addSetTop (sc : ℕ) (s : List ℤ) (mn mx : Option ℤ) (r m : ℤ) : Res Ival :=
  let l := s.length
  if l = 0 then return bottom
  else if l = 1 then return addSingletonInt (s.headD 0) (.topItv mn mx r m)
  else do
    let (mn',mx',r',m') ← unsafeMakeTopFromArray4 s
    addTops sc mn mx r m mn' mx' r' m'

def addInt (sc : ℕ) (v1 v2 : Ival) : Res Ival :=
  match v1, v2 with
  | .set [x], .set s => return applyBin1StrictIncr (· + ·) x s
  | .set s, .set [x] => return applyBin1StrictIncr (· + ·) x s
  | .set s1, .set s2 => return apply2N sc (· + ·) s1 s2
  | .topItv mn1 mx1 r1 m1, .topItv mn2 mx2 r2 m2 => addTops sc mn1 mx1 r1 m1 mn2 mx2 r2 m2
  | .set s, .topItv mn mx r m => addSetTop sc s mn mx r m
  | .topItv mn mx r m, .set s => addSetTop sc s mn mx r m

def negInt : Ival → Ival
  | .set s => mapSetStrictDecr (fun x => -x) s
  | .topItv mn mx r m => shareTop (opt1 (fun x => -x) mx) (opt1 (fun x => -x) mn) (-r % m) m

def subInt (sc : ℕ) (v1 v2 : Ival) : Res Ival := addInt sc v1 (negInt v2)

def scale (f : ℤ) (v : Ival) : Ival :=
  if isZero f then zero
  else
    match v with
    | .topItv mn1 mx1 r1 m1 =>
      let incr x := f * x
      if f > 0 then
        let modu := incr m1
        shareTop (opt1 incr mn1) (opt1 incr mx1) (incr r1 % modu) modu
      else
        let modu := -incr m1
        shareTop (opt1 incr mx1) (opt1 incr mn1) (incr r1 % modu) modu
    | .set s =>
      if f ≥ 0 then applyBin1StrictIncr (· * ·) f s else applyBin1StrictDecr (· * ·) f s

inductive ExtValue
  | ninf
  | pinf
  | val (v : ℤ)
  deriving DecidableEq, Repr

namespace ExtValue

def injectMin : Option ℤ → ExtValue
  | none => ninf
  | some m => val m

def injectMax : Option ℤ → ExtValue
  | none => pinf
  | some m => val m

def extNeg : ExtValue → ExtValue
  | ninf => pinf
  | pinf => ninf
  | val v => val (-v)

def extMul : ExtValue → ExtValue → ExtValue
  | ninf, ninf | pinf, pinf => pinf
  | ninf, pinf | pinf, ninf => ninf
  | val v1, val v2 => val (v1 * v2)
  | ninf, val v | val v, ninf => if v > 0 then ninf else if v < 0 then extNeg ninf else val 0
  | pinf, val v | val v, pinf => if v > 0 then pinf else if v < 0 then extNeg pinf else val 0

def extMin : ExtValue → ExtValue → ExtValue
  | ninf, _ => ninf
  | _, ninf => ninf
  | pinf, x => x
  | x, pinf => x
  | val x, val y => val (min x y)

def extMax : ExtValue → ExtValue → ExtValue
  | pinf, _ => pinf
  | _, pinf => pinf
  | ninf, x => x
  | x, ninf => x
  | val x, val y => val (max x y)

def extProj : ExtValue → Option ℤ
  | val x => some x
  | _ => none

end ExtValue

open ExtValue in
def mulTops (sc : ℕ) (mn1 mx1 : Option ℤ) (r1 m1 : ℤ) (mn2 mx2 : Option ℤ) (r2 m2 : ℤ) : Res Ival := do
  check mn1 mx1 r1 m1
  check mn2 mx2 r2 m2
  let mn1 := injectMin mn1
  let mx1 := injectMax mx1
  let mn2 := injectMin mn2
  let mx2 := injectMax mx2
  let a := extMul mn1 mn2
  let b := extMul mn1 mx2
  let c := extMul mx1 mn2
  let d := extMul mx1 mx2
  let min := extMin (extMin a b) (extMin c d)
  let max := extMax (extMax a b) (extMax c d)
  let modu := pgcd (pgcd (m1 * m2) (r1 * m2)) (r2 * m1)
  let r := r1 * r2 % modu
  injectTop sc (extProj min) (extProj max) r modu

def mulSetTop (sc : ℕ) (s : List ℤ) (mn mx : Option ℤ) (r m : ℤ) : Res Ival :=
  let l := s.length
  if l = 0 then return bottom
  else if l = 1 then return scale (s.headD 0) (.topItv mn mx r m)
  else do
    let (mn',mx',r',m') ← unsafeMakeTopFromArray4 s
    mulTops sc mn mx r m mn' mx' r' m'

def mulSetSingleton (s1 : List ℤ) (x : ℤ) : Ival :=
  if x ≥ 0 then applyBin1StrictIncr (· * ·) x s1 else applyBin1StrictDecr (· * ·) x s1

/-- The recursive call is on the progression that spans a set and on a progression, to which
none of the first three tests applies. -/
def mul (sc : ℕ) (v1 v2 : Ival) : Res Ival :=
  if equal one v1 then return v2
  else if v2 = zero ∨ v1 = zero then return zero
  else if equal one v2 then return v1
  else
    match v1, v2 with
    | .set s1, .set [x] => return mulSetSingleton s1 x
    | .set [x], .set s1 => return mulSetSingleton s1 x
    | .set s1, .set s2 => return apply2N sc (· * ·) s1 s2
    | .topItv mn1 mx1 r1 m1, .topItv mn2 mx2 r2 m2 => mulTops sc mn1 mx1 r1 m1 mn2 mx2 r2 m2
    | .set s, .topItv mn mx r m => mulSetTop sc s mn mx r m
    | .topItv mn mx r m, .set s => mulSetTop sc s mn mx r m

def bitwiseSignedNot (sc : ℕ) (v : Ival) : Res Ival :=
  match v with
  | .topItv .. => addInt sc (negInt v) minusOne
  | .set s => return mapSetStrictDecr lognot s

theorem shareArray_eq (a : List ℤ) : shareArray a a.length = .set a := by
  cases a with
  | nil => rfl
  | cons x a => rfl

section Sets
variable {sc : ℕ} {s : List ℤ}

theorem wf_map_incr (h : Wf sc (.set s)) {g : ℤ → ℤ} (hg : ∀ x y, x < y → g x < g y) :
    Wf sc (.set (s.map g)) := by
  refine ⟨?_,by simpa using h.2⟩
  rw [List.pairwise_map]
  exact h.1.imp (hg _ _)

theorem wf_map_decr (h : Wf sc (.set s)) {g : ℤ → ℤ} (hg : ∀ x y, x < y → g y < g x) :
    Wf sc (.set (s.map g).reverse) := by
  refine ⟨?_,by simpa using h.2⟩
  rw [List.pairwise_reverse,List.pairwise_map]
  exact h.1.imp (hg _ _)

theorem applyBin1StrictIncr_wf (h : Wf sc (.set s)) {f : ℤ → ℤ → ℤ} {x : ℤ}
    (hf : ∀ a b, a < b → f x a < f x b) : Wf sc (applyBin1StrictIncr f x s) := by
  have hl : s.length = (s.map (f x)).length := by simp
  rw [applyBin1StrictIncr,hl,shareArray_eq]
  exact wf_map_incr h hf

theorem mapSetStrictDecr_wf (h : Wf sc (.set s)) {f : ℤ → ℤ} (hf : ∀ a b, a < b → f b < f a) :
    Wf sc (mapSetStrictDecr f s) := by
  have hl : s.length = (s.map f).reverse.length := by simp
  rw [mapSetStrictDecr,hl,shareArray_eq]
  exact wf_map_decr h hf

theorem applyBin1StrictDecr_wf (h : Wf sc (.set s)) {f : ℤ → ℤ → ℤ} {x : ℤ}
    (hf : ∀ a b, a < b → f x b < f x a) : Wf sc (applyBin1StrictDecr f x s) :=
  mapSetStrictDecr_wf h hf

end Sets

theorem opt1_eq_map (f : ℤ → ℤ) (b : Option ℤ) : opt1 f b = b.map f := by
  cases b <;> rfl

section Additive
variable {sc : ℕ} {v v1 v2 : Ival}

theorem addSingletonInt_wf (h : Wf sc v) (i : ℤ) : Wf sc (addSingletonInt i v) := by
  cases v with
  | set s =>
    refine applyBin1StrictIncr_wf (f := (· + ·)) h ?_
    intro a b hab
    exact Int.add_lt_add_left hab i
  | topItv mn mx r m =>
    obtain ⟨hr,hl⟩ := wf_topItv_iff.mp h
    have hr' := hr.affine_incr (f := 1) (c := i) one_pos
    have hl' := hl.affine_incr (f := 1) (c := i) one_pos
    simp only [one_mul,add_comm _ i] at hr' hl'
    simp only [addSingletonInt,opt1_eq_map]
    exact wf_topItv_iff.mpr ⟨hr',hl'⟩

theorem addTops_wf (hsc : 2 ≤ sc) {mn1 mx1 mn2 mx2 : Option ℤ} {r1 m1 r2 m2 : ℤ} (hm1 : 1 ≤ m1) :
    ∃ v, addTops sc mn1 mx1 r1 m1 mn2 mx2 r2 m2 = .ok v ∧ Wf sc v := by
  have hm : 1 ≤ pgcd m1 m2 := one_le_pgcd_left hm1
  have h0 : 0 ≤ (r1 + r2) % pgcd m1 m2 := Int.emod_nonneg _ (by omega)
  have hlt : (r1 + r2) % pgcd m1 m2 < pgcd m1 m2 := Int.emod_lt_of_pos _ (by omega)
  obtain ⟨v,hv,hw,_⟩ := injectTop_spec hsc
    (reduced_round (opt2 (· + ·) mn1 mn2) (opt2 (· + ·) mx1 mx2) h0 hlt)
  exact ⟨v,hv,hw⟩

theorem addSetTop_wf (hsc : 2 ≤ sc) {s : List ℤ} {mn mx : Option ℤ} {r m : ℤ} (h1 : Wf sc (.set s))
    (h2 : Wf sc (.topItv mn mx r m)) : ∃ v, addSetTop sc s mn mx r m = .ok v ∧ Wf sc v := by
  simp only [addSetTop]
  split
  · exact ⟨_,rfl,wf_bottom sc⟩
  · split
    · exact ⟨_,rfl,addSingletonInt_wf h2 _⟩
    · rw [unsafeMakeTopFromArray4_ok h1.1 (by omega),Res.ok_bind]
      exact addTops_wf hsc (wf_topItv_iff.mp h2).1.pos

theorem addInt_wf (hsc : 2 ≤ sc) (h1 : Wf sc v1) (h2 : Wf sc v2) :
    ∃ v, addInt sc v1 v2 = .ok v ∧ Wf sc v := by
  have hadd : ∀ x {s : List ℤ}, Wf sc (.set s) → Wf sc (applyBin1StrictIncr (· + ·) x s) :=
    fun x s h => applyBin1StrictIncr_wf h fun a b hab => Int.add_lt_add_left hab x
  unfold addInt
  split
  · exact ⟨_,rfl,hadd _ h2⟩
  · exact ⟨_,rfl,hadd _ h1⟩
  · exact ⟨_,rfl,(apply2N_spec hsc _ _ _).1⟩
  · exact addTops_wf hsc (wf_topItv_iff.mp h1).1.pos
  · exact addSetTop_wf hsc h1 h2
  · exact addSetTop_wf hsc h2 h1

theorem negInt_wf (h : Wf sc v) : Wf sc (negInt v) := by
  cases v with
  | set s => exact mapSetStrictDecr_wf h fun a b hab => by omega
  | topItv mn mx r m =>
    obtain ⟨hr,hl⟩ := wf_topItv_iff.mp h
    have hr' := hr.affine_decr (f := -1) (c := 0) (by omega)
    have hl' := hl.affine_decr (f := -1) (c := 0) (by omega)
    simp only [neg_neg,one_mul,neg_mul,add_zero] at hr' hl'
    simp only [negInt,opt1_eq_map]
    exact wf_topItv_iff.mpr ⟨hr',hl'⟩

theorem subInt_wf (hsc : 2 ≤ sc) (h1 : Wf sc v1) (h2 : Wf sc v2) :
    ∃ v, subInt sc v1 v2 = .ok v ∧ Wf sc v :=
  addInt_wf hsc h1 (negInt_wf h2)

theorem bitwiseSignedNot_wf (hsc : 2 ≤ sc) (h : Wf sc v) :
    ∃ v', bitwiseSignedNot sc v = .ok v' ∧ Wf sc v' := by
  cases v with
  | set s =>
    refine ⟨_,rfl,mapSetStrictDecr_wf h fun a b hab => ?_⟩
    rw [lognot,lognot,Bits.lnot_eq,Bits.lnot_eq]
    omega
  | topItv mn mx r m => exact addInt_wf hsc (negInt_wf h) (wf_singleton hsc _)

end Additive

section Multiplicative
variable {sc : ℕ} {v v1 v2 : Ival}

theorem mulSetSingleton_wf {s : List ℤ} (h : Wf sc (.set s)) {x : ℤ} (hx : x ≠ 0) :
    Wf sc (mulSetSingleton s x) := by
  unfold mulSetSingleton
  split
  · have hpos : 0 < x := by omega
    exact applyBin1StrictIncr_wf h fun a b hab => (Int.mul_lt_mul_left hpos).mpr hab
  · have hneg : x < 0 := by omega
    exact applyBin1StrictDecr_wf h fun a b hab => Int.mul_lt_mul_of_neg_left hab hneg

theorem scale_wf (hsc : 2 ≤ sc) (h : Wf sc v) (f : ℤ) : Wf sc (scale f v) := by
  unfold scale
  split
  · exact wf_singleton hsc 0
  · rename_i hf
    have hf0 : f ≠ 0 := by simpa [isZero] using hf
    cases v with
    | set s => exact mulSetSingleton_wf h hf0
    | topItv mn mx r m =>
      obtain ⟨hr,hl⟩ := wf_topItv_iff.mp h
      simp only [opt1_eq_map]
      split
      · rename_i hpos
        have hr' := hr.affine_incr (c := 0) hpos
        have hl' := hl.affine_incr (c := 0) hpos
        simp only [add_zero] at hr' hl'
        exact wf_topItv_iff.mpr ⟨hr',hl'⟩
      · have hneg : f < 0 := by omega
        have hr' := hr.affine_decr (c := 0) hneg
        have hl' := hl.affine_decr (c := 0) hneg
        simp only [add_zero,neg_mul] at hr' hl'
        exact wf_topItv_iff.mpr ⟨hr',hl'⟩

def ExtValue.InClass (r m : ℤ) (e : ExtValue) : Prop := ∀ v, e = .val v → v % m = r

theorem ExtValue.injectMin_inClass {r m : ℤ} {b : Option ℤ} (h : ∀ a ∈ b, a % m = r) :
    (injectMin b).InClass r m := by
  cases b with
  | none => simp [InClass,injectMin]
  | some a => simpa [InClass,injectMin] using h

theorem ExtValue.injectMax_inClass {r m : ℤ} {b : Option ℤ} (h : ∀ a ∈ b, a % m = r) :
    (injectMax b).InClass r m := by
  cases b with
  | none => simp [InClass,injectMax]
  | some a => simpa [InClass,injectMax] using h

theorem ExtValue.extMin_inClass {r m : ℤ} {x y : ExtValue} (hx : x.InClass r m) (hy : y.InClass r m) :
    (extMin x y).InClass r m := by
  intro v hv
  cases x with
  | ninf => simp [extMin] at hv
  | pinf =>
    cases y with
    | ninf => simp [extMin] at hv
    | pinf => simp [extMin] at hv
    | val b => exact hy v hv
  | val a =>
    cases y with
    | ninf => simp [extMin] at hv
    | pinf => exact hx v hv
    | val b =>
      simp only [extMin,val.injEq] at hv
      subst hv
      rcases min_choice a b with h | h <;> rw [h]
      · exact hx a rfl
      · exact hy b rfl

theorem ExtValue.extMax_inClass {r m : ℤ} {x y : ExtValue} (hx : x.InClass r m) (hy : y.InClass r m) :
    (extMax x y).InClass r m := by
  intro v hv
  cases x with
  | pinf => simp [extMax] at hv
  | ninf =>
    cases y with
    | pinf => simp [extMax] at hv
    | ninf => simp [extMax] at hv
    | val b => exact hy v hv
  | val a =>
    cases y with
    | pinf => simp [extMax] at hv
    | ninf => exact hx v hv
    | val b =>
      simp only [extMax,val.injEq] at hv
      subst hv
      rcases max_choice a b with h | h <;> rw [h]
      · exact hx a rfl
      · exact hy b rfl

theorem mul_emod_of_dvd {a b r1 m1 r2 m2 m : ℤ} (ha : a % m1 = r1) (hb : b % m2 = r2)
    (h : m ∣ m1 * m2) (h1 : m ∣ r1 * m2) (h2 : m ∣ r2 * m1) : a * b % m = r1 * r2 % m := by
  obtain ⟨k,rfl⟩ := exists_eq_add_mul ha
  obtain ⟨l,rfl⟩ := exists_eq_add_mul hb
  rw [Int.emod_eq_emod_iff_emod_sub_eq_zero,← Int.dvd_iff_emod_eq_zero]
  have he : (r1 + m1 * k) * (r2 + m2 * l) - r1 * r2 =
      r1 * m2 * l + r2 * m1 * k + m1 * m2 * (k * l) := by ring
  rw [he]
  exact dvd_add (dvd_add (h1.mul_right l) (h2.mul_right k)) (h.mul_right (k * l))

theorem ExtValue.ite_eq_val {b v : ℤ} {e e' : ExtValue} (he : ∀ w, e ≠ val w) (he' : ∀ w, e' ≠ val w)
    (h : (if b > 0 then e else if b < 0 then e' else val 0) = val v) : b = 0 ∧ v = 0 := by
  split at h
  · exact absurd h (he v)
  · split at h
    · exact absurd h (he' v)
    · cases h
      exact ⟨by omega,rfl⟩

theorem ExtValue.extMul_inClass {r1 m1 r2 m2 m : ℤ} {x y : ExtValue} (hx : x.InClass r1 m1)
    (hy : y.InClass r2 m2) (h : m ∣ m1 * m2) (h1 : m ∣ r1 * m2) (h2 : m ∣ r2 * m1) :
    (extMul x y).InClass (r1 * r2 % m) m := by
  have hx0 : x = .val 0 → r1 = 0 := fun he => by simpa using (hx 0 he).symm
  have hy0 : y = .val 0 → r2 = 0 := fun he => by simpa using (hy 0 he).symm
  intro v hv
  cases x with
  | ninf =>
    cases y with
    | ninf => simp [extMul] at hv
    | pinf => simp [extMul] at hv
    | val b =>
      obtain ⟨rfl,rfl⟩ := ite_eq_val (by simp) (by simp [extNeg]) hv
      simp [hy0 rfl]
  | pinf =>
    cases y with
    | ninf => simp [extMul] at hv
    | pinf => simp [extMul] at hv
    | val b =>
      obtain ⟨rfl,rfl⟩ := ite_eq_val (by simp) (by simp [extNeg]) hv
      simp [hy0 rfl]
  | val a =>
    cases y with
    | val b =>
      simp only [extMul,val.injEq] at hv
      subst hv
      exact mul_emod_of_dvd (hx a rfl) (hy b rfl) h h1 h2
    | ninf =>
      obtain ⟨rfl,rfl⟩ := ite_eq_val (by simp) (by simp [extNeg]) hv
      simp [hx0 rfl]
    | pinf =>
      obtain ⟨rfl,rfl⟩ := ite_eq_val (by simp) (by simp [extNeg]) hv
      simp [hx0 rfl]

theorem ExtValue.extProj_mem {r m : ℤ} {x : ExtValue} (h : x.InClass r m) : ∀ a ∈ extProj x, a % m = r := by
  intro a ha
  cases x with
  | ninf => simp [extProj] at ha
  | pinf => simp [extProj] at ha
  | val v =>
    simp only [extProj,Option.mem_def,Option.some.injEq] at ha
    exact ha ▸ h v rfl

/-- The least and the greatest of the products of bounds, and the modulus, of a product. -/
def mulBounds (mn1 mx1 mn2 mx2 : Option ℤ) : ExtValue × ExtValue :=
  let a := ExtValue.extMul (ExtValue.injectMin mn1) (ExtValue.injectMin mn2)
  let b := ExtValue.extMul (ExtValue.injectMin mn1) (ExtValue.injectMax mx2)
  let c := ExtValue.extMul (ExtValue.injectMax mx1) (ExtValue.injectMin mn2)
  let d := ExtValue.extMul (ExtValue.injectMax mx1) (ExtValue.injectMax mx2)
  (ExtValue.extMin (ExtValue.extMin a b) (ExtValue.extMin c d),ExtValue.extMax (ExtValue.extMax a b) (ExtValue.extMax c d))

def mulModu (r1 m1 r2 m2 : ℤ) : ℤ := pgcd (pgcd (m1 * m2) (r1 * m2)) (r2 * m1)

theorem mulTops_eq {mn1 mx1 mn2 mx2 : Option ℤ} {r1 m1 r2 m2 : ℤ} (h1 : Reduced mn1 mx1 r1 m1)
    (h2 : Reduced mn2 mx2 r2 m2) : mulTops sc mn1 mx1 r1 m1 mn2 mx2 r2 m2 =
      injectTop sc (ExtValue.extProj (mulBounds mn1 mx1 mn2 mx2).1) (ExtValue.extProj (mulBounds mn1 mx1 mn2 mx2).2)
        (r1 * r2 % mulModu r1 m1 r2 m2) (mulModu r1 m1 r2 m2) := by
  simp only [mulTops,check_ok h1,check_ok h2,Res.ok_bind]
  rfl

theorem mulModu_dvd (r1 m1 r2 m2 : ℤ) :
    mulModu r1 m1 r2 m2 ∣ m1 * m2 ∧ mulModu r1 m1 r2 m2 ∣ r1 * m2 ∧ mulModu r1 m1 r2 m2 ∣ r2 * m1 :=
  ⟨(pgcd_dvd_left _ _).trans (pgcd_dvd_left _ _),(pgcd_dvd_left _ _).trans (pgcd_dvd_right _ _),pgcd_dvd_right _ _⟩

open ExtValue in
theorem mulTops_reduced {mn1 mx1 mn2 mx2 : Option ℤ} {r1 m1 r2 m2 : ℤ} (h1 : Reduced mn1 mx1 r1 m1)
    (h2 : Reduced mn2 mx2 r2 m2) :
    Reduced (extProj (mulBounds mn1 mx1 mn2 mx2).1) (extProj (mulBounds mn1 mx1 mn2 mx2).2)
      (r1 * r2 % mulModu r1 m1 r2 m2) (mulModu r1 m1 r2 m2) := by
  have hm1 := h1.pos
  have hm2 := h2.pos
  have hpos : 1 ≤ mulModu r1 m1 r2 m2 := one_le_pgcd_left (one_le_pgcd_left (by nlinarith))
  obtain ⟨hd,hd1,hd2⟩ := mulModu_dvd r1 m1 r2 m2
  have hmul : ∀ {x y : ExtValue}, x.InClass r1 m1 → y.InClass r2 m2 →
      (extMul x y).InClass (r1 * r2 % mulModu r1 m1 r2 m2) (mulModu r1 m1 r2 m2) :=
    fun hx hy => extMul_inClass hx hy hd hd1 hd2
  have a := hmul (injectMin_inClass h1.lower) (injectMin_inClass h2.lower)
  have b := hmul (injectMin_inClass h1.lower) (injectMax_inClass h2.upper)
  have c := hmul (injectMax_inClass h1.upper) (injectMin_inClass h2.lower)
  have d := hmul (injectMax_inClass h1.upper) (injectMax_inClass h2.upper)
  exact ⟨hpos,Int.emod_nonneg _ (by omega),Int.emod_lt_of_pos _ (by omega),
    extProj_mem (extMin_inClass (extMin_inClass a b) (extMin_inClass c d)),
    extProj_mem (extMax_inClass (extMax_inClass a b) (extMax_inClass c d))⟩

theorem mulTops_wf (hsc : 2 ≤ sc) {mn1 mx1 mn2 mx2 : Option ℤ} {r1 m1 r2 m2 : ℤ}
    (h1 : Reduced mn1 mx1 r1 m1) (h2 : Reduced mn2 mx2 r2 m2) :
    ∃ v, mulTops sc mn1 mx1 r1 m1 mn2 mx2 r2 m2 = .ok v ∧ Wf sc v := by
  obtain ⟨v,hv,hw,_⟩ := injectTop_spec hsc (mulTops_reduced h1 h2)
  exact ⟨v,(mulTops_eq h1 h2).trans hv,hw⟩

theorem mulSetTop_wf (hsc : 2 ≤ sc) {s : List ℤ} {mn mx : Option ℤ} {r m : ℤ} (h1 : Wf sc (.set s))
    (h2 : Wf sc (.topItv mn mx r m)) : ∃ v, mulSetTop sc s mn mx r m = .ok v ∧ Wf sc v := by
  simp only [mulSetTop]
  split
  · exact ⟨_,rfl,wf_bottom sc⟩
  · split
    · exact ⟨_,rfl,scale_wf hsc h2 _⟩
    · rw [unsafeMakeTopFromArray4_ok h1.1 (by omega),Res.ok_bind]
      exact mulTops_wf hsc (wf_topItv_iff.mp h2).1 (span_set h1.1 (by omega)).1

theorem mul_wf (hsc : 2 ≤ sc) (h1 : Wf sc v1) (h2 : Wf sc v2) : ∃ v, mul sc v1 v2 = .ok v ∧ Wf sc v := by
  unfold mul
  split
  · exact ⟨_,rfl,h2⟩
  · split
    · exact ⟨_,rfl,wf_singleton hsc 0⟩
    · rename_i hz
      rw [not_or] at hz
      split
      · exact ⟨_,rfl,h1⟩
      · split
        · exact ⟨_,rfl,mulSetSingleton_wf h1 fun hx => hz.1 (by rw [hx,zero])⟩
        · exact ⟨_,rfl,mulSetSingleton_wf h2 fun hx => hz.2 (by rw [hx,zero])⟩
        · exact ⟨_,rfl,(apply2N_spec hsc _ _ _).1⟩
        · exact mulTops_wf hsc (wf_topItv_iff.mp h1).1 (wf_topItv_iff.mp h2).1
        · exact mulSetTop_wf hsc h1 h2
        · exact mulSetTop_wf hsc h2 h1

end Multiplicative

end FramaC.Ival
