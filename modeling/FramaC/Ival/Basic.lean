import FramaC.Integer
import FramaC.Lib.Progression

/-! # Integer ivals: representation, checks and smart constructors

An integer ival is a small sorted array of integers or a progression with optional bounds.
Floating-point ivals are not modelled. Arrays are lists. The parameter `sc` is the value of
`small_cardinal`. Physical equality against the shared values `bottom`, `zero` and `one` is
equality, since every function that builds a small set shares those values.
-/
namespace FramaC
open Integer Progression

/-- `Set` of a sorted array, or `Top (min, max, rem, modu)`. -/
inductive Ival
  | set (s : List ℤ)
  | topItv (min max : Option ℤ) (rem modu : ℤ)
  deriving DecidableEq, Repr

namespace Ival

/-- ``[ `Bottom | `Value of 'a ]``. -/
inductive OrBottom (α : Type)
  | bottom
  | value (a : α)
  deriving DecidableEq, Repr

def bottom : Ival := .set []
def top : Ival := .topItv none none 0 1
def zero : Ival := .set [0]
def one : Ival := .set [1]
def minusOne : Ival := .set [-1]
def positiveIntegers : Ival := .topItv (some 0) none 0 1
def negativeIntegers : Ival := .topItv none (some 0) 0 1

def intCompare (x y : ℤ) : ℤ := if x < y then -1 else if x = y then 0 else 1

def boundCompare : Option ℤ → Option ℤ → ℤ
  | none, none => 0
  | none, some _ => 1
  | some _, none => -1
  | some x, some y => intCompare x y

/-- The loop over two arrays of the same length, stopped by `Unequal`. -/
def compareArrays : List ℤ → List ℤ → ℤ
  | x :: e1, y :: e2 => let r := intCompare x y; if r ≠ 0 then r else compareArrays e1 e2
  | _, _ => 0

def compare : Ival → Ival → ℤ
  | .set e1, .set e2 =>
    let l1 := e1.length
    let l2 := e2.length
    if l1 ≠ l2 then (l1 : ℤ) - l2 else compareArrays e1 e2
  | .topItv .., .set _ => 1
  | .set _, .topItv .. => -1
  | .topItv mn mx r m, .topItv mn' mx' r' m' =>
    let r1 := boundCompare mn mn'
    if r1 ≠ 0 then r1 else
    let r2 := boundCompare mx mx'
    if r2 ≠ 0 then r2 else
    let r3 := intCompare r r'
    if r3 ≠ 0 then r3 else intCompare m m'

def equal (e1 e2 : Ival) : Bool := compare e1 e2 == 0

theorem intCompare_eq_zero {x y : ℤ} : intCompare x y = 0 ↔ x = y := by
  unfold intCompare
  split
  · constructor <;> intro h <;> omega
  · split <;> simp_all

theorem boundCompare_eq_zero {x y : Option ℤ} : boundCompare x y = 0 ↔ x = y := by
  cases x <;> cases y <;> simp [boundCompare,intCompare_eq_zero]

theorem compareArrays_eq_zero {e1 e2 : List ℤ} (h : e1.length = e2.length) :
    compareArrays e1 e2 = 0 ↔ e1 = e2 := by
  induction e1 generalizing e2 with
  | nil =>
    cases e2 with
    | nil => simp [compareArrays]
    | cons y e2 => simp at h
  | cons x e1 ih =>
    cases e2 with
    | nil => simp at h
    | cons y e2 =>
      have hl : e1.length = e2.length := by simpa using h
      by_cases hc : intCompare x y = 0
      · have he := (intCompare_eq_zero).mp hc
        subst he
        simp [compareArrays,hc,ih hl]
      · have hne : x ≠ y := fun he => hc (intCompare_eq_zero.mpr he)
        simp [compareArrays,hc,hne]

@[simp] theorem equal_iff {e1 e2 : Ival} : equal e1 e2 = true ↔ e1 = e2 := by
  cases e1 with
  | set s1 =>
    cases e2 with
    | set s2 =>
      by_cases hl : s1.length = s2.length
      · simp [equal,compare,hl,compareArrays_eq_zero hl]
      · have hne : s1 ≠ s2 := fun he => hl (he ▸ rfl)
        have hz : (s1.length : ℤ) - s2.length ≠ 0 := by omega
        simp [equal,compare,hl,hne,hz]
    | topItv mn mx r m => simp [equal,compare]
  | topItv mn mx r m =>
    cases e2 with
    | set s2 => simp [equal,compare]
    | topItv mn' mx' r' m' =>
      have h1 := boundCompare_eq_zero (x := mn) (y := mn')
      have h2 := boundCompare_eq_zero (x := mx) (y := mx')
      have h3 := intCompare_eq_zero (x := r) (y := r')
      have h4 := intCompare_eq_zero (x := m) (y := m')
      simp only [equal,compare,beq_iff_eq,topItv.injEq]
      by_cases c1 : boundCompare mn mn' = 0 <;> by_cases c2 : boundCompare mx mx' = 0 <;>
        by_cases c3 : intCompare r r' = 0 <;> simp_all

def minLeElt (min : Option ℤ) (elt : ℤ) : Bool :=
  match min with
  | none => true
  | some m => decide (m ≤ elt)

def maxGeElt (max : Option ℤ) (elt : ℤ) : Bool :=
  match max with
  | none => true
  | some m => decide (m ≥ elt)

def allPositives (min : Option ℤ) : Bool :=
  match min with
  | none => false
  | some m => decide (m ≥ 0)

def allNegatives (max : Option ℤ) : Bool :=
  match max with
  | none => false
  | some m => decide (m ≤ 0)

def isSafeModulo (r modu : ℤ) : Bool := decide (r ≥ 0 ∧ modu ≥ 1 ∧ r < modu)

def isSafeBound (bound : Option ℤ) (r modu : ℤ) : Bool :=
  match bound with
  | none => true
  | some m => decide (m % modu = r)

/-- Sanity check for the arguments of `Top`; `Ival.fail` is fatal. -/
def check (min max : Option ℤ) (r modu : ℤ) : Res Unit :=
  if isSafeModulo r modu && isSafeBound min r modu && isSafeBound max r modu
  then .ok () else .error .fatal

def cardinalZeroOrOne : Ival → Bool
  | .topItv .. => false
  | .set s => decide (s.length ≤ 1)

def inInterval (x : ℤ) (min max : Option ℤ) (r modu : ℤ) : Bool :=
  decide (x % modu = r) && minLeElt min x && maxGeElt max x

/-- Index of `v` in the sorted array, or `none` for the source's `-1`. -/
def arrayMem (v : ℤ) : List ℤ → Option ℕ
  | [] => none
  | ae :: a => if ae = v then some 0 else if ae > v then none else (arrayMem v a).map (· + 1)

def injectSingleton (e : ℤ) : Ival := .set [e]

def shareSet (o : List ℤ) (s : ℕ) : Ival :=
  if s = 0 then bottom
  else if s = 1 then injectSingleton (o.headD 0)
  else .set o

def shareArray (a : List ℤ) (s : ℕ) : Ival := if s = 0 then bottom else .set a

def shareTop (min max : Option ℤ) (r modu : ℤ) : Ival := .topItv min max r modu

def make (sc : ℕ) (min max : Option ℤ) (rem modu : ℤ) : Res Ival :=
  match min, max with
  | some mn, some mx =>
    if mx > mn then
      let l := (mx - mn) / modu + 1
      if l ≤ sc then do
        let s := steps modu l.toNat mn
        assertion (mn + modu * l.toNat == modu + mx)
        return shareArray s l.toNat
      else return .topItv min max rem modu
    else if mx = mn then return injectSingleton mn
    else return bottom
  | _, _ => return shareTop min max rem modu

def injectTop (sc : ℕ) (min max : Option ℤ) (rem modu : ℤ) : Res Ival := do
  check min max rem modu
  make sc min max rem modu

def fixBound (fix : ℤ → ℤ) (r modu : ℤ) : Option ℤ → Option ℤ
  | none => none
  | some b => some (if b = r % modu then b else fix b)

def injectInterval (sc : ℕ) (min max : Option ℤ) (r modu : ℤ) : Res Ival := do
  assertion (isSafeModulo r modu)
  let min := fixBound (fun min => roundUpToR min r modu) r modu min
  let max := fixBound (fun max => roundDownToR max r modu) r modu max
  make sc min max r modu

def injectRange (sc : ℕ) (min max : Option ℤ) : Res Ival := injectTop sc min max 0 1

/-- Canonical form: a small strictly increasing array, or a progression whose finite bounds
are in the residue class and which has more than `sc` elements. -/
def Wf (sc : ℕ) : Ival → Prop
  | .set s => s.Pairwise (· < ·) ∧ s.length ≤ sc
  | .topItv mn mx r m => 1 ≤ m ∧ 0 ≤ r ∧ r < m ∧ (∀ a ∈ mn, a % m = r) ∧ (∀ b ∈ mx, b % m = r) ∧
      ∀ a ∈ mn, ∀ b ∈ mx, (sc : ℤ) < (b - a) / m + 1

def concr : Ival → Set ℤ
  | .set s => {x | x ∈ s}
  | .topItv mn mx r m => prog mn mx r m

@[simp] theorem mem_concr_set {x : ℤ} {s : List ℤ} : x ∈ concr (.set s) ↔ x ∈ s := Iff.rfl
@[simp] theorem concr_topItv {mn mx : Option ℤ} {r m : ℤ} : concr (.topItv mn mx r m) = prog mn mx r m := rfl

theorem lt_card_iff {sc : ℕ} {a b m : ℤ} (hm : 1 ≤ m) : (sc : ℤ) < (b - a) / m + 1 ↔ sc * m ≤ b - a := by
  rw [Int.lt_add_one_iff,Int.le_ediv_iff_mul_le (by omega)]

theorem wf_topItv_iff {sc : ℕ} {mn mx : Option ℤ} {r m : ℤ} :
    Wf sc (.topItv mn mx r m) ↔ Reduced mn mx r m ∧ Long sc mn mx m := by
  constructor
  · rintro ⟨hm,h0,hr,hmn,hmx,hc⟩
    exact ⟨⟨hm,h0,hr,hmn,hmx⟩,fun a ha b hb => (lt_card_iff hm).mp (hc a ha b hb)⟩
  · rintro ⟨⟨hm,h0,hr,hmn,hmx⟩,hl⟩
    exact ⟨hm,h0,hr,hmn,hmx,fun a ha b hb => (lt_card_iff hm).mpr (hl a ha b hb)⟩

theorem wf_bottom (sc : ℕ) : Wf sc bottom := ⟨List.Pairwise.nil,by simp⟩

theorem wf_singleton {sc : ℕ} (hsc : 2 ≤ sc) (x : ℤ) : Wf sc (.set [x]) :=
  ⟨List.pairwise_singleton _ _,by simp; omega⟩

theorem wf_top (sc : ℕ) : Wf sc top := by
  rw [top,wf_topItv_iff]
  exact ⟨⟨by omega,by omega,by omega,by simp,by simp⟩,by simp [Long]⟩

theorem minLeElt_iff {mn : Option ℤ} {x : ℤ} : minLeElt mn x = true ↔ ∀ a ∈ mn, a ≤ x := by
  cases mn <;> simp [minLeElt]

theorem maxGeElt_iff {mx : Option ℤ} {x : ℤ} : maxGeElt mx x = true ↔ ∀ b ∈ mx, x ≤ b := by
  cases mx <;> simp [maxGeElt]

theorem inInterval_iff {x r m : ℤ} {mn mx : Option ℤ} :
    inInterval x mn mx r m = true ↔ x ∈ prog mn mx r m := by
  simp [inInterval,minLeElt_iff,maxGeElt_iff,mem_prog,and_assoc]

theorem isSafeBound_iff {b : Option ℤ} {r m : ℤ} : isSafeBound b r m = true ↔ ∀ a ∈ b, a % m = r := by
  cases b <;> simp [isSafeBound]

theorem check_ok {mn mx : Option ℤ} {r m : ℤ} (h : Reduced mn mx r m) : check mn mx r m = .ok () := by
  have h1 : isSafeModulo r m = true := by simp [isSafeModulo,h.nonneg,h.pos,h.lt]
  simp [check,h1,(isSafeBound_iff).mpr h.lower,(isSafeBound_iff).mpr h.upper]

theorem make_spec {sc : ℕ} (hsc : 2 ≤ sc) {mn mx : Option ℤ} {r m : ℤ} (h : Reduced mn mx r m) :
    ∃ v, make sc mn mx r m = .ok v ∧ Wf sc v ∧ concr v = prog mn mx r m := by
  cases mn with
  | none =>
    exact ⟨_,rfl,wf_topItv_iff.mpr ⟨h,by simp [Long]⟩,rfl⟩
  | some a =>
    cases mx with
    | none => exact ⟨_,rfl,wf_topItv_iff.mpr ⟨h,by simp [Long]⟩,rfl⟩
    | some b =>
      have hm := h.pos
      have ha : a % m = r := h.lower a rfl
      have hd : m ∣ b - a := dvd_sub_of_emod_eq ((h.upper b rfl).trans ha.symm)
      simp only [make]
      split
      · rename_i hab
        have hq : 0 ≤ (b - a) / m := Int.ediv_nonneg (by omega) (by omega)
        split
        · rename_i hl
          have hlast : a + m * (((b - a) / m + 1).toNat : ℤ) = m + b := by
            rw [Int.toNat_of_nonneg (by omega),mul_add,Int.mul_ediv_cancel' hd]
            ring
          have hne : ((b - a) / m + 1).toNat ≠ 0 := by omega
          refine ⟨.set (steps m ((b - a) / m + 1).toNat a),?_,⟨steps_pairwise hm _ _,?_⟩,?_⟩
          · simp only [hlast,beq_self_eq_true,assertion_true,Res.ok_bind,shareArray,if_neg hne]
            rfl
          · rw [length_steps]
            omega
          · ext x
            exact mem_steps_iff hm ha (by omega)
        · rename_i hl
          refine ⟨_,rfl,wf_topItv_iff.mpr ⟨h,?_⟩,rfl⟩
          rintro _ ⟨⟩ _ ⟨⟩
          exact (lt_card_iff hm).mp (by omega)
      · rename_i hab
        split
        · rename_i he
          subst he
          refine ⟨_,rfl,wf_singleton hsc _,?_⟩
          ext x
          simp only [injectSingleton,mem_concr_set,List.mem_singleton,mem_prog]
          constructor
          · rintro rfl
            exact ⟨ha,by simp,by simp⟩
          · rintro ⟨_,hx1,hx2⟩
            exact le_antisymm (hx2 _ rfl) (hx1 _ rfl)
        · refine ⟨_,rfl,wf_bottom sc,?_⟩
          ext x
          simp only [bottom,mem_concr_set,List.not_mem_nil,false_iff,mem_prog]
          rintro ⟨_,hx1,hx2⟩
          have := hx1 _ rfl
          have := hx2 _ rfl
          omega

theorem injectTop_spec {sc : ℕ} (hsc : 2 ≤ sc) {mn mx : Option ℤ} {r m : ℤ} (h : Reduced mn mx r m) :
    ∃ v, injectTop sc mn mx r m = .ok v ∧ Wf sc v ∧ concr v = prog mn mx r m := by
  obtain ⟨v,hv,hw⟩ := make_spec hsc h
  exact ⟨v,by simp [injectTop,check_ok h,hv],hw⟩

theorem reduced_round (mn mx : Option ℤ) {r m : ℤ} (h0 : 0 ≤ r) (hr : r < m) :
    Reduced (mn.map fun b => roundUpToR b r m) (mx.map fun b => roundDownToR b r m) r m := by
  refine ⟨by omega,h0,hr,?_,?_⟩
  · intro a ha
    obtain ⟨b,_,rfl⟩ := Option.mem_map.mp ha
    exact roundUpToR_emod h0 hr
  · intro a ha
    obtain ⟨b,_,rfl⟩ := Option.mem_map.mp ha
    exact roundDownToR_emod h0 hr

theorem reduced_unit (mn mx : Option ℤ) : Reduced mn mx 0 1 :=
  ⟨by omega,by omega,by omega,fun _ _ => Int.emod_one _,fun _ _ => Int.emod_one _⟩

theorem injectRange_spec {sc : ℕ} (hsc : 2 ≤ sc) (mn mx : Option ℤ) :
    ∃ v, injectRange sc mn mx = .ok v ∧ Wf sc v ∧ concr v = prog mn mx 0 1 :=
  injectTop_spec hsc (reduced_unit mn mx)

theorem injectInterval_spec {sc : ℕ} (hsc : 2 ≤ sc) (mn mx : Option ℤ) {r m : ℤ}
    (hm : 1 ≤ m) (h0 : 0 ≤ r) (hr : r < m) :
    ∃ v, injectInterval sc mn mx r m = .ok v ∧ Wf sc v ∧ concr v = prog mn mx r m := by
  let mn' := fixBound (fun min => roundUpToR min r m) r m mn
  let mx' := fixBound (fun max => roundDownToR max r m) r m mx
  have hrm : r % m = r := Int.emod_eq_of_lt h0 hr
  have hmod : ∀ {fix : ℤ → ℤ} {b : Option ℤ}, (∀ c, fix c % m = r) →
      ∀ a ∈ fixBound fix r m b, a % m = r := by
    intro fix b hfix a ha
    cases b with
    | none => simp [fixBound] at ha
    | some b =>
      simp only [fixBound,Option.mem_def,Option.some.injEq] at ha
      split at ha
      · rename_i hb
        rw [← ha,hb,hrm,hrm]
      · rw [← ha,hfix]
  have hred : Reduced mn' mx' r m :=
    ⟨hm,h0,hr,hmod fun c => roundUpToR_emod h0 hr,hmod fun c => roundDownToR_emod h0 hr⟩
  obtain ⟨v,hv,hw,hc⟩ := make_spec hsc hred
  have hs : isSafeModulo r m = true := by simp [isSafeModulo,h0,hm,hr]
  refine ⟨v,by rw [injectInterval,hs,assertion_true,Res.ok_bind]; exact hv,hw,?_⟩
  rw [hc]
  ext x
  simp only [mem_prog]
  refine and_congr_right fun hx => and_congr ?_ ?_
  · cases mn with
    | none => simp [mn',fixBound]
    | some a =>
      simp only [mn',fixBound,Option.mem_def,Option.some.injEq,forall_eq']
      split
      · rfl
      · exact ⟨fun h => (le_roundUpToR (by omega)).trans h,fun h => roundUpToR_le (by omega) hx h⟩
  · cases mx with
    | none => simp [mx',fixBound]
    | some b =>
      simp only [mx',fixBound,Option.mem_def,Option.some.injEq,forall_eq']
      split
      · rfl
      · exact ⟨fun h => h.trans (roundDownToR_le (by omega)),fun h => le_roundDownToR (by omega) hx h⟩

theorem eq_of_concr_eq {sc : ℕ} (hsc : 2 ≤ sc) {v1 v2 : Ival} (h1 : Wf sc v1) (h2 : Wf sc v2)
    (h : concr v1 = concr v2) : v1 = v2 := by
  cases v1 with
  | set s1 =>
    cases v2 with
    | set s2 => rw [h1.1.eq_of_mem_iff h2.1 fun {x} => Set.ext_iff.mp h x]
    | topItv mn mx r m =>
      obtain ⟨hr,hl⟩ := wf_topItv_iff.mp h2
      exact absurd (fun x hx => (Set.ext_iff.mp h x).mpr hx) (hr.not_subset_list hl h1.2)
  | topItv mn mx r m =>
    obtain ⟨hr,hl⟩ := wf_topItv_iff.mp h1
    cases v2 with
    | set s2 => exact absurd (fun x hx => (Set.ext_iff.mp h x).mp hx) (hr.not_subset_list hl h2.2)
    | topItv mn' mx' r' m' =>
      obtain ⟨hr',hl'⟩ := wf_topItv_iff.mp h2
      obtain ⟨rfl,rfl,rfl,rfl⟩ := hr.eq_of_prog_eq (hl.mono hr.pos (by omega)) hr'
        (hl'.mono hr'.pos (by omega)) h
      rfl

end Ival
end FramaC
