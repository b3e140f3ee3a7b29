import FramaC.Cint.Signs

/-! # What the matching functions match

Each function that matches returns on terms of one shape, and what it returns has the values of that shape.
-/
set_option linter.unusedSectionVars false
namespace FramaC.Cint
open Qed Integer Bits
variable {ADT Field Fun : Type}

theorem bind_ok {α β : Type} {x : Res α} {f : α → Res β} {b : β} : (x >>= f) = .ok b ↔ ∃ a, x = .ok a ∧ f a = .ok b := by
  cases x <;> simp

theorem handle_ok {α : Type} {x h : Res α} {a : α} :
    handle x h = .ok a ↔ x = .ok a ∨ x = .error .notFound ∧ h = .ok a := by
  cases x with
  | ok b => simp [handle]
  | error e => cases e <;> simp [handle]

theorem shiftLeft_ok {x y z : ℤ} (h : shiftLeft x y = .ok z) : 0 ≤ y ∧ z = x * 2 ^ y.toNat := by
  obtain ⟨k,hk,h⟩ := (bind_ok).mp h
  unfold toInt at hk
  split at hk
  · obtain rfl := Except.ok.inj hk
    split at h
    · cases h
    · exact ⟨by omega,(Except.ok.inj h).symm⟩
  · cases hk

theorem shiftRight_ok {x y z : ℤ} (h : shiftRight x y = .ok z) : 0 ≤ y ∧ z = x / 2 ^ y.toNat := by
  obtain ⟨k,hk,h⟩ := (bind_ok).mp h
  unfold toInt at hk
  split at hk
  · obtain rfl := Except.ok.inj hk
    split at h
    · cases h
    · exact ⟨by omega,(Except.ok.inj h).symm⟩
  · cases hk

theorem twoPowerKMinus1_ok {k m : ℤ} (hk : 0 ≤ k) (h : twoPowerKMinus1 k = .ok m) : m = 2 ^ k.toNat - 1 := by
  unfold twoPowerKMinus1 at h
  rcases twoPower_nonneg hk with hp | hp
  · rw [hp] at h
    exact (Except.ok.inj h).symm
  · rw [hp] at h
    cases h

theorem land_mask (x : ℤ) (k : ℕ) : Int.land x (lognot (2 ^ k - 1)) = x / 2 ^ k * 2 ^ k := by
  have hmask : lognot (2 ^ k - 1) = -2 ^ k := by
    rw [lognot,lnot_eq]
    ring
  rw [hmask,land_neg_two_pow]
  have := Int.mul_ediv_add_emod x (2 ^ k)
  linarith

section Terms

theorem matchInteger_ok {t : Term ADT Field Fun} {c : ℤ} : matchInteger t = .ok c ↔ ∃ ts, t = .node (.kint c) ts := by
  unfold matchInteger
  split
  · simp [eq_comm]
  · next hne =>
    simp only [reduceCtorEq,false_iff]
    rintro ⟨ts,rfl⟩
    exact hne c ts rfl

theorem matchPositiveOrNullInteger_ok {t : Term ADT Field Fun} {c : ℤ} :
    matchPositiveOrNullInteger t = .ok c ↔ 0 ≤ c ∧ ∃ ts, t = .node (.kint c) ts := by
  unfold matchPositiveOrNullInteger
  split
  · next d ts =>
    split
    · next hd =>
      simp only [Except.ok.injEq,Rose.node.injEq,Repr.kint.injEq]
      constructor
      · rintro rfl
        exact ⟨hd,ts,rfl,rfl⟩
      · rintro ⟨_,_,h,_⟩
        exact h
    · next hd =>
      simp only [reduceCtorEq,false_iff,Rose.node.injEq,Repr.kint.injEq]
      rintro ⟨hc,_,rfl,_⟩
      exact hd hc
  · next hne =>
    simp only [reduceCtorEq,false_iff]
    rintro ⟨_,ts,rfl⟩
    exact hne c ts rfl

variable [DecidableEq Fun]

theorem matchFun_ok {op : Fun} {t : Term ADT Field Fun} {es : List (Term ADT Field Fun)} :
    matchFun op t = .ok es ↔ t = .node (.func op) es := by
  unfold matchFun
  split
  · next f ts =>
    split
    · next hf =>
      subst hf
      simp
    · next hf => simp [hf]
  · next hne =>
    simp only [reduceCtorEq,false_iff]
    rintro rfl
    exact hne op es rfl

theorem matchUfun_ok {op : Fun} {t e : Term ADT Field Fun} : matchUfun op t = .ok e ↔ t = .node (.func op) [e] := by
  unfold matchUfun
  split
  · next f ts =>
    split
    · next hf =>
      subst hf
      simp
    · next hf => simp [hf]
  · next hne =>
    simp only [reduceCtorEq,false_iff]
    rintro rfl
    exact hne op e rfl

theorem matchBinopArg1_ok {α : Type} {matchF : Term ADT Field Fun → Res α} {es : List (Term ADT Field Fun)} {c : α}
    {e : Term ADT Field Fun} : matchBinopArg1 matchF es = .ok (c,e) ↔ ∃ e1, es = [e1,e] ∧ matchF e1 = .ok c := by
  unfold matchBinopArg1
  split
  · next e1 e2 =>
    rw [bind_ok]
    simp only [pure,Except.pure,Except.ok.injEq,Prod.mk.injEq,List.cons.injEq,and_true]
    constructor
    · rintro ⟨_,h,rfl,rfl⟩
      exact ⟨e1,⟨rfl,rfl⟩,h⟩
    · rintro ⟨_,⟨rfl,rfl⟩,h⟩
      exact ⟨c,h,rfl,rfl⟩
  · next hne =>
    simp only [reduceCtorEq,false_iff]
    rintro ⟨e1,rfl,_⟩
    exact hne e1 e rfl

theorem matchBinopArg2_ok {α : Type} {matchF : Term ADT Field Fun → Res α} {es : List (Term ADT Field Fun)} {c : α}
    {e : Term ADT Field Fun} : matchBinopArg2 matchF es = .ok (e,c) ↔ ∃ e2, es = [e,e2] ∧ matchF e2 = .ok c := by
  unfold matchBinopArg2
  split
  · next e1 e2 =>
    rw [bind_ok]
    simp only [pure,Except.pure,Except.ok.injEq,Prod.mk.injEq,List.cons.injEq,and_true]
    constructor
    · rintro ⟨_,h,rfl,rfl⟩
      exact ⟨e2,⟨rfl,rfl⟩,h⟩
    · rintro ⟨_,⟨rfl,rfl⟩,h⟩
      exact ⟨c,h,rfl,rfl⟩
  · next hne =>
    simp only [reduceCtorEq,false_iff]
    rintro ⟨e2,rfl,_⟩
    exact hne e e2 rfl

theorem matchListHead_ok {α : Type} {matchF : Term ADT Field Fun → Res α} {ts es : List (Term ADT Field Fun)} {c : α} :
    matchListHead matchF ts = .ok (c,es) ↔ ∃ e, ts = e :: es ∧ matchF e = .ok c := by
  cases ts with
  | nil => simp [matchListHead]
  | cons t ts =>
    rw [matchListHead,bind_ok]
    simp only [pure,Except.pure,Except.ok.injEq,Prod.mk.injEq,List.cons.injEq]
    constructor
    · rintro ⟨_,h,rfl,rfl⟩
      exact ⟨t,⟨rfl,rfl⟩,h⟩
    · rintro ⟨_,⟨rfl,rfl⟩,h⟩
      exact ⟨c,h,rfl,rfl⟩

variable [FunSymbol Fun] {S : Cbits Fun} {E : Build ADT Field Fun} {I : Interp ADT Field Fun}

theorem matchPositiveOrNull_ok {t k : Term ADT Field Fun} :
    matchPositiveOrNull S E t = .ok k ↔ t = k ∧ isPositiveOrNull S E t = true := by
  unfold matchPositiveOrNull
  split
  · next h => simp [h]
  · next h => simp [h]

theorem matchPositiveOrNullArg2_ok {es : List (Term ADT Field Fun)} {e k : Term ADT Field Fun} :
    matchPositiveOrNullArg2 S E es = .ok (e,k) ↔ es = [e,k] ∧ isPositiveOrNull S E k = true := by
  rw [matchPositiveOrNullArg2,matchBinopArg2_ok]
  simp only [matchPositiveOrNull_ok]
  constructor
  · rintro ⟨_,rfl,rfl,h⟩
    exact ⟨rfl,h⟩
  · rintro ⟨rfl,h⟩
    exact ⟨k,rfl,rfl,h⟩

theorem nonneg_arg2 (hE : E.Sound S I) {e k : Term ADT Field Fun} {x n : ℤ} (h : I.Ints S [e,k] [x,n])
    (hk : isPositiveOrNull S E k = true) : I.value S e = .int x ∧ I.value S k = .int n ∧ 0 ≤ n := by
  obtain ⟨he,hks⟩ : I.value S e = .int x ∧ I.value S k = .int n := by simpa [Interp.Ints] using h
  exact ⟨he,hks,(signSound hE k).1 hk n hks⟩

theorem const_arg2 {e : Term ADT Field Fun} {ts : List (Term ADT Field Fun)} {c x n : ℤ}
    (h : I.Ints S [e,.node (.kint c) ts] [x,n]) : I.value S e = .int x ∧ n = c := by
  obtain ⟨he,hks⟩ : I.value S e = .int x ∧ I.value S (.node (.kint c) ts) = .int n := by simpa [Interp.Ints] using h
  rw [value_kint] at hks
  exact ⟨he,(Value.int.inj hks).symm⟩

theorem matchPositiveOrNullIntegerArg2_ok {es : List (Term ADT Field Fun)} {e : Term ADT Field Fun} {c : ℤ} :
    matchPositiveOrNullIntegerArg2 es = .ok (e,c) ↔ 0 ≤ c ∧ ∃ ts, es = [e,.node (.kint c) ts] := by
  rw [matchPositiveOrNullIntegerArg2,matchBinopArg2_ok]
  simp only [matchPositiveOrNullInteger_ok]
  constructor
  · rintro ⟨_,rfl,h0,ts,rfl⟩
    exact ⟨h0,ts,rfl⟩
  · rintro ⟨h0,ts,rfl⟩
    exact ⟨_,rfl,h0,ts,rfl⟩

end Terms
end FramaC.Cint

/-! ## Powers of two

A power of two is a constant, or a power of two that is shifted to the left. What matches it returns its exponent as a
term.
-/
set_option linter.unusedSectionVars false
namespace FramaC.Cint
open Qed Integer Bits
variable {ADT Field Fun : Type}

def hsb2 (p : ℕ) : ℕ := if p &&& 2 = 0 then 0 else 1

def hsb4 (p : ℕ) : ℕ :=
  let n := p >>> 2
  if n = 0 then hsb2 p else 2 + hsb2 n

def hsb8 (p : ℕ) : ℕ :=
  let n := p >>> 4
  if n = 0 then hsb4 p else 4 + hsb4 n

def hsbTable : Array ℕ := Array.ofFn fun p : Fin 256 => hsb8 p

def hsb16 (p : ℕ) : ℕ :=
  let n := p >>> 8
  if n = 0 then hsbTable.getD p 0 else 8 + hsbTable.getD n 0

def hsb32 (p : ℕ) : ℕ :=
  let n := p >>> 16
  if n = 0 then hsb16 p else 16 + hsb16 n

def highestBitNumber (p : ℕ) : ℕ :=
  let n := p >>> 32
  if n = 0 then hsb32 p else 32 + highestBitNumber n
termination_by p
decreasing_by
  rename_i hn
  have hp : p ≠ 0 := fun h => hn (by simp [n,h])
  rw [Nat.shiftRight_eq_div_pow]
  exact Nat.div_lt_self (Nat.pos_of_ne_zero hp) (by decide)

def isPower2 (k : ℤ) : Bool := k > 0 && k = logand k (-k)

/-- The function gives the highest bit of the positive numbers of at most `k` bits. -/
def HighestBit (k : ℕ) (f : ℕ → ℕ) : Prop := ∀ p, 0 < p → p < 2 ^ k → f p = p.log2

theorem log2_shiftRight {p k : ℕ} (h : p >>> k ≠ 0) : p.log2 = k + (p >>> k).log2 := by
  rw [Nat.shiftRight_eq_div_pow] at h ⊢
  have hp : p ≠ 0 := fun hp => h (by rw [hp,Nat.zero_div])
  obtain ⟨hlo,hhi⟩ := (Nat.log2_eq_iff h).mp rfl
  refine (Nat.log2_eq_iff hp).mpr ⟨?_,?_⟩
  · rw [pow_add,mul_comm]
    exact (Nat.le_div_iff_mul_le (by positivity)).mp hlo
  · rw [add_assoc,pow_add,mul_comm]
    exact (Nat.div_lt_iff_lt_mul (by positivity)).mp hhi

theorem HighestBit.double {k : ℕ} {f g : ℕ → ℕ} (h : HighestBit k f)
    (hg : ∀ p, p < 2 ^ (2 * k) → g p = if p >>> k = 0 then f p else k + f (p >>> k)) : HighestBit (2 * k) g := by
  intro p hp hlt
  rw [hg p hlt]
  split
  · next hz =>
    rw [Nat.shiftRight_eq_div_pow] at hz
    exact h p hp ((Nat.div_eq_zero_iff_lt (by positivity)).mp hz)
  · next hz =>
    rw [log2_shiftRight hz,h _ (Nat.pos_of_ne_zero hz)]
    rw [Nat.shiftRight_eq_div_pow,Nat.div_lt_iff_lt_mul (by positivity),← pow_add,← two_mul]
    exact hlt

theorem highestBit_hsb2 : HighestBit 2 hsb2 := by
  intro p hp hlt
  interval_cases p <;> decide

theorem highestBit_hsb8 : HighestBit 8 hsb8 :=
  have h4 : HighestBit 4 hsb4 := highestBit_hsb2.double fun _ _ => rfl
  h4.double fun _ _ => rfl

theorem highestBit_table : HighestBit 8 fun p => hsbTable.getD p 0 := by
  intro p hp hlt
  have hlt' : p < 256 := hlt
  simp only
  rw [← highestBit_hsb8 p hp hlt,hsbTable,Array.getD_eq_getD_getElem?,Array.getElem?_ofFn,dif_pos hlt',Option.getD_some]

theorem highestBit_hsb32 : HighestBit 32 hsb32 :=
  have h16 : HighestBit 16 hsb16 := highestBit_table.double fun _ _ => rfl
  h16.double fun _ _ => rfl

theorem highestBitNumber_eq {p : ℕ} (hp : 0 < p) : highestBitNumber p = p.log2 := by
  induction p using Nat.strong_induction_on with
  | _ p ih =>
    unfold highestBitNumber
    simp only
    split
    · next hz =>
      rw [Nat.shiftRight_eq_div_pow] at hz
      exact highestBit_hsb32 p hp ((Nat.div_eq_zero_iff_lt (by positivity)).mp hz)
    · next hz =>
      have hlt : p >>> 32 < p := by
        rw [Nat.shiftRight_eq_div_pow]
        exact Nat.div_lt_self hp (by decide)
      rw [log2_shiftRight hz,ih _ hlt (Nat.pos_of_ne_zero hz)]

theorem eq_of_isPower2 {z : ℤ} (h : isPower2 z = true) : z = 2 ^ highestBitNumber z.toNat := by
  obtain ⟨hpos,hz⟩ : 0 < z ∧ z = Int.land z (-z) := by
    unfold isPower2 at h
    rw [Bool.and_eq_true,decide_eq_true_eq,decide_eq_true_eq] at h
    exact h
  obtain ⟨p,rfl⟩ := Int.eq_ofNat_of_zero_le hpos.le
  have hp : 0 < p := by omega
  rw [Int.toNat_natCast,highestBitNumber_eq hp]
  obtain ⟨hlo,hhi⟩ := (Nat.log2_eq_iff hp.ne').mp rfl
  by_contra hne
  -- the predecessor has the same highest bit, which the negation clears
  have hlt : 2 ^ p.log2 ≤ p - 1 := by
    have : p ≠ 2 ^ p.log2 := fun he => hne (by exact_mod_cast he)
    omega
  have hneg : -(p : ℤ) = Int.lnot ((p - 1 : ℕ) : ℤ) := by
    rw [lnot_eq]
    omega
  have htop : ∀ q : ℕ, 2 ^ p.log2 ≤ q → q < 2 ^ (p.log2 + 1) → (q : ℤ).testBit p.log2 = true := fun q h1 h2 => by
    have hq : q.log2 = p.log2 := (Nat.log2_eq_iff (by have := Nat.two_pow_pos p.log2; omega)).mpr ⟨h1,h2⟩
    exact hq ▸ Nat.testBit_log2 (by have := Nat.two_pow_pos p.log2; omega)
  have hbit := congrArg (Int.testBit · p.log2) hz
  simp only [hneg,Int.testBit_land,Int.testBit_lnot,htop p hlo hhi,htop (p - 1) hlt (by omega)] at hbit
  cases hbit

section Terms
variable [DecidableEq Fun] [FunSymbol Fun] (S : Cbits Fun) (E : Build ADT Field Fun)

mutual

def matchPower2 : Term ADT Field Fun → Res (Term ADT Field Fun)
  | .node r es =>
    match r with
    | .kint z => if isPower2 z then .ok (eZint (highestBitNumber z.toNat)) else .error .notFound
    | .func f => if f = S.lsl then matchPower2Shift es else .error .notFound
    | _ => .error .notFound

def matchPower2Shift : List (Term ADT Field Fun) → Res (Term ADT Field Fun)
  | [n,k] => if isPositiveOrNull S E k then do return E.eAdd k (← matchPower2 n) else .error .notFound
  | _ => .error .notFound

end

def matchPower2Extraction (es : List (Term ADT Field Fun)) :
    Res (Term ADT Field Fun × Term ADT Field Fun × List (Term ADT Field Fun)) := matchListExtraction (matchPower2 S E) es

variable {S E} {I : Interp ADT Field Fun}

theorem matchPower2_ok (hE : E.Sound S I) (t : Term ADT Field Fun) : ∀ {p : Term ADT Field Fun} {x : ℤ},
    matchPower2 S E t = .ok p → I.value S t = .int x → ∃ n : ℕ, I.value S p = .int n ∧ x = 2 ^ n := by
  induction t using Rose.induct with
  | h r es ih =>
    intro p x h hx
    unfold matchPower2 at h
    split at h
    · next z =>
      split at h
      · next hz =>
        obtain rfl := Except.ok.inj h
        rw [value_kint] at hx
        obtain rfl := Value.int.inj hx
        exact ⟨_,value_eZint ..,eq_of_isPower2 hz⟩
      · cases h
    · next f =>
      split at h
      · next hf =>
        subst hf
        unfold matchPower2Shift at h
        split at h
        · next n k =>
          split at h
          · next hk =>
            obtain ⟨q,hq,h⟩ := (bind_ok).mp h
            obtain rfl := Except.ok.inj h
            obtain ⟨y,m,hym,rfl⟩ := value_lsl.mp hx
            obtain ⟨hn,hkm,hm⟩ := nonneg_arg2 hE hym hk
            obtain ⟨i,hi,rfl⟩ := ih n (by simp) hq hn
            refine ⟨m.toNat + i,?_,?_⟩
            · rw [hE.add hkm hi]
              push_cast
              rw [Int.toNat_of_nonneg hm]
            · rw [Interp.shl,if_pos hm,pow_add,mul_comm]
          · cases h
        · cases h
      · cases h
    · cases h

theorem matchListExtraction_ok {α : Type} {matchF : Term ADT Field Fun → Res α} {es rest : List (Term ADT Field Fun)} {c : α}
    {e : Term ADT Field Fun} (h : matchListExtraction matchF es = .ok (c,e,rest)) :
    matchF e = .ok c ∧ ∃ l₁ l₂, es = l₁ ++ e :: l₂ ∧ rest = l₁ ++ l₂ := by
  have haux : ∀ (es rs : List (Term ADT Field Fun)), matchListExtractionAux matchF rs es = .ok (c,e,rest) →
      matchF e = .ok c ∧ ∃ l₁ l₂, es = l₁ ++ e :: l₂ ∧ rest = rs.reverse ++ l₁ ++ l₂ := by
    intro es
    induction es with
    | nil =>
      intro rs h
      cases h
    | cons t es ih =>
      intro rs h
      simp only [matchListExtractionAux,handle_ok,bind_ok] at h
      rcases h with ⟨k,hk,h⟩ | ⟨_,h⟩
      · obtain ⟨rfl,rfl,rfl⟩ : k = c ∧ t = e ∧ rs.reverse ++ es = rest := by simpa [pure,Except.pure] using h
        exact ⟨hk,[],es,rfl,by simp⟩
      · obtain ⟨he,l₁,l₂,rfl,rfl⟩ := ih (t :: rs) h
        exact ⟨he,t :: l₁,l₂,rfl,by simp⟩
  simpa using haux es [] h

end Terms
end FramaC.Cint
