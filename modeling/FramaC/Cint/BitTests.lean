import FramaC.Cint.Conversions

/-! # Tests of one bit

A test of a bit is pushed through shifts, bitwise operations and conversions. The conversion to an unsigned type keeps its low
bits, but that to the type of one bit is not modular.
-/
set_option linter.unusedSectionVars false
namespace FramaC.Cint
open Qed Integer Bits
variable {ADT Field Fun : Type} [DecidableEq Fun] [FunSymbol Fun]

variable (ADT Field Fun) in
/-- The constructors of `Lang.F` that the tests use. -/
structure BitBuild extends Build ADT Field Fun where
  eOr : List (Term ADT Field Fun) → Term ADT Field Fun
  eNeq : Term ADT Field Fun → Term ADT Field Fun → Term ADT Field Fun
  eSub : Term ADT Field Fun → Term ADT Field Fun → Term ADT Field Fun

section Rules
variable (S : Symbols Fun) (E : BitBuild ADT Field Fun)

def smpBitInteger (za : ℤ) (k : Term ADT Field Fun) : Res (Term ADT Field Fun) := do
  let zk ← matchInteger k
  return if logand za (← shiftLeft 1 zk) = 0 then eFalse else eTrue

def smpBitShiftLeft (e n k : Term ADT Field Fun) : Res (Term ADT Field Fun) :=
  match isTrue (E.eLeq n k) with
  | some true => .ok (bitkPositive S.toCbits E.toBuild (E.eSub k n) e)
  | some false => .ok eFalse
  | none => .error .notFound

def smpBitConversion (conv : Fun) (a k : Term ADT Field Fun) : Res (Term ADT Field Fun) := do
  let iota ← toCint S conv
  let range := iota.iBits
  if iota.signed then
    -- the sign bit is not the bit of the operand
    match isTrue (E.eLeq k (eZint (range - 2))) with
    | some true => return bitkPositive S.toCbits E.toBuild k a
    | _ => .error .notFound
  else
    match isTrue (E.eLeq (eZint range) k) with
    | some true => return eFalse
    | some false => return bitkPositive S.toCbits E.toBuild k a
    | none => .error .notFound

def smpBitFun (f : Fun) (es : List (Term ADT Field Fun)) (k : Term ADT Field Fun) : Res (Term ADT Field Fun) :=
  if f = S.land then .ok (E.eAnd (es.map (bitkPositive S.toCbits E.toBuild k)))
  else if f = S.lor then .ok (E.eOr (es.map (bitkPositive S.toCbits E.toBuild k)))
  else
    match es with
    | [e,n] =>
      if f = S.lsr ∧ isPositiveOrNull S.toCbits E.toBuild n then .ok (bitkPositive S.toCbits E.toBuild (E.eAdd k n) e)
      else if f = S.lsl ∧ isPositiveOrNull S.toCbits E.toBuild n then smpBitShiftLeft S E e n k
      else if f = S.lxor then
        .ok (E.eNeq (bitkPositive S.toCbits E.toBuild k e) (bitkPositive S.toCbits E.toBuild k n))
      else .error .notFound
    | [a] => if f = S.lnot then .ok (E.eNot (bitkPositive S.toCbits E.toBuild k a)) else smpBitConversion S E f a k
    | _ => .error .notFound

def smpBitkPositive : List (Term ADT Field Fun) → Res (Term ADT Field Fun)
  | [a,k] =>
    handle (do return E.eEq (← matchPower2 S.toCbits E.toBuild a) k)
      (match a with
      | .node (.kint za) _ => smpBitInteger za k
      | .node (.func f) es => smpBitFun S E f es k
      | _ => .error .notFound)
  | _ => .error .notFound

end Rules

section Soundness

structure BitBuild.Sound (E : BitBuild ADT Field Fun) (S : Cbits Fun) (I : Interp ADT Field Fun) : Prop extends
    E.toBuild.Sound S I where
  or : ∀ {ts : List (Term ADT Field Fun)} {bs : List Bool}, List.Forall₂ (fun t b => I.value S t = .prop b) ts bs →
    I.value S (E.eOr ts) = .prop (bs.any id)
  neq_prop : ∀ {a b : Term ADT Field Fun} {p q : Bool}, I.value S a = .prop p → I.value S b = .prop q →
    I.value S (E.eNeq a b) = .prop (p != q)
  sub : ∀ {a b : Term ADT Field Fun} {x y : ℤ}, I.value S a = .int x → I.value S b = .int y →
    I.value S (E.eSub a b) = .int (x - y)

variable (ADT Field) in
/-- The constructors that simplify nothing but inequalities of constants. -/
def BitBuild.free (S : Cbits Fun) : BitBuild ADT Field Fun where
  toBuild := Build.free ADT Field Fun
  eOr ts := .node .not [.node .and (ts.map fun t => .node .not [t])]
  eNeq a b := .node .not [.node .eq [a,b]]
  eSub a b := .node .add [a,.node (.func S.lnot) [b],eZint 1]

theorem BitBuild.free_sound (S : Cbits Fun) (I : Interp ADT Field Fun) : (BitBuild.free ADT Field S).Sound S I where
  toSound := Build.free_sound S I
  or {ts bs} h := by
    have hnot : List.Forall₂ (fun t b => I.value S t = .prop b) (ts.map fun t => .node .not [t]) (bs.map (!·)) := by
      induction h with
      | nil => exact .nil
      | cons ht _ ih => exact .cons ((Build.free_sound S I).not ht) ih
    refine ((Build.free_sound S I).not ((Build.free_sound S I).and hnot)).trans (congrArg Value.prop ?_)
    rw [List.all_map,List.not_all_eq_any_not]
    exact congrArg bs.any (funext Bool.not_not)
  neq_prop ha hb := (Build.free_sound S I).not ((Build.free_sound S I).eq_prop ha hb)
  sub {a b x y} ha hb := by
    have hnot := value_lnot.mpr ⟨y,.cons hb .nil,rfl⟩
    refine value_add.mpr ⟨[x,Int.lnot y,1],.cons ha (.cons hnot (.cons (value_eZint ..) .nil)),by simp,?_⟩
    rw [List.sum_cons,List.sum_cons,List.sum_singleton,lnot_eq]
    ring

variable {S : Symbols Fun} {E : BitBuild ADT Field Fun} {I : Interp ADT Field Fun} {k : Term ADT Field Fun} {n : ℕ}

theorem value_bitkPositive (hE : E.toBuild.Sound S.toCbits I) (hk : I.value S.toCbits k = .int n)
    {e : Term ADT Field Fun} {x : ℤ} (he : I.value S.toCbits e = .int x) :
    I.value S.toCbits (bitkPositive S.toCbits E.toBuild k e) = .prop (x.testBit n) := by
  have hv := value_bitPositive he hk
  rw [bitkPositive,hE.func _ _ (by simp [hv]),hv,Interp.bit,if_pos (by omega),Int.toNat_natCast]

theorem land_one_shift (x : ℤ) (n : ℕ) : Int.land x (1 * 2 ^ n) = 0 ↔ x.testBit n = false := by
  rw [one_mul,land_comm,two_pow_land_eq_zero_iff]

theorem smpBitInteger_sound (hk : I.value S.toCbits k = .int n) {x : ℤ} {f : Term ADT Field Fun}
    (h : smpBitInteger x k = .ok f) : I.value S.toCbits f = .prop (x.testBit n) := by
  simp only [smpBitInteger,bind_ok] at h
  obtain ⟨zk,hzk,m,hm,h⟩ := h
  obtain ⟨ts,rfl⟩ := matchInteger_ok.mp hzk
  obtain ⟨hz0,rfl⟩ := shiftLeft_ok hm
  rw [value_kint] at hk
  obtain rfl := Value.int.inj hk
  obtain rfl := Except.ok.inj h
  rw [Int.toNat_natCast]
  split
  · next h0 => rw [value_eFalse,(land_one_shift x n).mp h0]
  · next h0 => rw [value_eTrue,Bool.eq_true_of_not_eq_false fun hb => h0 ((land_one_shift x n).mpr hb)]

theorem testBit_mul_two_pow (x : ℤ) (m n : ℕ) : (x * 2 ^ m).testBit n = (decide (m ≤ n) && x.testBit (n - m)) := by
  rw [testBit_eq,testBit_eq]
  by_cases hmn : m ≤ n
  · obtain ⟨d,rfl⟩ := Nat.exists_eq_add_of_le hmn
    rw [pow_add,mul_comm x,Int.mul_ediv_mul_of_pos _ _ (by positivity),Nat.add_sub_cancel_left]
    simp
  · obtain ⟨d,rfl⟩ := Nat.exists_eq_add_of_lt (not_le.mp hmn)
    have hdiv : x * 2 ^ (n + d + 1) / 2 ^ n = x * 2 ^ d * 2 := by
      rw [show x * 2 ^ (n + d + 1) = 2 ^ n * (x * 2 ^ d * 2) by ring,Int.mul_ediv_cancel_left _ (by positivity)]
    rw [hdiv]
    simp [hmn]

theorem testBit_ediv_two_pow (x : ℤ) (m n : ℕ) : (x / 2 ^ m).testBit n = x.testBit (n + m) := by
  rw [testBit_eq,testBit_eq,Int.ediv_ediv_of_nonneg (by positivity),← pow_add,add_comm m]

theorem smpBitShiftLeft_sound (hE : E.Sound S.toCbits I) (hk : I.value S.toCbits k = .int n)
    {e t f : Term ADT Field Fun} {x : ℤ} {m : ℕ} (he : I.value S.toCbits e = .int x)
    (ht : I.value S.toCbits t = .int m) (h : smpBitShiftLeft S E e t k = .ok f) :
    I.value S.toCbits f = .prop ((x * 2 ^ m).testBit n) := by
  have hleq := hE.leq ht hk
  rw [testBit_mul_two_pow]
  unfold smpBitShiftLeft at h
  split at h
  · next hb =>
    obtain rfl := Except.ok.inj h
    have hmn : m ≤ n := by simpa using (value_of_isTrue hb).symm.trans hleq
    have hsub : I.value S.toCbits (E.eSub k t) = .int ((n - m : ℕ) : ℤ) := by
      rw [hE.sub hk ht]
      congr 1
      omega
    rw [value_bitkPositive hE.toSound hsub he]
    simp [hmn]
  · next hb =>
    obtain rfl := Except.ok.inj h
    have hmn : ¬ m ≤ n := by simpa using (value_of_isTrue hb).symm.trans hleq
    simp [hmn]
  · cases h

/-- The operand of a conversion to the type of one bit is 0 or odd when its bit 0 is tested. -/
def BitTestRight (S : Symbols Fun) (I : Interp ADT Field Fun) (a : Term ADT Field Fun) (n : ℕ) : Prop :=
  ∀ e y, a = .node (.func (S.fToInt .cBool)) [e] → I.value S.toCbits e = .int y → n = 0 → y = 0 ∨ y % 2 = 1

theorem bitTestRight_of_ne {f : Fun} (hf : f ≠ S.fToInt .cBool) (es : List (Term ADT Field Fun)) :
    BitTestRight S I (.node (.func f) es) n := by
  intro e y h
  simp only [Rose.node.injEq,Repr.func.injEq] at h
  exact absurd h.1 hf

theorem wrap_testBit_low {i : CInt} (hi : i ≠ .cBool) (y : ℤ) (hn : n < i.iBits.toNat) :
    (i.wrap y).testBit n = y.testBit n :=
  testBit_of_emod_eq (CInt.wrap_emod hi le_rfl y) hn

theorem testBit_wrap_cBool (y : ℤ) : (CInt.cBool.wrap y).testBit 0 = y.testBit 0 ↔ y = 0 ∨ y % 2 = 1 := by
  rw [testBit_eq,testBit_eq,CInt.wrap,if_pos rfl,decide_eq_decide]
  split <;> simp <;> omega

theorem smpBitConversion_iff (hE : E.Sound S.toCbits I) (hM : I.Machine S) (hk : I.value S.toCbits k = .int n)
    {conv : Fun} {a f : Term ADT Field Fun} {x : ℤ} (ha : I.value S.toCbits (.node (.func conv) [a]) = .int x)
    (h : smpBitConversion S E conv a k = .ok f) :
    I.value S.toCbits f = .prop (x.testBit n) ↔ BitTestRight S I (.node (.func conv) [a]) n := by
  simp only [smpBitConversion,bind_ok] at h
  obtain ⟨i,hi,h⟩ := h
  obtain rfl := toCint_ok hi
  obtain ⟨y,hy,rfl⟩ := (value_fToInt hM).mp ha
  have hay := (List.forall₂_cons.mp hy).1
  have hbit := value_bitkPositive hE.toSound hk hay
  split at h
  · next hs =>
    have hne : i ≠ .cBool := by
      rintro rfl
      cases hs
    split at h
    · next hb =>
      obtain rfl := Except.ok.inj h
      have hn : (n : ℤ) ≤ i.iBits - 2 := by
        simpa using (value_of_isTrue hb).symm.trans (hE.leq hk (value_eZint S.toCbits I (i.iBits - 2)))
      rw [hbit,wrap_testBit_low hne y (by omega)]
      exact iff_of_true rfl (bitTestRight_of_ne (S.fToInt_injective.ne hne) _)
    · cases h
  · next hs =>
    rw [Bool.not_eq_true] at hs
    have hleq := hE.leq (value_eZint S.toCbits I i.iBits) hk
    split at h
    · next hb =>
      obtain rfl := Except.ok.inj h
      have hn : i.iBits ≤ n := by simpa using (value_of_isTrue hb).symm.trans hleq
      rw [value_eFalse,(mem_unsigned_range hs).mp (i.wrap_inRange y) n (by omega)]
      refine iff_of_true rfl fun e z he hz hn0 => ?_
      have := i.iBits_pos
      omega
    · next hb =>
      obtain rfl := Except.ok.inj h
      have hn : (n : ℤ) < i.iBits := by simpa using (value_of_isTrue hb).symm.trans hleq
      rw [hbit]
      by_cases hne : i = .cBool
      · subst hne
        obtain rfl : n = 0 := by
          simp only [CInt.iBits] at hn
          omega
        rw [Value.prop.injEq,eq_comm,testBit_wrap_cBool]
        constructor
        · intro hy0 e z he hz _
          obtain rfl : a = e := by simpa using he
          rw [hay] at hz
          obtain rfl := Value.int.inj hz
          exact hy0
        · intro hr
          exact hr a y rfl hay rfl
      · rw [wrap_testBit_low hne y (by omega)]
        exact iff_of_true rfl (bitTestRight_of_ne (S.fToInt_injective.ne hne) _)
    · cases h

theorem Symbols.fToInt_ne_of_mem {f : Fun} (hf : f ∈ [S.lnot,S.lor,S.land,S.lxor,S.lsl,S.lsr,S.bitPositive]) (i : CInt) :
    f ≠ S.fToInt i := by
  rintro rfl
  exact S.fToInt_ne i hf

theorem exists_nat_value (hE : E.Sound S.toCbits I) {t : Term ADT Field Fun} {z : ℤ}
    (ht : isPositiveOrNull S.toCbits E.toBuild t = true) (hz : I.value S.toCbits t = .int z) : ∃ m : ℕ, z = m :=
  Int.eq_ofNat_of_zero_le ((signSound hE.toSound t).1 ht z hz)

theorem ints_pair {a b : Term ADT Field Fun} {x y : ℤ} :
    I.Ints S.toCbits [a,b] [x,y] ↔ I.value S.toCbits a = .int x ∧ I.value S.toCbits b = .int y := by
  simp [Interp.Ints]

variable [DecidableEq ADT] [DecidableEq Field]

theorem smpBitFun_iff (hE : E.Sound S.toCbits I) (hM : I.Machine S) (hk : I.value S.toCbits k = .int n)
    {g : Fun} {es : List (Term ADT Field Fun)} {f : Term ADT Field Fun} {x : ℤ}
    (ha : I.value S.toCbits (.node (.func g) es) = .int x) (h : smpBitFun S E g es k = .ok f) :
    I.value S.toCbits f = .prop (x.testBit n) ↔ BitTestRight S I (.node (.func g) es) n := by
  -- a symbol of the library is not a conversion
  have hlib : ∀ (p : Prop), p → g ∈ [S.lnot,S.lor,S.land,S.lxor,S.lsl,S.lsr,S.bitPositive] →
      (p ↔ BitTestRight S I (.node (.func g) es) n) :=
    fun p hp hg => iff_of_true hp (bitTestRight_of_ne (S.fToInt_ne_of_mem hg _) es)
  unfold smpBitFun at h
  split at h
  · next hg =>
    subst hg
    obtain rfl := Except.ok.inj h
    obtain ⟨xs,hxs,rfl⟩ := value_land.mp ha
    exact hlib _ (value_bits hE.toSound hk hxs) (by simp)
  split at h
  · next hg =>
    subst hg
    obtain rfl := Except.ok.inj h
    obtain ⟨xs,hxs,rfl⟩ := value_lor.mp ha
    refine hlib _ ?_ (by simp)
    rw [hE.or (bits_bitkPositive hE.toSound hk hxs),List.any_map,lorAll_testBit]
    rfl
  split at h
  · next e t =>
    split at h
    · next hg =>
      obtain ⟨rfl,ht⟩ := hg
      obtain rfl := Except.ok.inj h
      obtain ⟨y,m,hym,rfl⟩ := value_lsr.mp ha
      obtain ⟨hy,hm⟩ := (ints_pair).mp hym
      obtain ⟨m,rfl⟩ := exists_nat_value hE ht hm
      have hkm : I.value S.toCbits (E.eAdd k t) = .int ((n + m : ℕ) : ℤ) := hE.add hk hm
      refine hlib _ ?_ (by simp)
      rw [value_bitkPositive hE.toSound hkm hy,Interp.shr,if_pos (by omega),Int.toNat_natCast,testBit_ediv_two_pow]
    split at h
    · next hg =>
      obtain ⟨rfl,ht⟩ := hg
      obtain ⟨y,m,hym,rfl⟩ := value_lsl.mp ha
      obtain ⟨hy,hm⟩ := (ints_pair).mp hym
      obtain ⟨m,rfl⟩ := exists_nat_value hE ht hm
      refine hlib _ ?_ (by simp)
      rw [Interp.shl,if_pos (by omega),Int.toNat_natCast]
      exact smpBitShiftLeft_sound hE hk hy hm h
    split at h
    · next hg =>
      subst hg
      obtain rfl := Except.ok.inj h
      obtain ⟨xs,hxs,rfl⟩ := value_lxor.mp ha
      obtain ⟨y,z,rfl⟩ : ∃ y z, xs = [y,z] := List.length_eq_two.mp (hxs.length_eq ▸ rfl)
      obtain ⟨hy,hz⟩ := (ints_pair).mp hxs
      refine hlib _ ?_ (by simp)
      rw [hE.neq_prop (value_bitkPositive hE.toSound hk hy) (value_bitkPositive hE.toSound hk hz),lxorAll_testBit_cons]
      simp [lxorAll]
    · cases h
  · next a =>
    split at h
    · next hg =>
      subst hg
      obtain rfl := Except.ok.inj h
      obtain ⟨y,hy,rfl⟩ := value_lnot.mp ha
      refine hlib _ ?_ (by simp)
      rw [hE.not (value_bitkPositive hE.toSound hk (List.forall₂_cons.mp hy).1),Int.testBit_lnot]
    · exact smpBitConversion_iff hE hM hk ha h
  · cases h

end Soundness

section Examples

/-- The constructors that simplify nothing but inequalities of constants, with the conversions. -/
def machineBuild : BitBuild Empty Empty MachineSymbol := .free Empty Empty machine.toCbits

/-- What a test of bit 0 of `convertVariable .cBool` becomes. -/
def oddVariable : Term Empty Empty MachineSymbol := .node (.func (.bits .bitPositive)) [machineVariable 0,eZint 0]

end Examples
end FramaC.Cint
