import FramaC.Cint.Folders
import FramaC.Cint.LeftShift

/-! # Comparisons of bitwise operations

An equality with a conjunction, a disjunction, an exclusive disjunction or a negation is moved to the other side, or becomes
tests of bits where a power of two is one of the operands.
-/
set_option linter.unusedSectionVars false
namespace FramaC.Cint
open Qed Integer Bits
variable {ADT Field Fun : Type} [DecidableEq ADT] [DecidableEq Field] [DecidableEq Fun] [FunSymbol Fun]

section Rules
variable (S : Cbits Fun) (E : Build ADT Field Fun)

def bitkPositive (k e : Term ADT Field Fun) : Term ADT Field Fun := E.eFun S.bitPositive [e,k]

def introductionBitTestPositive (es : List (Term ADT Field Fun)) (b : Term ADT Field Fun) : Res (Term ADT Field Fun) := do
  let (k,_,es) ← matchPower2Extraction S E es
  let es' := es.map (bitkPositive S E k)
  if b = eZero then return E.eNot (E.eAnd es')
  else
    handle
      (do
        let k' ← matchPower2 S E b
        return E.eAnd (E.eEq k k' :: es'))
      (do
        let bs ← matchFun S.land b
        let (k',_,bs) ← matchPower2Extraction S E bs
        let bs' := bs.map (bitkPositive S E k')
        match isTrue (E.eEq k k') with
        | some true => return E.eEq (E.eAnd es') (E.eAnd bs')
        | some false => return E.eAnd [E.eNot (E.eAnd es'),E.eNot (E.eAnd bs')]
        | none => .error .notFound)

def smpLeqWithLand (a b : Term ADT Field Fun) : Res (Term ADT Field Fun) := do
  let es ← matchFun S.land a
  let (a1,_) ← matchListHead matchPositiveOrNullInteger es
  if isTrue (E.eLeq (eZint a1) b) = some true then return eTrue else .error .notFound

def smpEqWithLand (a b : Term ADT Field Fun) : Res (Term ADT Field Fun) := do
  let es ← matchFun S.land a
  handle
    (do
      let b1 ← matchInteger b
      handle
        (do
          let (a2,_) ← matchIntegerExtraction es
          if logand b1 (lognot a2) = 0 then .error .notFound else return eFalse)
        (if b = eMinusOne then return E.eAnd (es.map (E.eEq b)) else .error .notFound))
    (introductionBitTestPositive S E es b)

def smpEqWithLor (a b : Term ADT Field Fun) : Res (Term ADT Field Fun) := do
  let b1 ← matchInteger b
  let es ← matchFun S.lor a
  handle
    (do
      let (a2,es) ← matchIntegerExtraction es
      let k1 := logxor b1 a2
      let k2 := lognot a2
      return E.eEq (eZint k1) (E.eFun S.land (eZint k2 :: es)))
    (if b = eZero then return E.eAnd (es.map (E.eEq b)) else .error .notFound)

def smpEqWithLxor (a b : Term ADT Field Fun) : Res (Term ADT Field Fun) := do
  let b1 ← matchInteger b
  let es ← matchFun S.lxor a
  handle
    (do
      let (a2,es) ← matchIntegerExtraction es
      let k1 := logxor b1 a2
      return E.eEq (eZint k1) (E.eFun S.lxor es))
    (if b = eZero then
      match es with
      | [e1,e2] => return E.eEq e1 e2
      | e1 :: e2 :: e22 => return E.eEq e1 (E.eFun S.lxor (e2 :: e22))
      | _ => .error .notFound
    else if b = eMinusOne then
      match es with
      | [e1,e2] => return E.eEq e1 (E.eFun S.lnot [e2])
      | e1 :: e2 :: e22 => return E.eEq e1 (E.eFun S.lnot [E.eFun S.lxor (e2 :: e22)])
      | _ => .error .notFound
    else .error .notFound)

def smpEqWithLnot (a b : Term ADT Field Fun) : Res (Term ADT Field Fun) := do
  let b1 ← matchInteger b
  let e ← matchUfun S.lnot a
  return E.eEq (eZint (lognot b1)) e

end Rules

section Numbers

theorem landAll_cons (x : ℤ) (xs : List ℤ) : landAll (x :: xs) = Int.land x (landAll xs) := rfl
theorem lorAll_cons (x : ℤ) (xs : List ℤ) : lorAll (x :: xs) = Int.lor x (lorAll xs) := rfl
theorem lxorAll_cons (x : ℤ) (xs : List ℤ) : lxorAll (x :: xs) = Int.xor x (lxorAll xs) := rfl

theorem landAll_extract (x : ℤ) (l₁ l₂ : List ℤ) : landAll (l₁ ++ x :: l₂) = Int.land x (landAll (l₁ ++ l₂)) :=
  eq_of_testBit fun i => by
    simp only [← landAll_cons,landAll_testBit,List.all_append,List.all_cons]
    rw [Bool.and_left_comm]

theorem landAll_eq_neg_one_iff {xs : List ℤ} : landAll xs = -1 ↔ ∀ x ∈ xs, x = -1 := by
  induction xs with
  | nil => simp [landAll]
  | cons x xs ih =>
    rw [List.forall_mem_cons,← ih,landAll_cons]
    constructor
    · intro h
      have hbit : ∀ i, (x.testBit i && (landAll xs).testBit i) = true := fun i => by
        rw [← Int.testBit_land,h,neg_one_testBit]
      exact ⟨eq_of_testBit fun i => by rw [(Bool.and_eq_true_iff.mp (hbit i)).1,neg_one_testBit],
        eq_of_testBit fun i => by rw [(Bool.and_eq_true_iff.mp (hbit i)).2,neg_one_testBit]⟩
    · rintro ⟨rfl,h⟩
      rw [h,land_neg_one]

theorem lorAll_eq_zero_iff {xs : List ℤ} : lorAll xs = 0 ↔ ∀ x ∈ xs, x = 0 := by
  induction xs with
  | nil => simp [lorAll]
  | cons x xs ih =>
    rw [List.forall_mem_cons,← ih,lorAll_cons]
    constructor
    · intro h
      have hbit : ∀ i, (x.testBit i || (lorAll xs).testBit i) = false := fun i => by
        rw [← Int.testBit_lor,h,zero_testBit]
      exact ⟨eq_of_testBit fun i => by rw [(Bool.or_eq_false_iff.mp (hbit i)).1,zero_testBit],
        eq_of_testBit fun i => by rw [(Bool.or_eq_false_iff.mp (hbit i)).2,zero_testBit]⟩
    · rintro ⟨rfl,h⟩
      rw [h]
      exact eq_of_testBit fun i => by simp [Int.testBit_lor]

theorem xor_eq_iff {x y z : ℤ} : z = Int.xor x y ↔ Int.xor z x = y := by
  have hbits : ∀ a b c : Bool, a = (b ^^ c) ↔ (a ^^ b) = c := by decide
  constructor
  · intro h
    refine eq_of_testBit fun i => ?_
    rw [Int.testBit_lxor]
    exact (hbits _ _ _).mp (by rw [h,Int.testBit_lxor])
  · intro h
    refine eq_of_testBit fun i => ?_
    rw [Int.testBit_lxor]
    exact (hbits _ _ _).mpr (by rw [← Int.testBit_lxor,h])

theorem eq_lor_iff {x y z : ℤ} : z = Int.lor x y ↔ Int.xor z x = Int.land (Int.lnot x) y := by
  have hbits : ∀ a b c : Bool, a = (b || c) ↔ (a ^^ b) = (!b && c) := by decide
  constructor
  · intro h
    refine eq_of_testBit fun i => ?_
    rw [Int.testBit_lxor,Int.testBit_land,Int.testBit_lnot]
    exact (hbits _ _ _).mp (by rw [h,Int.testBit_lor])
  · intro h
    refine eq_of_testBit fun i => ?_
    rw [Int.testBit_lor]
    refine (hbits _ _ _).mpr ?_
    rw [← Int.testBit_lxor,h,Int.testBit_land,Int.testBit_lnot]

theorem land_le_left {c x : ℤ} (hc : 0 ≤ c) : Int.land c x ≤ c := by
  obtain ⟨m,rfl⟩ := Int.eq_ofNat_of_zero_le hc
  cases x with
  | ofNat n => exact Int.ofNat_le.mpr Nat.and_le_left
  | negSucc n =>
    have hdiff : Nat.ldiff m n &&& m = Nat.ldiff m n := Nat.eq_of_testBit_eq fun i => by
      rw [Nat.testBit_and,Nat.testBit_ldiff]
      cases m.testBit i <;> simp
    exact Int.ofNat_le.mpr (hdiff ▸ Nat.and_le_right)

theorem two_pow_land_eq_zero_iff {n : ℕ} {x : ℤ} : Int.land (2 ^ n) x = 0 ↔ x.testBit n = false := by
  rw [land_two_pow_left]
  cases x.testBit n <;> simp

theorem two_pow_land_eq_iff {n m : ℕ} {x y : ℤ} : Int.land (2 ^ n) x = Int.land (2 ^ m) y ↔
    if n = m then x.testBit n = y.testBit m else x.testBit n = false ∧ y.testBit m = false := by
  have hpow : (2 : ℤ) ^ n = 2 ^ m ↔ n = m := pow_right_inj₀ (by omega) (by omega)
  have hn : (2 : ℤ) ^ n ≠ 0 := by positivity
  have hm : (2 : ℤ) ^ m ≠ 0 := by positivity
  rw [land_two_pow_left,land_two_pow_left]
  by_cases h : n = m
  · rw [if_pos h]
    cases x.testBit n <;> cases y.testBit m <;> simp [h,hm.symm]
  · rw [if_neg h]
    cases x.testBit n <;> cases y.testBit m <;> simp [hpow,h,hn,hm.symm]

theorem two_pow_land_eq_two_pow_iff {n m : ℕ} {x : ℤ} : Int.land (2 ^ n) x = 2 ^ m ↔ n = m ∧ x.testBit n = true := by
  have h := two_pow_land_eq_iff (n := n) (m := m) (x := x) (y := -1)
  rw [land_neg_one,neg_one_testBit] at h
  rw [h]
  split <;> simp [*]

end Numbers

section Soundness
variable {S : Cbits Fun} {E : Build ADT Field Fun} {I : Interp ADT Field Fun}

theorem value_decide {t : Term ADT Field Fun} {b : Bool} {p : Prop} [Decidable p] (h : I.value S t = .prop b)
    (hp : b = true ↔ p) : I.value S t = .prop (decide p) := by
  rw [h]
  congr 1
  rw [Bool.eq_iff_iff,hp,decide_eq_true_eq]

theorem bits_bitkPositive (hE : E.Sound S I) {k : Term ADT Field Fun} {n : ℕ} (hk : I.value S k = .int n)
    {es : List (Term ADT Field Fun)} {xs : List ℤ} (h : I.Ints S es xs) :
    List.Forall₂ (fun t b => I.value S t = .prop b) (es.map (bitkPositive S E k)) (xs.map (·.testBit n)) := by
  induction h with
  | nil => exact .nil
  | cons he _ ih =>
    refine .cons ?_ ih
    have hv := value_bitPositive he hk
    rw [bitkPositive,hE.func _ _ (by simp [hv]),hv,Interp.bit,if_pos (by omega),Int.toNat_natCast]

theorem value_bits (hE : E.Sound S I) {k : Term ADT Field Fun} {n : ℕ} (hk : I.value S k = .int n)
    {es : List (Term ADT Field Fun)} {xs : List ℤ} (h : I.Ints S es xs) :
    I.value S (E.eAnd (es.map (bitkPositive S E k))) = .prop ((landAll xs).testBit n) := by
  rw [hE.and (bits_bitkPositive hE hk h),List.all_map,landAll_testBit]
  rfl

theorem ints_append_cons {l₁ l₂ : List (Term ADT Field Fun)} {e : Term ADT Field Fun} {xs : List ℤ}
    (h : I.Ints S (l₁ ++ e :: l₂) xs) :
    ∃ x ys₁ ys₂, I.value S e = .int x ∧ I.Ints S (l₁ ++ l₂) (ys₁ ++ ys₂) ∧ xs = ys₁ ++ x :: ys₂ := by
  induction l₁ generalizing xs with
  | nil =>
    obtain ⟨x,ys,hx,hys,rfl⟩ := ints_cons.mp h
    exact ⟨x,[],ys,hx,hys,rfl⟩
  | cons t l₁ ih =>
    obtain ⟨y,ys,hy,hys,rfl⟩ := ints_cons.mp h
    obtain ⟨x,ys₁,ys₂,hx,hint,rfl⟩ := ih hys
    exact ⟨x,y :: ys₁,ys₂,hx,.cons hy hint,rfl⟩

theorem value_extraction (hE : E.Sound S I) {es rest : List (Term ADT Field Fun)} {k e : Term ADT Field Fun} {xs : List ℤ}
    (h : matchPower2Extraction S E es = .ok (k,e,rest)) (hxs : I.Ints S es xs) :
    ∃ (n : ℕ) (ys : List ℤ), I.value S k = .int n ∧ I.Ints S rest ys ∧ landAll xs = Int.land (2 ^ n) (landAll ys) := by
  obtain ⟨hk,l₁,l₂,rfl,rfl⟩ := matchListExtraction_ok h
  obtain ⟨x,ys₁,ys₂,hx,hys,rfl⟩ := ints_append_cons hxs
  obtain ⟨n,hn,rfl⟩ := matchPower2_ok hE e hk hx
  exact ⟨n,ys₁ ++ ys₂,hn,hys,landAll_extract ..⟩

theorem introductionBitTestPositive_sound (hE : E.Sound S I) {es : List (Term ADT Field Fun)} {b f : Term ADT Field Fun}
    {xs : List ℤ} {y : ℤ} (hxs : I.Ints S es xs) (hb : I.value S b = .int y)
    (h : introductionBitTestPositive S E es b = .ok f) : I.value S f = .prop (landAll xs = y) := by
  simp only [introductionBitTestPositive,bind_ok,Prod.exists] at h
  obtain ⟨k,e,rest,hextract,h⟩ := h
  obtain ⟨n,ys,hk,hys,hland⟩ := value_extraction hE hextract hxs
  have hbits := value_bits hE hk hys
  rw [hland]
  split at h
  · next hb0 =>
    subst hb0
    obtain rfl := Except.ok.inj h
    rw [value_eZero] at hb
    obtain rfl := Value.int.inj hb
    refine value_decide (hE.not hbits) ?_
    rw [two_pow_land_eq_zero_iff,Bool.not_eq_true']
  simp only [handle_ok,bind_ok,Prod.exists] at h
  rcases h with ⟨k',hk',h⟩ | ⟨_,bs,hbs,k',e',rest',hextract',h⟩
  · obtain rfl := Except.ok.inj h
    obtain ⟨m,hm,rfl⟩ := matchPower2_ok hE b hk' hb
    refine value_decide (hE.and (.cons (hE.eq_int hk hm) (bits_bitkPositive hE hk hys))) ?_
    rw [two_pow_land_eq_two_pow_iff,landAll_testBit,List.all_cons,List.all_map]
    simp
  · obtain rfl := matchFun_ok.mp hbs
    obtain ⟨zs,hzs,rfl⟩ := value_land.mp hb
    obtain ⟨m,ws,hm,hws,hland'⟩ := value_extraction hE hextract' hzs
    have hbits' := value_bits hE hm hws
    have hkm := hE.eq_int hk hm
    rw [hland']
    split at h
    · next htrue =>
      obtain rfl := Except.ok.inj h
      have heq : n = m := by simpa using (value_of_isTrue htrue).symm.trans hkm
      refine value_decide (hE.eq_prop hbits hbits') ?_
      rw [two_pow_land_eq_iff,if_pos heq,beq_iff_eq]
    · next hfalse =>
      obtain rfl := Except.ok.inj h
      have hne : n ≠ m := by simpa using (value_of_isTrue hfalse).symm.trans hkm
      refine value_decide (hE.and (.cons (hE.not hbits) (.cons (hE.not hbits') .nil))) ?_
      rw [two_pow_land_eq_iff,if_neg hne]
      simp
    · cases h

theorem smpLeqWithLand_sound (hE : E.Sound S I) {a b f : Term ADT Field Fun} {x y : ℤ} (ha : I.value S a = .int x)
    (hb : I.value S b = .int y) (h : smpLeqWithLand S E a b = .ok f) : I.value S f = .prop (x ≤ y) := by
  simp only [smpLeqWithLand,bind_ok,Prod.exists] at h
  obtain ⟨es,hes,a1,rest,hhead,h⟩ := h
  obtain rfl := matchFun_ok.mp hes
  obtain ⟨e,rfl,he⟩ := matchListHead_ok.mp hhead
  obtain ⟨h0,us,rfl⟩ := matchPositiveOrNullInteger_ok.mp he
  split at h
  · next htrue =>
    obtain rfl := Except.ok.inj h
    obtain ⟨xs,hxs,rfl⟩ := value_land.mp ha
    obtain ⟨ys,_,rfl⟩ := ints_kint_cons.mp hxs
    have hle : a1 ≤ y := by simpa using ((hE.leq (value_eZint ..) hb).symm.trans (value_of_isTrue htrue))
    rw [value_eTrue,landAll_cons,decide_eq_true ((land_le_left h0).trans hle)]
  · cases h

theorem value_all_eq (hE : E.Sound S I) {b : Term ADT Field Fun} {y : ℤ} (hb : I.value S b = .int y)
    {es : List (Term ADT Field Fun)} {xs : List ℤ} (h : I.Ints S es xs) :
    I.value S (E.eAnd (es.map (E.eEq b))) = .prop (∀ x ∈ xs, x = y) := by
  have hall : List.Forall₂ (fun t b => I.value S t = .prop b) (es.map (E.eEq b)) (xs.map fun x => decide (y = x)) := by
    induction h with
    | nil => exact .nil
    | cons he _ ih => exact .cons (hE.eq_int hb he) ih
  refine value_decide (hE.and hall) ?_
  rw [List.all_map,List.all_eq_true]
  simp [eq_comm]

theorem smpEqWithLand_sound (hE : E.Sound S I) {a b f : Term ADT Field Fun} {x y : ℤ} (ha : I.value S a = .int x)
    (hb : I.value S b = .int y) (h : smpEqWithLand S E a b = .ok f) : I.value S f = .prop (x = y) := by
  simp only [smpEqWithLand,handle_ok,bind_ok,Prod.exists] at h
  obtain ⟨es,hes,h⟩ := h
  obtain rfl := matchFun_ok.mp hes
  obtain ⟨xs,hxs,rfl⟩ := value_land.mp ha
  rcases h with ⟨b1,hb1,⟨a2,rest,hextract,h⟩ | ⟨_,h⟩⟩ | ⟨_,h⟩
  · obtain ⟨us,rfl⟩ := matchInteger_ok.mp hb1
    obtain ⟨e,rfl,he⟩ := matchListHead_ok.mp hextract
    obtain ⟨vs,rfl⟩ := matchInteger_ok.mp he
    obtain ⟨ys,_,rfl⟩ := ints_kint_cons.mp hxs
    rw [value_kint] at hb
    obtain rfl := Value.int.inj hb
    split at h
    · cases h
    · next hmask =>
      obtain rfl := Except.ok.inj h
      -- a bit outside the mask is not in the conjunction
      have hne : landAll (a2 :: ys) ≠ b1 := by
        rintro rfl
        refine hmask (eq_of_testBit fun i => ?_)
        rw [landAll_cons,logand,lognot,Int.testBit_land,Int.testBit_land,Int.testBit_lnot,zero_testBit]
        cases a2.testBit i <;> simp
      rw [value_eFalse,decide_eq_false hne]
  · obtain ⟨us,rfl⟩ := matchInteger_ok.mp hb1
    split at h
    · next hb0 =>
      obtain rfl := Except.ok.inj h
      rw [hb0,value_eMinusOne] at hb
      obtain rfl := Value.int.inj hb
      rw [hb0,value_all_eq hE (value_eMinusOne S I) hxs]
      simp only [landAll_eq_neg_one_iff]
    · cases h
  · exact introductionBitTestPositive_sound hE hxs hb h

theorem value_lxor_pair (hE : E.Sound S I) {e1 e2 : Term ADT Field Fun} {e22 : List (Term ADT Field Fun)} {xs : List ℤ}
    (h : I.Ints S (e1 :: e2 :: e22) xs) : ∃ x w, lxorAll xs = Int.xor x w ∧ I.value S e1 = .int x ∧
      (e22 = [] → I.value S e2 = .int w) ∧ I.value S (E.eFun S.lxor (e2 :: e22)) = .int w := by
  obtain ⟨x,ys,hx,hys,rfl⟩ := ints_cons.mp h
  refine ⟨x,lxorAll ys,rfl,hx,?_,hE.func_int (value_lxor.mpr ⟨ys,hys,rfl⟩)⟩
  rintro rfl
  obtain ⟨w,zs,hw,hzs,rfl⟩ := ints_cons.mp hys
  obtain rfl := List.forall₂_nil_left_iff.mp hzs
  rw [hw,(combines_lxor S I).singleton]

theorem value_eFun_lnot (hE : E.Sound S I) {t : Term ADT Field Fun} {w : ℤ} (h : I.value S t = .int w) :
    I.value S (E.eFun S.lnot [t]) = .int (Int.lnot w) := hE.func_int (value_lnot.mpr ⟨w,.cons h .nil,rfl⟩)

theorem xor_eq_zero_iff {x w : ℤ} : Int.xor x w = 0 ↔ x = w := by
  have hzero : Int.xor 0 x = x := eq_of_testBit fun i => by rw [Int.testBit_lxor,zero_testBit,Bool.false_xor]
  rw [eq_comm,xor_eq_iff,hzero]

theorem xor_eq_neg_one_iff {x w : ℤ} : Int.xor x w = -1 ↔ x = Int.lnot w := by
  have hnot : Int.xor (-1) w = Int.lnot w := eq_of_testBit fun i => by
    rw [Int.testBit_lxor,neg_one_testBit,Bool.true_xor,Int.testBit_lnot]
  have hcomm : Int.xor x w = Int.xor w x := eq_of_testBit fun i => by
    rw [Int.testBit_lxor,Int.testBit_lxor,Bool.xor_comm]
  rw [hcomm,eq_comm,xor_eq_iff,hnot,eq_comm]

theorem smpEqWithLxor_sound (hE : E.Sound S I) {a b f : Term ADT Field Fun} {x y : ℤ} (ha : I.value S a = .int x)
    (hb : I.value S b = .int y) (h : smpEqWithLxor S E a b = .ok f) : I.value S f = .prop (x = y) := by
  simp only [smpEqWithLxor,handle_ok,bind_ok,Prod.exists] at h
  obtain ⟨b1,hb1,es,hes,h⟩ := h
  obtain ⟨us,rfl⟩ := matchInteger_ok.mp hb1
  obtain rfl := matchFun_ok.mp hes
  obtain ⟨xs,hxs,rfl⟩ := value_lxor.mp ha
  rcases h with ⟨a2,rest,hextract,h⟩ | ⟨_,h⟩
  · rw [value_kint] at hb
    obtain rfl := Value.int.inj hb
    obtain ⟨e,rfl,he⟩ := matchListHead_ok.mp hextract
    obtain ⟨vs,rfl⟩ := matchInteger_ok.mp he
    obtain ⟨ys,hys,rfl⟩ := ints_kint_cons.mp hxs
    obtain rfl := Except.ok.inj h
    refine value_decide (hE.eq_int (value_eZint ..) (hE.func_int (value_lxor.mpr ⟨ys,hys,rfl⟩))) ?_
    rw [decide_eq_true_eq,lxorAll_cons,eq_comm (b := b1),xor_eq_iff]
    rfl
  split at h
  · next hb0 =>
    rw [hb0,value_eZero] at hb
    obtain rfl := Value.int.inj hb
    split at h
    · next e1 e2 =>
      obtain rfl := Except.ok.inj h
      obtain ⟨x,w,hxor,hx,hw,_⟩ := value_lxor_pair hE hxs
      refine value_decide (hE.eq_int hx (hw rfl)) ?_
      rw [decide_eq_true_eq,hxor,xor_eq_zero_iff]
    · next e1 e2 e22 _ =>
      obtain rfl := Except.ok.inj h
      obtain ⟨x,w,hxor,hx,_,hw⟩ := value_lxor_pair hE hxs
      refine value_decide (hE.eq_int hx hw) ?_
      rw [decide_eq_true_eq,hxor,xor_eq_zero_iff]
    · cases h
  split at h
  · next hb1 =>
    rw [hb1,value_eMinusOne] at hb
    obtain rfl := Value.int.inj hb
    split at h
    · next e1 e2 =>
      obtain rfl := Except.ok.inj h
      obtain ⟨x,w,hxor,hx,hw,_⟩ := value_lxor_pair hE hxs
      refine value_decide (hE.eq_int hx (value_eFun_lnot hE (hw rfl))) ?_
      rw [decide_eq_true_eq,hxor,xor_eq_neg_one_iff]
    · next e1 e2 e22 _ =>
      obtain rfl := Except.ok.inj h
      obtain ⟨x,w,hxor,hx,_,hw⟩ := value_lxor_pair hE hxs
      refine value_decide (hE.eq_int hx (value_eFun_lnot hE hw)) ?_
      rw [decide_eq_true_eq,hxor,xor_eq_neg_one_iff]
    · cases h
  · cases h

theorem smpEqWithLnot_sound (hE : E.Sound S I) {a b f : Term ADT Field Fun} {x y : ℤ} (ha : I.value S a = .int x)
    (hb : I.value S b = .int y) (h : smpEqWithLnot S E a b = .ok f) : I.value S f = .prop (x = y) := by
  simp only [smpEqWithLnot,bind_ok] at h
  obtain ⟨b1,hb1,e,he,h⟩ := h
  obtain ⟨us,rfl⟩ := matchInteger_ok.mp hb1
  obtain rfl := matchUfun_ok.mp he
  obtain rfl := Except.ok.inj h
  rw [value_kint] at hb
  obtain rfl := Value.int.inj hb
  obtain ⟨w,hw,rfl⟩ := value_lnot.mp ha
  obtain ⟨_,_,hw,hnil,he⟩ := ints_cons.mp hw
  obtain ⟨rfl,_⟩ := List.cons.inj he
  refine value_decide (hE.eq_int (value_eZint ..) hw) ?_
  rw [decide_eq_true_eq,lognot,lnot_eq,lnot_eq]
  omega

/-- The other operands of a disjunction with a constant agree outside the bits of the constant, or what remains of the number
there is neither their conjunction nor their disjunction. -/
def EqWithLorRight (S : Cbits Fun) (I : Interp ADT Field Fun) (a b : Term ADT Field Fun) : Prop :=
  ∀ c ts es xs y, a = .node (.func S.lor) (.node (.kint c) ts :: es) → I.Ints S es xs → I.value S b = .int y →
    Int.land (Int.lnot c) (landAll xs) = Int.land (Int.lnot c) (lorAll xs) ∨
      Int.xor y c ≠ Int.land (Int.lnot c) (landAll xs) ∧ Int.xor y c ≠ Int.land (Int.lnot c) (lorAll xs)

theorem Interp.Ints.unique {es : List (Term ADT Field Fun)} {xs ys : List ℤ} (h : I.Ints S es xs) (h' : I.Ints S es ys) :
    xs = ys := by
  have hmap := (map_eq_ints.mpr h).symm.trans (map_eq_ints.mpr h')
  exact List.map_injective_iff.mpr (fun _ _ => Value.int.inj) hmap

theorem eq_iff_eq_iff {t p q : ℤ} : (t = p ↔ t = q) ↔ p = q ∨ t ≠ p ∧ t ≠ q := by
  constructor
  · intro h
    by_cases heq : t = p
    · exact .inl (heq.symm.trans (h.mp heq))
    · exact .inr ⟨heq,fun h' => heq (h.mpr h')⟩
  · rintro (rfl | ⟨h1,h2⟩)
    · rfl
    · exact iff_of_false h1 h2

theorem smpEqWithLor_iff (hE : E.Sound S I) {a b f : Term ADT Field Fun} {x y : ℤ} (ha : I.value S a = .int x)
    (hb : I.value S b = .int y) (h : smpEqWithLor S E a b = .ok f) :
    I.value S f = .prop (x = y) ↔ EqWithLorRight S I a b := by
  simp only [smpEqWithLor,handle_ok,bind_ok,Prod.exists] at h
  obtain ⟨b1,hb1,es,hes,h⟩ := h
  obtain ⟨us,rfl⟩ := matchInteger_ok.mp hb1
  obtain rfl := matchFun_ok.mp hes
  obtain ⟨xs,hxs,rfl⟩ := value_lor.mp ha
  rcases h with ⟨a2,rest,hextract,h⟩ | ⟨hfail,h⟩
  · obtain ⟨e,rfl,he⟩ := matchListHead_ok.mp hextract
    obtain ⟨vs,rfl⟩ := matchInteger_ok.mp he
    obtain ⟨ys,hys,rfl⟩ := ints_kint_cons.mp hxs
    obtain rfl := Except.ok.inj h
    have hland : I.value S (E.eFun S.land (eZint (lognot a2) :: rest)) = .int (Int.land (Int.lnot a2) (landAll ys)) :=
      hE.func_int (value_land.mpr ⟨_,.cons (value_eZint ..) hys,rfl⟩)
    rw [hE.eq_int (value_eZint ..) hland,Value.prop.injEq,decide_eq_decide,lorAll_cons,eq_comm (b := y),eq_lor_iff]
    rw [value_kint] at hb
    obtain rfl := Value.int.inj hb
    have hright : EqWithLorRight S I (.node (.func S.lor) (.node (.kint a2) vs :: rest)) (.node (.kint b1) us) ↔
        (Int.land (Int.lnot a2) (landAll ys) = Int.land (Int.lnot a2) (lorAll ys) ∨
          Int.xor b1 a2 ≠ Int.land (Int.lnot a2) (landAll ys) ∧ Int.xor b1 a2 ≠ Int.land (Int.lnot a2) (lorAll ys)) := by
      constructor
      · intro h
        exact h a2 vs rest ys b1 rfl hys (value_kint ..)
      · intro h c ts es zs y ha' hzs hb'
        obtain ⟨⟨rfl,rfl⟩,rfl⟩ : (a2 = c ∧ vs = ts) ∧ rest = es := by simpa using ha'
        rw [value_kint] at hb'
        obtain rfl := Value.int.inj hb'
        obtain rfl := hys.unique hzs
        exact h
    rw [hright]
    exact eq_iff_eq_iff
  · split at h
    · next hb0 =>
      obtain rfl := Except.ok.inj h
      rw [hb0,value_eZero] at hb
      obtain rfl := Value.int.inj hb
      rw [hb0]
      refine iff_of_true ?_ ?_
      · rw [value_all_eq hE (value_eZero S I) hxs]
        simp only [lorAll_eq_zero_iff]
      · intro c ts es' ys y ha' _ _
        obtain ⟨_,rfl⟩ : True ∧ es = .node (.kint c) ts :: es' := by simpa using ha'
        exact absurd hfail (by simp [matchIntegerExtraction,matchListHead,matchInteger,bind,Except.bind,pure,Except.pure])
    · cases h

end Soundness

section Examples

def oneOrTwo : Term Empty Empty Symbol := .node (.func .lor) [eZint 1,freeVariable 0,freeVariable 1]

/-- What an equality of `oneOrTwo` and 3 becomes. -/
def oneOrTwoEq : Term Empty Empty Symbol :=
  .node .eq [eZint 2,.node (.func .land) [eZint (-2),freeVariable 0,freeVariable 1]]

theorem value_oneOrTwo (ρ : ℤ → ℤ) :
    (Interp.ofVariables ρ).value cbits oneOrTwo = .int (lorAll [1,ρ 0,ρ 1]) :=
  value_lor.mpr ⟨[1,ρ 0,ρ 1],.cons rfl (.cons rfl (.cons rfl .nil)),rfl⟩

end Examples
end FramaC.Cint
