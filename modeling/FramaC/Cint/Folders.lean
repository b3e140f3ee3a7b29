import FramaC.Cint.Matching

/-! # Operations on constants

The constants at the head of the operands are combined. The others stay behind the combination, unless it is absorbing, and
alone where it is neutral.
-/
set_option linter.unusedSectionVars false
namespace FramaC.Cint
open Qed Integer Bits
variable {ADT Field Fun : Type}

section Rules

def smp1 (zf : ℤ → ℤ) : List (Term ADT Field Fun) → Res (Term ADT Field Fun)
  | [.node (.kint c1) _] => .ok (eZint (zf c1))
  | _ => .error .notFound

/-- The other integers, combined with `z12`, and the terms from the first that is none. -/
def smp2Loop (zf : ℤ → ℤ → ℤ) (z12 : ℤ) : List (Term ADT Field Fun) → ℤ × List (Term ADT Field Fun)
  | .node (.kint c) _ :: r => smp2Loop zf (zf z12 c) r
  | l => (z12,l)

def smpShift [DecidableEq Fun] [FunSymbol Fun] (S : Cbits Fun) (E : Build ADT Field Fun) (zf : ℤ → ℤ → Res ℤ) :
    List (Term ADT Field Fun) → Res (Term ADT Field Fun)
  | [e1,e2] =>
    match e1.label, e2.label with
    | .kint c1, .kint c2 =>
      if c2 = 0 then .ok e1
      else if 0 ≤ c2 then do return eZint (← zf c1 c2)
      else if c1 = 0 ∧ isPositiveOrNull S E e2 then .ok e1 else .error .notFound
    | _, .kint c2 => if c2 = 0 then .ok e1 else .error .notFound
    | .kint c1, _ => if c1 = 0 ∧ isPositiveOrNull S E e2 then .ok e1 else .error .notFound
    | _, _ => .error .notFound
  | _ => .error .notFound

variable [DecidableEq Fun] [FunSymbol Fun] (S : Cbits Fun) (E : Build ADT Field Fun)

def smp2 (f : Fun) (zf : ℤ → ℤ → ℤ) : List (Term ADT Field Fun) → Res (Term ADT Field Fun)
  | .node (.kint c1) _ :: .node (.kint c2) _ :: others =>
    let (z12,others) := smp2Loop zf (zf c1 c2) others
    let c12 := eZint z12
    if others.isEmpty || isAbsorbant f (c12 : Term ADT Field Fun) then .ok c12
    else if isNeutral f (c12 : Term ADT Field Fun) then .ok (E.eFun f others)
    else .ok (E.eFun f (c12 :: others))
  | _ => .error .notFound

/-- The introduction of a conditional term on a bit test, which is disabled by its first line. -/
def introductionBitTestPositiveFromLand (_es : List (Term ADT Field Fun)) : Res (Term ADT Field Fun) := .error .notFound

def smpLand (es : List (Term ADT Field Fun)) : Res (Term ADT Field Fun) :=
  handle
    (do
      let r ← smp2 E S.land logand es
      handle
        (match r with
        | .node (.func f) es => if f = S.land then introductionBitTestPositiveFromLand es else .ok r
        | _ => .ok r)
        (.ok r))
    (introductionBitTestPositiveFromLand es)

end Rules

section Numbers

theorem landAll_testBit (xs : List ℤ) (i : ℕ) : (landAll xs).testBit i = xs.all (·.testBit i) := by
  induction xs with
  | nil => exact neg_one_testBit i
  | cons x xs ih => rw [landAll,List.foldr_cons,Int.testBit_land,← landAll,ih,List.all_cons]

theorem lorAll_testBit (xs : List ℤ) (i : ℕ) : (lorAll xs).testBit i = xs.any (·.testBit i) := by
  induction xs with
  | nil => exact zero_testBit i
  | cons x xs ih => rw [lorAll,List.foldr_cons,Int.testBit_lor,← lorAll,ih,List.any_cons]

theorem lxorAll_testBit_cons (x : ℤ) (xs : List ℤ) (i : ℕ) :
    (lxorAll (x :: xs)).testBit i = (x.testBit i ^^ (lxorAll xs).testBit i) := by
  rw [lxorAll,List.foldr_cons,Int.testBit_lxor,← lxorAll]

end Numbers

section Soundness
variable [DecidableEq Fun] [FunSymbol Fun] {S : Cbits Fun} {E : Build ADT Field Fun} {I : Interp ADT Field Fun}

def Interp.Keeps (S : Cbits Fun) (I : Interp ADT Field Fun) (t r : Term ADT Field Fun) : Prop :=
  ∀ z : ℤ, I.value S t = .int z → I.value S r = .int z

/-- The symbol is the operation `all` on any number of operands, which combines them by `zf`. -/
structure Combines (S : Cbits Fun) (I : Interp ADT Field Fun) (f : Fun) (zf : ℤ → ℤ → ℤ) (all : List ℤ → ℤ) : Prop where
  value : ∀ {ts : List (Term ADT Field Fun)} {z : ℤ},
    I.value S (.node (.func f) ts) = .int z ↔ ∃ xs, I.Ints S ts xs ∧ z = all xs
  singleton : ∀ x, all [x] = x
  cons : ∀ x y xs, all (x :: y :: xs) = all (zf x y :: xs)
  absorbant : ∀ c xs, isAbsorbant f (eZint c : Term ADT Field Fun) = true → all (c :: xs) = c
  neutral : ∀ c xs, isNeutral f (eZint c : Term ADT Field Fun) = true → all (c :: xs) = all xs

theorem isElement_eZint {k c : ℤ} : isElement (.int k : Element Fun) (eZint c : Term ADT Field Fun) = true ↔ k = c := by
  rw [eZint,isElement,decide_eq_true_eq]

theorem combines_land (S : Cbits Fun) (I : Interp ADT Field Fun) : Combines S I S.land logand landAll where
  value := value_land
  singleton x := land_neg_one x
  cons x y xs := eq_of_testBit fun i => by simp [landAll_testBit,logand,Int.testBit_land,Bool.and_assoc]
  absorbant c xs h := by
    rw [isAbsorbant,S.category_land] at h
    obtain rfl := (isElement_eZint).mp h
    exact eq_of_testBit fun i => by simp [landAll_testBit]
  neutral c xs h := by
    rw [isNeutral,S.category_land] at h
    obtain rfl := (isElement_eZint).mp h
    exact eq_of_testBit fun i => by simp [landAll_testBit]

theorem combines_lor (S : Cbits Fun) (I : Interp ADT Field Fun) : Combines S I S.lor logor lorAll where
  value := value_lor
  singleton x := eq_of_testBit fun i => by simp [lorAll_testBit]
  cons x y xs := eq_of_testBit fun i => by simp [lorAll_testBit,logor,Int.testBit_lor,Bool.or_assoc]
  absorbant c xs h := by
    rw [isAbsorbant,S.category_lor] at h
    obtain rfl := (isElement_eZint).mp h
    exact eq_of_testBit fun i => by simp [lorAll_testBit]
  neutral c xs h := by
    rw [isNeutral,S.category_lor] at h
    obtain rfl := (isElement_eZint).mp h
    exact eq_of_testBit fun i => by simp [lorAll_testBit]

theorem combines_lxor (S : Cbits Fun) (I : Interp ADT Field Fun) : Combines S I S.lxor logxor lxorAll where
  value := value_lxor
  singleton x := eq_of_testBit fun i => by rw [lxorAll_testBit_cons]; simp [lxorAll]
  cons x y xs := eq_of_testBit fun i => by
    rw [lxorAll_testBit_cons,lxorAll_testBit_cons,lxorAll_testBit_cons,logxor,Int.testBit_lxor,Bool.xor_assoc]
  absorbant c xs h := by
    rw [isAbsorbant,S.category_lxor] at h
    cases h
  neutral c xs h := by
    rw [isNeutral,S.category_lxor] at h
    obtain rfl := (isElement_eZint).mp h
    exact eq_of_testBit fun i => by rw [lxorAll_testBit_cons,zero_testBit,Bool.false_xor]

theorem ints_cons {t : Term ADT Field Fun} {ts : List (Term ADT Field Fun)} {xs : List ℤ} :
    I.Ints S (t :: ts) xs ↔ ∃ x ys, I.value S t = .int x ∧ I.Ints S ts ys ∧ xs = x :: ys := by
  rw [Interp.Ints,List.forall₂_cons_left_iff]
  rfl

theorem ints_kint_cons {c : ℤ} {us ts : List (Term ADT Field Fun)} {xs : List ℤ} :
    I.Ints S (.node (.kint c) us :: ts) xs ↔ ∃ ys, I.Ints S ts ys ∧ xs = c :: ys := by
  rw [ints_cons]
  simp only [value_kint,Value.int.injEq]
  constructor
  · rintro ⟨_,ys,rfl,hys,rfl⟩
    exact ⟨ys,hys,rfl⟩
  · rintro ⟨ys,hys,rfl⟩
    exact ⟨c,ys,rfl,hys,rfl⟩

theorem Combines.loop {f : Fun} {zf : ℤ → ℤ → ℤ} {all : List ℤ → ℤ} (hf : Combines S I f zf all)
    {ts : List (Term ADT Field Fun)} {xs : List ℤ} (h : I.Ints S ts xs) (c : ℤ) :
    ∃ ys, I.Ints S (smp2Loop zf c ts).2 ys ∧ all (c :: xs) = all ((smp2Loop zf c ts).1 :: ys) := by
  induction ts generalizing c xs with
  | nil => exact ⟨xs,h,rfl⟩
  | cons t ts ih =>
    unfold smp2Loop
    split
    · next d us r heq =>
      obtain ⟨rfl,rfl⟩ := List.cons.inj heq
      obtain ⟨ys,hys,rfl⟩ := (ints_kint_cons).mp h
      obtain ⟨zs,hzs,he⟩ := ih hys (zf c d)
      exact ⟨zs,hzs,by rw [hf.cons,he]⟩
    · exact ⟨xs,h,rfl⟩

theorem smp1_keeps {es : List (Term ADT Field Fun)} {r : Term ADT Field Fun} (h : smp1 lognot es = .ok r) :
    I.Keeps S (.node (.func S.lnot) es) r := by
  unfold smp1 at h
  split at h
  · next c us =>
    obtain rfl := Except.ok.inj h
    intro z hz
    obtain ⟨x,hx,rfl⟩ := value_lnot.mp hz
    obtain ⟨_,_,hx⟩ := (ints_kint_cons).mp hx
    obtain ⟨rfl,_⟩ := List.cons.inj hx
    exact value_eZint ..
  · cases h

theorem Combines.smp2_keeps {f : Fun} {zf : ℤ → ℤ → ℤ} {all : List ℤ → ℤ} (hf : Combines S I f zf all) (hE : E.Sound S I)
    {es : List (Term ADT Field Fun)} {r : Term ADT Field Fun} (h : smp2 E f zf es = .ok r) :
    I.Keeps S (.node (.func f) es) r := by
  unfold smp2 at h
  split at h
  · next c1 us c2 vs others =>
    intro z hz
    obtain ⟨xs,hxs,rfl⟩ := hf.value.mp hz
    obtain ⟨_,hxs',rfl⟩ := (ints_kint_cons).mp hxs
    obtain ⟨ys,hys,rfl⟩ := (ints_kint_cons).mp hxs'
    obtain ⟨zs,hzs,he⟩ := hf.loop hys (zf c1 c2)
    rw [hf.cons,he]
    simp only at h
    split at h
    · next hc =>
      obtain rfl := Except.ok.inj h
      rcases Bool.or_eq_true_iff.mp hc with hnil | habs
      · rw [List.isEmpty_iff] at hnil
        rw [hnil] at hzs
        obtain rfl := List.forall₂_nil_left_iff.mp hzs
        rw [hf.singleton]
        exact value_eZint ..
      · rw [hf.absorbant _ _ habs]
        exact value_eZint ..
    split at h
    · next hn =>
      obtain rfl := Except.ok.inj h
      rw [hf.neutral _ _ hn]
      exact hE.func_int (hf.value.mpr ⟨zs,hzs,rfl⟩)
    · obtain rfl := Except.ok.inj h
      exact hE.func_int (hf.value.mpr ⟨_,.cons (value_eZint ..) hzs,rfl⟩)
  · cases h

theorem smpLand_keeps (hE : E.Sound S I) {es : List (Term ADT Field Fun)} {r : Term ADT Field Fun}
    (h : smpLand S E es = .ok r) : I.Keeps S (.node (.func S.land) es) r := by
  simp only [smpLand,handle_ok,bind_ok] at h
  rcases h with ⟨t,ht,h⟩ | ⟨_,h⟩
  · have hr : t = r := by
      rcases h with h | ⟨_,h⟩
      · split at h
        · split at h
          · cases h
          · exact Except.ok.inj h
        · exact Except.ok.inj h
      · exact Except.ok.inj h
    exact hr ▸ (combines_land S I).smp2_keeps hE ht
  · cases h

theorem smpShift_keeps (hE : E.Sound S I) {f : Fun} {zf : ℤ → ℤ → Res ℤ} {op : ℤ → ℤ → ℤ}
    (hvalue : ∀ {ts : List (Term ADT Field Fun)} {z : ℤ},
      I.value S (.node (.func f) ts) = .int z ↔ ∃ x n, I.Ints S ts [x,n] ∧ z = op x n)
    (hzero : ∀ x, op x 0 = x) (hnull : ∀ n, 0 ≤ n → op 0 n = 0) (hzf : ∀ {x n z}, zf x n = .ok z → z = op x n)
    {es : List (Term ADT Field Fun)} {r : Term ADT Field Fun} (h : smpShift S E zf es = .ok r) :
    I.Keeps S (.node (.func f) es) r := by
  intro z hz
  obtain ⟨x,n,hxn,rfl⟩ := hvalue.mp hz
  unfold smpShift at h
  split at h
  · next e1 e2 =>
    obtain ⟨h1,h2⟩ : I.value S e1 = .int x ∧ I.value S e2 = .int n := by simpa [Interp.Ints] using hxn
    have hconst : ∀ {t : Term ADT Field Fun} {c y : ℤ}, t.label = .kint c → I.value S t = .int y → y = c := by
      rintro ⟨_,us⟩ c y hl hv
      rw [Rose.label_node] at hl
      rw [hl,value_kint] at hv
      exact (Value.int.inj hv).symm
    -- zero shifted by an amount that is not negative
    have hleft : ∀ {c : ℤ}, e1.label = .kint c → c = 0 ∧ isPositiveOrNull S E e2 = true → I.value S e1 = .int (op x n) := by
      rintro c hl ⟨hc,hpos⟩
      rw [hconst hl h1,hc,hnull n ((signSound hE e2).1 hpos n h2),← hc,← hconst hl h1,h1]
    have hright : ∀ {c : ℤ}, e2.label = .kint c → c = 0 → I.value S e1 = .int (op x n) := fun hl hc => by
      rw [hconst hl h2,hc,hzero,h1]
    split at h
    · next c1 c2 hl1 hl2 =>
      split at h
      · next hc =>
        obtain rfl := Except.ok.inj h
        exact hright hl2 hc
      split at h
      · obtain ⟨w,hw,h⟩ := bind_ok.mp h
        obtain rfl := Except.ok.inj h
        rw [value_eZint,hzf hw,hconst hl1 h1,hconst hl2 h2]
      split at h
      · next hc =>
        obtain rfl := Except.ok.inj h
        exact hleft hl1 hc
      · cases h
    · next c2 hl2 _ =>
      split at h
      · next hc =>
        obtain rfl := Except.ok.inj h
        exact hright hl2 hc
      · cases h
    · next c1 hl1 _ =>
      split at h
      · next hc =>
        obtain rfl := Except.ok.inj h
        exact hleft hl1 hc
      · cases h
    · cases h
  · cases h

theorem smpShift_lsl_keeps (hE : E.Sound S I) {es : List (Term ADT Field Fun)} {r : Term ADT Field Fun}
    (h : smpShift S E shiftLeft es = .ok r) : I.Keeps S (.node (.func S.lsl) es) r :=
  smpShift_keeps hE value_lsl (fun x => by simp [Interp.shl]) (fun n hn => by rw [Interp.shl,if_pos hn,zero_mul])
    (fun h => by
      obtain ⟨h0,rfl⟩ := shiftLeft_ok h
      rw [Interp.shl,if_pos h0]) h

theorem smpShift_lsr_keeps (hE : E.Sound S I) {es : List (Term ADT Field Fun)} {r : Term ADT Field Fun}
    (h : smpShift S E shiftRight es = .ok r) : I.Keeps S (.node (.func S.lsr) es) r :=
  smpShift_keeps hE value_lsr (fun x => by simp [Interp.shr]) (fun n hn => by rw [Interp.shr,if_pos hn,Int.zero_ediv])
    (fun h => by
      obtain ⟨h0,rfl⟩ := shiftRight_ok h
      rw [Interp.shr,if_pos h0]) h

end Soundness
end FramaC.Cint
