import FramaC.Octagons.Rewriting
import FramaC.Octagons.Reachable

/-! # Soundness of the rewriting

A form of the rewriting holds of the value of the expression plus what the signed conversions on the path to its
variable have changed, since `may_overflow` takes their wraps for errors.
-/
set_option linter.unusedSectionVars false
namespace FramaC.Octagons
open Ival (Comp)
open Outcome

structure RewriteOps.Sound {I : Type} [RewriteOps I] (γ : I → Set ℤ) : Prop extends IvalOps.Sound γ where
  zero : 0 ∈ γ RewriteOps.zero
  range : ∀ l h u, (∀ a ∈ l, a ≤ u) → (∀ b ∈ h, u ≤ b) → u ∈ γ (RewriteOps.range l h)
  injectRange : ∀ l h u, u ∈ γ (IvalOps.injectRange l h) → l ≤ u ∧ u ≤ h
  isIncluded : ∀ a b, IvalOps.isIncluded a b = true → ∀ u ∈ γ a, u ∈ γ b
  isZero : ∀ a, RewriteOps.isZero a = true → ∀ u ∈ γ a, u = 0
  containsZero : ∀ a, RewriteOps.containsZero a = false → ∀ u ∈ γ a, u ≠ 0
  containsNonZero : ∀ a, RewriteOps.containsNonZero a = false → RewriteOps.isZero a = false → ∀ u, u ∉ γ a

section Forms
variable {X I : Type} [DecidableEq X] [RewriteVariable X] [DecidableEq I] [RewriteOps I]

def VarCoeff.Holds (γ : I → Set ℤ) (env : X → ℤ) (f : VarCoeff X I) (v : ℤ) : Prop :=
  ∃ c ∈ γ f.coeff, v = (if f.sign then env f.varinfo else -env f.varinfo) - c

def change (env : X → ℤ) (typ : Typ) (e : Expr X) : ℤ :=
  if typ.range.iSigned then (eval env e).elim 0 fun v => v - convert typ v else 0

/-- For each form, what the conversions on the path to its variable have changed. -/
@[grind =] def drifts (env : X → ℤ) (evaluate : Expr X → Option I) : Expr X → List ℤ
  | .lval x => if !RewriteVariable.isVolatile x && !isSingleton (evaluate (.lval x)) then [0] else []
  | .neg e typ =>
    match evaluate e with
    | none => []
    | some v => if mayOverflow typ (IvalOps.negInt v) then [] else (drifts env evaluate e).map fun d => -d
  | .binop op e1 e2 typ =>
    applyBinop [] (fun _ _ =>
      drifts env evaluate e1 ++ (drifts env evaluate e2).map fun d => if op = .sub then -d else d)
      evaluate typ e1 op e2
  | .cast typ e =>
    match evaluate e with
    | none => []
    | some v => if mayOverflow typ v then [] else (drifts env evaluate e).map fun d => d + change env typ e
  | .info e => drifts env evaluate e
  | _ => []

variable {γ : I → Set ℤ} (hγ : RewriteOps.Sound γ) {env : X → ℤ} {evaluate : Expr X → Option I}

section Operations
include hγ

theorem inRange {typ : Typ} {i : I} {v : ℤ} (h : mayOverflow typ i = false) (hs : typ.range.iSigned = false)
    (hv : v ∈ γ i) : 0 ≤ v ∧ v < 2 ^ typ.range.iBits := by
  have hi : IvalOps.isIncluded i (Arith.makeRange typ.range : I) = true := by
    simpa [mayOverflow,hs,unsignedOverflow] using h
  have hr := hγ.injectRange _ _ _ (hγ.isIncluded _ _ hi v hv)
  simp only [IntegerRange.lowerBound,IntegerRange.upperBound,hs] at hr
  norm_num at hr
  omega

theorem arith_eq {typ : Typ} {i : I} {v w : ℤ} (h : mayOverflow typ i = false) (hv : v ∈ γ i)
    (hw : arith typ v = some w) : w = v := by
  unfold arith at hw
  cases hs : typ.range.iSigned with
  | true =>
    rw [if_pos hs] at hw
    split at hw
    · exact (Option.some.inj hw).symm
    · cases hw
  | false =>
    rw [if_neg (by simp [hs])] at hw
    obtain ⟨h0,h1⟩ := inRange hγ h hs hv
    rw [Int.emod_eq_of_lt h0 h1] at hw
    exact (Option.some.inj hw).symm

theorem convert_eq {typ : Typ} {i : I} {e : Expr X} {v : ℤ} (h : mayOverflow typ i = false) (hv : v ∈ γ i)
    (he : eval env e = some v) : convert typ v + change env typ e = v := by
  cases hs : typ.range.iSigned with
  | true =>
    simp only [change,hs,he,if_true,Option.elim_some]
    ring
  | false =>
    obtain ⟨h0,h1⟩ := inRange hγ h hs hv
    simp [change,convert,hs,Int.emod_eq_of_lt h0 h1]

theorem neg_holds {f : VarCoeff X I} {v : ℤ} (h : f.Holds γ env v) : f.neg.Holds γ env (-v) := by
  obtain ⟨c,hc,rfl⟩ := h
  refine ⟨-c,hγ.negInt _ _ hc,?_⟩
  cases hs : f.sign <;> simp [VarCoeff.neg,hs] <;> ring

theorem addV2_holds (op : BinOp) {f : VarCoeff X I} {v v2 : ℤ} {i2 : I} (h2 : v2 ∈ γ i2) (h : f.Holds γ env v) :
    (f.addV2 op i2).Holds γ env (op.value v v2) := by
  obtain ⟨c,hc,rfl⟩ := h
  cases op with
  | add =>
    refine ⟨c - v2,hγ.subInt _ _ _ _ hc h2,?_⟩
    change (if f.sign then env f.varinfo else -env f.varinfo) - c + v2 =
      (if f.sign then env f.varinfo else -env f.varinfo) - (c - v2)
    ring
  | sub =>
    refine ⟨c + v2,hγ.addInt _ _ _ _ hc h2,?_⟩
    change (if f.sign then env f.varinfo else -env f.varinfo) - c - v2 =
      (if f.sign then env f.varinfo else -env f.varinfo) - (c + v2)
    ring

theorem addV1_holds (op : BinOp) {f : VarCoeff X I} {v v1 : ℤ} {i1 : I} (h1 : v1 ∈ γ i1) (h : f.Holds γ env v) :
    (f.addV1 op i1).Holds γ env (op.value v1 v) := by
  cases op with
  | add =>
    obtain ⟨c,hc,rfl⟩ := h
    refine ⟨c - v1,hγ.subInt _ _ _ _ hc h1,?_⟩
    simp only [BinOp.value,VarCoeff.addV1,reduceCtorEq,if_false]
    ring
  | sub =>
    obtain ⟨c,hc,hv⟩ := neg_holds hγ h
    refine ⟨c - v1,hγ.subInt _ _ _ _ hc h1,?_⟩
    simp only [BinOp.value,VarCoeff.addV1,if_true]
    linarith

end Operations

theorem applyBinop_cases (evaluate : Expr X → Option I) (typ : Typ) (e1 : Expr X) (op : BinOp) (e2 : Expr X) :
    (∀ (ρ : Type) (empty : ρ) f, applyBinop empty f evaluate typ e1 op e2 = empty) ∨
    ∃ i1 i2, evaluate e1 = some i1 ∧ evaluate e2 = some i2 ∧ mayOverflow typ (Arith.apply op i1 i2) = false ∧
      ∀ (ρ : Type) (empty : ρ) f, applyBinop empty f evaluate typ e1 op e2 = f i1 i2 := by
  unfold applyBinop
  cases h1 : evaluate e1 with
  | none => exact Or.inl fun _ _ _ => rfl
  | some i1 =>
    cases h2 : evaluate e2 with
    | none => exact Or.inl fun _ _ _ => rfl
    | some i2 =>
      cases hm : mayOverflow typ (Arith.apply op i1 i2) with
      | true => exact Or.inl fun _ _ _ => by simp [hm]
      | false => exact Or.inr ⟨i1,i2,rfl,rfl,hm,fun _ _ _ => by simp [hm]⟩

theorem rewrite_drifts (hγ : RewriteOps.Sound γ) (e : Expr X) (hcov : Covers γ env evaluate e) :
    List.Forall₂ (fun f d => ∀ v, eval env e = some v → f.Holds γ env (v + d)) (rewrite evaluate e)
      (drifts env evaluate e) := by
  induction e with
  | const value typ => exact .nil
  | comp op e1 e2 typ _ _ => exact .nil
  | lval x =>
    simp only [rewrite,drifts]
    split
    · refine .cons ?_ .nil
      intro v hv
      refine ⟨0,hγ.zero,?_⟩
      simpa [eval] using (Option.some.inj hv).symm
    · exact .nil
  | info e ih => exact ih hcov.2
  | neg e typ ih =>
    have ih := ih hcov.2
    simp only [rewrite,drifts]
    cases he : evaluate e with
    | none => exact .nil
    | some i =>
      cases hm : mayOverflow typ (IvalOps.negInt i) with
      | true => simp [hm]
      | false =>
        simp only [hm,Bool.false_eq_true,if_false,List.forall₂_map_left_iff,List.forall₂_map_right_iff]
        refine List.Forall₂.imp ?_ ih
        intro f d hfd v hv
        obtain ⟨w,hw,hv⟩ := Option.bind_eq_some_iff.mp hv
        have hwi : w ∈ γ i := Covers.here hcov.2 w i hw he
        rw [arith_eq hγ hm (hγ.negInt _ _ hwi) hv,← neg_add]
        exact neg_holds hγ (hfd w hw)
  | cast typ e ih =>
    have ih := ih hcov.2
    simp only [rewrite,drifts]
    cases he : evaluate e with
    | none => exact .nil
    | some i =>
      cases hm : mayOverflow typ i with
      | true => simp [hm]
      | false =>
        simp only [hm,Bool.false_eq_true,if_false,List.forall₂_map_right_iff]
        refine List.Forall₂.imp ?_ ih
        intro f d hfd v hv
        obtain ⟨w,hw,rfl⟩ := Option.map_eq_some_iff.mp hv
        have hc := convert_eq hγ hm (Covers.here hcov.2 w i hw he) hw
        rw [show convert typ w + (d + change env typ e) = w + d by linarith only [hc]]
        exact hfd w hw
  | binop op e1 e2 typ ih1 ih2 =>
    have ih1 := ih1 hcov.2.1
    have ih2 := ih2 hcov.2.2
    simp only [rewrite,drifts]
    rcases applyBinop_cases evaluate typ e1 op e2 with h | ⟨i1,i2,h1,h2,hm,h⟩
    · rw [h,h]
      exact .nil
    · rw [h,h]
      -- the values of the operands and the result
      have hval : ∀ v, eval env (.binop op e1 e2 typ) = some v → ∃ v1 v2, eval env e1 = some v1 ∧
          eval env e2 = some v2 ∧ v1 ∈ γ i1 ∧ v2 ∈ γ i2 ∧ v = op.value v1 v2 := by
        intro v hv
        obtain ⟨v1,hv1,hv⟩ := Option.bind_eq_some_iff.mp hv
        obtain ⟨v2,hv2,hv⟩ := Option.bind_eq_some_iff.mp hv
        have hi1 := Covers.here hcov.2.1 v1 i1 hv1 h1
        have hi2 := Covers.here hcov.2.2 v2 i2 hv2 h2
        refine ⟨v1,v2,hv1,hv2,hi1,hi2,arith_eq hγ hm ?_ hv⟩
        cases op with
        | add => exact hγ.addInt _ _ _ _ hi1 hi2
        | sub => exact hγ.subInt _ _ _ _ hi1 hi2
      refine List.rel_append ?_ ?_
      · rw [List.forall₂_map_left_iff]
        refine List.Forall₂.imp ?_ ih1
        intro f d hfd v hv
        obtain ⟨v1,v2,hv1,_,_,hi2,rfl⟩ := hval v hv
        have hf := addV2_holds hγ op hi2 (hfd v1 hv1)
        cases op <;> simp only [BinOp.value] at hf ⊢ <;> convert hf using 1 <;> ring
      · rw [List.forall₂_map_left_iff,List.forall₂_map_right_iff]
        refine List.Forall₂.imp ?_ ih2
        intro f d hfd v hv
        obtain ⟨v1,v2,_,hv2,hi1,_,rfl⟩ := hval v hv
        have hf := addV1_holds hγ op hi1 (hfd v2 hv2)
        cases op <;> simp only [BinOp.value,reduceCtorEq,if_true,if_false] at hf ⊢ <;> convert hf using 1 <;> ring

/-- Every conversion is to a type of at least `n` bits. -/
def CastBits (n : ℕ) : Expr X → Prop
  | .neg e _ => CastBits n e
  | .binop _ e1 e2 _ => CastBits n e1 ∧ CastBits n e2
  | .comp _ e1 e2 _ => CastBits n e1 ∧ CastBits n e2
  | .cast typ e => n ≤ typ.range.iBits ∧ CastBits n e
  | .info e => CastBits n e
  | _ => True

theorem change_dvd {n : ℕ} {typ : Typ} (h : n ≤ typ.range.iBits) (e : Expr X) : (2 : ℤ) ^ n ∣ change env typ e := by
  unfold change
  cases hs : typ.range.iSigned with
  | false => simp
  | true =>
    cases he : eval env e with
    | none => simp
    | some v =>
      have hv : v - convert typ v = 2 ^ typ.range.iBits *
          ((v + 2 ^ (typ.range.iBits - 1)) / 2 ^ typ.range.iBits) := by
        have hdiv := Int.emod_add_mul_ediv (v + 2 ^ (typ.range.iBits - 1)) (2 ^ typ.range.iBits)
        simp only [convert,hs,if_true]
        linarith only [hdiv]
      simp only [if_true,Option.elim_some,hv]
      exact Dvd.dvd.mul_right (pow_dvd_pow 2 h) _

theorem drifts_dvd {n : ℕ} (e : Expr X) (hn : CastBits n e) : ∀ d ∈ drifts env evaluate e, (2 : ℤ) ^ n ∣ d := by
  induction e with
  | const value typ => simp [drifts]
  | comp op e1 e2 typ _ _ => simp [drifts]
  | lval x =>
    intro d hd
    simp only [drifts] at hd
    split at hd
    · rw [List.mem_singleton.mp hd]
      exact dvd_zero _
    · cases hd
  | info e ih => exact ih hn
  | neg e typ ih =>
    intro d hd
    simp only [drifts] at hd
    split at hd
    · cases hd
    · split at hd
      · cases hd
      · obtain ⟨d0,hd0,rfl⟩ := List.mem_map.mp hd
        exact (ih hn d0 hd0).neg_right
  | cast typ e ih =>
    intro d hd
    simp only [drifts] at hd
    split at hd
    · cases hd
    · split at hd
      · cases hd
      · obtain ⟨d0,hd0,rfl⟩ := List.mem_map.mp hd
        exact dvd_add (ih hn.2 d0 hd0) (change_dvd hn.1 e)
  | binop op e1 e2 typ ih1 ih2 =>
    intro d hd
    simp only [drifts] at hd
    rcases applyBinop_cases evaluate typ e1 op e2 with h | ⟨i1,i2,_,_,_,h⟩
    · rw [h] at hd
      cases hd
    · rw [h] at hd
      rcases List.mem_append.mp hd with hd | hd
      · exact ih1 hn.1 d hd
      · obtain ⟨d0,hd0,rfl⟩ := List.mem_map.mp hd
        split
        · exact (ih2 hn.2 d0 hd0).neg_right
        · exact ih2 hn.2 d0 hd0

theorem VarCoeff.Holds.unique {f : VarCoeff X I} {n : ℕ} {v d : ℤ} (h : f.Holds γ env v) (h' : f.Holds γ env (v + d))
    (hn : ∀ c ∈ γ f.coeff, ∀ c' ∈ γ f.coeff, |c - c'| < 2 ^ n) (hd : (2 : ℤ) ^ n ∣ d) : d = 0 := by
  obtain ⟨c,hc,hv⟩ := h
  obtain ⟨c',hc',hv'⟩ := h'
  have hdiff : d = c - c' := by linarith only [hv,hv']
  refine Int.eq_zero_of_abs_lt_dvd hd ?_
  rw [hdiff]
  exact hn c hc c' hc'

/-- The value is that of the octagon, up to the sign, for a value of its interval. -/
def Says (γ : I → Set ℤ) (env : X → ℤ) (so : Bool × Octagon X I) (v : ℤ) : Prop :=
  ∃ c ∈ γ so.2.value, v = (if so.1 then 1 else -1) * (so.2.operation.value (env so.2.vars.fst) (env so.2.vars.snd) - c)

theorem combined_says (hγ : RewriteOps.Sound γ) {f1 f2 : VarCoeff X I} {v1 v2 : ℤ} (h1 : f1.Holds γ env v1)
    (h2 : f2.Holds γ env v2) {pair : Pair X} {swap : Bool}
    (hswap : (swap = false ∧ pair.fst = f1.varinfo ∧ pair.snd = f2.varinfo) ∨
      (swap = true ∧ pair.fst = f2.varinfo ∧ pair.snd = f1.varinfo)) {operation : BinOp} {sign : Bool}
    (hsign : sign = match operation with | .add => f1.sign | .sub => if swap then f2.sign else f1.sign)
    (hop : operation = if f1.sign = f2.sign then .add else .sub) :
    Says γ env (sign,⟨pair,operation,if sign then IvalOps.addInt f1.coeff f2.coeff
      else IvalOps.negInt (IvalOps.addInt f1.coeff f2.coeff)⟩) (v1 + v2) := by
  obtain ⟨c1,hc1,rfl⟩ := h1
  obtain ⟨c2,hc2,rfl⟩ := h2
  have hc := hγ.addInt _ _ _ _ hc1 hc2
  cases sign with
  | true =>
    refine ⟨c1 + c2,hc,?_⟩
    rcases hswap with ⟨rfl,hf,hs⟩ | ⟨rfl,hf,hs⟩ <;> cases hs1 : f1.sign <;> cases hs2 : f2.sign <;>
      simp [hs1,hs2] at hop <;> subst hop <;> simp [hs1,hs2] at hsign <;> simp [BinOp.value,hf,hs] <;> ring
  | false =>
    refine ⟨-(c1 + c2),hγ.negInt _ _ hc,?_⟩
    rcases hswap with ⟨rfl,hf,hs⟩ | ⟨rfl,hf,hs⟩ <;> cases hs1 : f1.sign <;> cases hs2 : f2.sign <;>
      simp [hs1,hs2] at hop <;> subst hop <;> simp [hs1,hs2] at hsign <;> simp [BinOp.value,hf,hs] <;> ring

theorem keepOrAdd {P : Bool × Octagon X I → Prop} {b : Bool} {acc : List (Bool × Octagon X I)} {so : Bool × Octagon X I}
    (h : P so) : ∃ l, (if b then pure acc else pure (so :: acc) : Res (List (Bool × Octagon X I))) = .ok l ∧
      ∀ s ∈ l, s ∈ acc ∨ P s := by
  cases b with
  | true => exact ⟨acc,rfl,fun s hs => Or.inl hs⟩
  | false =>
    refine ⟨so :: acc,rfl,fun s hs => ?_⟩
    rcases List.mem_cons.mp hs with rfl | hs
    · exact Or.inr h
    · exact Or.inl hs

theorem combine_spec (env : X → ℤ) (hγ : RewriteOps.Sound γ) (f1 f2 : VarCoeff X I) (acc : List (Bool × Octagon X I)) :
    ∃ l, combine acc f1 f2 = .ok l ∧ ∀ so ∈ l, so ∈ acc ∨
      ∀ v1 v2, f1.Holds γ env v1 → f2.Holds γ env v2 → Says γ env so (v1 + v2) := by
  unfold combine
  split
  · exact ⟨acc,rfl,fun so hso => Or.inl hso⟩
  · next hne =>
    obtain ⟨pair,swap,hmake,hswap⟩ := Pair.make_ok hne
    simp only [hmake,Res.ok_bind]
    exact keepOrAdd fun v1 v2 h1 h2 => combined_says hγ h1 h2 hswap rfl rfl

theorem forall₂_mem {α β : Type} {R : α → β → Prop} {l : List α} {l' : List β} (h : List.Forall₂ R l l') {a : α}
    (ha : a ∈ l) : ∃ b ∈ l', R a b := by
  induction h with
  | nil => cases ha
  | cons hab _ ih =>
    rcases List.mem_cons.mp ha with rfl | ha
    · exact ⟨_,List.mem_cons_self,hab⟩
    · obtain ⟨b,hb,hr⟩ := ih ha
      exact ⟨b,List.mem_cons_of_mem _ hb,hr⟩

theorem rewriteBinop_spec (hγ : RewriteOps.Sound γ) {e1 e2 : Expr X} (h1 : Covers γ env evaluate e1)
    (h2 : Covers γ env evaluate e2) (op : BinOp) :
    ∃ l, rewriteBinop evaluate e1 op e2 = .ok l ∧
      ((∀ d1 ∈ drifts env evaluate e1, ∀ d2 ∈ drifts env evaluate e2, op.value d1 d2 = 0) → ∀ v1 v2,
        eval env e1 = some v1 → eval env e2 = some v2 → ∀ so ∈ l, Says γ env so (op.value v1 v2)) := by
  have hforms1 := rewrite_drifts hγ e1 h1
  -- the forms that are added, with the drifts that are added
  have hforms2 : List.Forall₂ (fun f d => ∀ v2, eval env e2 = some v2 → f.Holds γ env (op.value 0 (v2 + d)))
      (if op = .sub then (rewrite evaluate e2).map VarCoeff.neg else rewrite evaluate e2)
      (drifts env evaluate e2) := by
    have hforms := rewrite_drifts hγ e2 h2
    cases op with
    | add => simpa [BinOp.value] using hforms
    | sub =>
      simp only [if_true,List.forall₂_map_left_iff,BinOp.value,zero_sub]
      exact hforms.imp fun f d hfd v hv => neg_holds hγ (hfd v hv)
  refine Sat.exists_ok (Sat.foldlM (by simp) fun acc var1 hvar1 hacc => ?_)
  refine Sat.foldlM hacc fun acc var2 hvar2 hacc => ?_
  obtain ⟨l,hl,hso⟩ := combine_spec env hγ var1 var2 acc
  refine Sat.of_ok hl fun hcancel v1 v2 hv1 hv2 so hmem => ?_
  obtain ⟨d1,hd1,hf1⟩ := forall₂_mem hforms1 hvar1
  obtain ⟨d2,hd2,hf2⟩ := forall₂_mem hforms2 hvar2
  rcases hso so hmem with h | h
  · exact hacc hcancel v1 v2 hv1 hv2 so h
  · have hsum := h _ _ (hf1 v1 hv1) (hf2 v2 hv2)
    have hzero := hcancel d1 hd1 d2 hd2
    rw [show v1 + d1 + op.value 0 (v2 + d2) = op.value v1 v2 by
      cases op <;> simp only [BinOp.value] at hzero ⊢ <;> linarith only [hzero]] at hsum
    exact hsum

theorem makeOctagon_holds (hγ : RewriteOps.Sound γ) {so : Bool × Octagon X I} {v : ℤ} {ival : I} (hv : v ∈ γ ival)
    (h : Says γ env so v) : (makeOctagon ival so).Holds γ env := by
  obtain ⟨sign,pair,operation,value⟩ := so
  obtain ⟨c,hc,hvc⟩ := h
  have hop : operation.value (env pair.fst) (env pair.snd) = (if sign then v else -v) + c := by
    cases sign <;> simp at hvc ⊢ <;> linarith only [hvc]
  have hmem : operation.value (env pair.fst) (env pair.snd) ∈ γ (makeOctagon ival (sign,⟨pair,operation,value⟩)).value := by
    rw [hop]
    cases sign with
    | true => exact hγ.addInt _ _ _ _ hv hc
    | false => exact hγ.addInt _ _ _ _ (hγ.negInt _ _ hv) hc
  cases operation <;> exact hmem

theorem mem_comparisonRange (hγ : RewriteOps.Sound γ) {comp : Comp} {v1 v2 : ℤ} (h : Comp.holds comp v1 v2 = true) :
    v1 - v2 ∈ γ (comparisonRange comp) := by
  cases comp <;> simp only [Comp.holds,decide_eq_true_eq,beq_iff_eq,bne_iff_ne] at h
  case eq =>
    rw [h,sub_self]
    exact hγ.zero
  case ne => exact hγ.top _
  all_goals
    refine hγ.range _ _ _ ?_ ?_ <;> grind

theorem holds_inv (comp : Comp) (v1 v2 : ℤ) : Comp.holds (Comp.inv comp) v1 v2 = !Comp.holds comp v1 v2 := by
  cases comp <;> grind [Comp.holds,Comp.inv]

/-- The drifts of the two operands cancel, where the rewriting looks at them. -/
def OperandsCancel (env : X → ℤ) (evaluate : Expr X → Option I) : Expr X → Prop
  | .binop op e1 e2 typ =>
    applyBinop True (fun _ _ => ∀ d1 ∈ drifts env evaluate e1, ∀ d2 ∈ drifts env evaluate e2, op.value d1 d2 = 0)
      evaluate typ e1 op e2
  | .comp _ e1 e2 _ => ∀ d1 ∈ drifts env evaluate e1, ∀ d2 ∈ drifts env evaluate e2, d1 - d2 = 0
  | _ => True

theorem makeOctagonsFromBinop_spec (hγ : RewriteOps.Sound γ) {e1 e2 : Expr X} (h1 : Covers γ env evaluate e1)
    (h2 : Covers γ env evaluate e2) (op : BinOp) (ival : I) :
    ∃ l, makeOctagonsFromBinop evaluate e1 op e2 ival = .ok l ∧
      ((∀ d1 ∈ drifts env evaluate e1, ∀ d2 ∈ drifts env evaluate e2, op.value d1 d2 = 0) → ∀ v1 v2,
        eval env e1 = some v1 → eval env e2 = some v2 → op.value v1 v2 ∈ γ ival → ∀ o ∈ l, o.Holds γ env) := by
  obtain ⟨rewritings,hr,hsay⟩ := rewriteBinop_spec hγ h1 h2 op
  refine ⟨rewritings.map (makeOctagon ival),?_,fun hcancel v1 v2 hv1 hv2 hv o ho => ?_⟩
  · rw [makeOctagonsFromBinop,hr]
    rfl
  · obtain ⟨so,hso,rfl⟩ := List.mem_map.mp ho
    exact makeOctagon_holds hγ hv (hsay hcancel v1 v2 hv1 hv2 so hso)

theorem makeOctagons_spec (hγ : RewriteOps.Sound γ) (e : Expr X) (hcov : Covers γ env evaluate e) (ival : I) :
    ∃ l, makeOctagons evaluate e ival = .ok l ∧ (OperandsCancel env evaluate e → ∀ v, eval env e = some v →
      v ∈ γ ival → ∀ o ∈ l, o.Holds γ env) := by
  have hnil : ∃ l : List (Octagon X I), (.ok [] : Res _) = .ok l ∧ (OperandsCancel env evaluate e → ∀ v,
      eval env e = some v → v ∈ γ ival → ∀ o ∈ l, o.Holds γ env) := ⟨[],rfl,by simp⟩
  cases e with
  | const value typ => exact hnil
  | lval x => exact hnil
  | neg e typ => exact hnil
  | cast typ e => exact hnil
  | info e => exact hnil
  | binop op e1 e2 typ =>
    simp only [makeOctagons,OperandsCancel] at hnil ⊢
    rcases applyBinop_cases evaluate typ e1 op e2 with h | ⟨i1,i2,hi1,hi2,hm,h⟩
    · rw [h,h] at *
      exact hnil
    · rw [h,h]
      obtain ⟨l,hl,hholds⟩ := makeOctagonsFromBinop_spec hγ hcov.2.1 hcov.2.2 op ival
      refine ⟨l,hl,fun hcancel v hv hmem => ?_⟩
      obtain ⟨v1,hv1,hv⟩ := Option.bind_eq_some_iff.mp hv
      obtain ⟨v2,hv2,hv⟩ := Option.bind_eq_some_iff.mp hv
      have hin : op.value v1 v2 ∈ γ (Arith.apply op i1 i2) := by
        have hin1 := Covers.here hcov.2.1 v1 i1 hv1 hi1
        have hin2 := Covers.here hcov.2.2 v2 i2 hv2 hi2
        cases op with
        | add => exact hγ.addInt _ _ _ _ hin1 hin2
        | sub => exact hγ.subInt _ _ _ _ hin1 hin2
      rw [arith_eq hγ hm hin hv] at hmem
      exact hholds hcancel v1 v2 hv1 hv2 hmem
  | comp op e1 e2 typ =>
    simp only [makeOctagons]
    cases hz : RewriteOps.containsZero ival && RewriteOps.containsNonZero ival with
    | true => exact hnil
    | false =>
      obtain ⟨l,hl,hholds⟩ := makeOctagonsFromBinop_spec hγ hcov.2.1 hcov.2.2 .sub
        (comparisonRange (if RewriteOps.isZero ival then Comp.inv op else op))
      refine ⟨l,hl,fun hcancel v hv hmem => ?_⟩
      obtain ⟨v1,hv1,hv⟩ := Option.bind_eq_some_iff.mp hv
      obtain ⟨v2,hv2,hv⟩ := Option.bind_eq_some_iff.mp hv
      refine hholds hcancel v1 v2 hv1 hv2 (mem_comparisonRange hγ ?_)
      cases hzero : RewriteOps.isZero ival with
      | true =>
        have hv0 := hγ.isZero _ hzero v hmem
        rw [if_pos rfl,holds_inv]
        cases hc : Comp.holds op v1 v2 with
        | true => simp [hc,hv0] at hv
        | false => rfl
      | false =>
        have hv0 : v ≠ 0 := by
          rcases Bool.and_eq_false_iff.mp hz with h | h
          · exact hγ.containsZero _ h v hmem
          · exact absurd hmem (hγ.containsNonZero _ h hzero v)
        cases hc : Comp.holds op v1 v2 with
        | true => simpa using hc
        | false =>
          simp only [hc,Bool.false_eq_true,if_false] at hv
          exact absurd (Option.some.inj hv).symm hv0

end Forms
namespace Bounds

instance : RewriteOps Bounds where
  zero := ⟨some 0,some 0⟩
  range := Bounds.mk
  cardinalZeroOrOne a := a.lower != none && a.lower == a.upper
  isZero a := a == ⟨some 0,some 0⟩
  containsZero a := a.lower.all (· ≤ 0) && a.upper.all (0 ≤ ·)
  containsNonZero a := a != ⟨some 0,some 0⟩

theorem both_eq_left {f : ℤ → ℤ → ℤ} {a b : Option ℤ} (h : both f a b = a) (ha : a ≠ none) :
    ∃ x y, a = some x ∧ b = some y ∧ f x y = x := by
  cases a <;> cases b <;> simp_all [both]

theorem rewrite_ops_sound : RewriteOps.Sound concr where
  toSound := sound
  zero := ⟨by simp [RewriteOps.zero],by simp [RewriteOps.zero]⟩
  range l h u hl hh := ⟨hl,hh⟩
  injectRange l h u hu := ⟨hu.1 l rfl,hu.2 h rfl⟩
  isIncluded a b h u hu := by
    simp only [IvalOps.isIncluded,Bool.and_eq_true,Bool.or_eq_true,beq_iff_eq,bne_iff_ne] at h
    obtain ⟨hl,hh⟩ := h
    constructor
    · intro l hbl
      rcases hl with hl | ⟨hl,ha⟩
      · rw [hl] at hbl
        cases hbl
      · obtain ⟨x,y,hx,hy,hxy⟩ := both_eq_left hl ha
        rw [hy] at hbl
        cases hbl
        have := hu.1 x hx
        omega
    · intro l hbl
      rcases hh with hh | ⟨hh,ha⟩
      · rw [hh] at hbl
        cases hbl
      · obtain ⟨x,y,hx,hy,hxy⟩ := both_eq_left hh ha
        rw [hy] at hbl
        cases hbl
        have := hu.2 x hx
        omega
  isZero a h u hu := by
    obtain rfl : a = ⟨some 0,some 0⟩ := by simpa [RewriteOps.isZero] using h
    exact le_antisymm (hu.2 0 rfl) (hu.1 0 rfl)
  containsZero a h u hu := by
    rintro rfl
    obtain ⟨l,h'⟩ := a
    have hl : l.all (· ≤ 0) = true := by
      cases l with
      | none => rfl
      | some x => simpa using hu.1 x rfl
    have hh : h'.all (0 ≤ ·) = true := by
      cases h' with
      | none => rfl
      | some x => simpa using hu.2 x rfl
    simp only [RewriteOps.containsZero,hl,hh] at h
    cases h
  containsNonZero a h hz := by
    have hne : (!RewriteOps.isZero a) = false := h
    simp [hz] at hne

end Bounds

instance threeRewriteVariables : RewriteVariable (Fin 3) where
  toVariable := threeVariables
  isVolatile _ := false

local instance three_neZero : NeZero 3 := ⟨by decide⟩

/-- The first variable converted to `signed char`. -/
def signedCharCast : Expr (Fin 3) := .cast ⟨"signed char",⟨8,true⟩⟩ (.lval 0)

def thousand : Expr (Fin 3) → Option Bounds
  | .lval _ => some ⟨some 0,some 1000⟩
  | _ => none

theorem signedCharCast_covered {env : Fin 3 → ℤ} (h : 0 ≤ env 0 ∧ env 0 ≤ 1000) :
    Covers Bounds.concr env thousand signedCharCast := by
  constructor
  · intro v i _ hi
    cases hi
  · refine ⟨fun v i hv hi => ?_,trivial⟩
    cases hv
    cases hi
    exact ⟨by simpa using h.1,by simpa using h.2⟩

end FramaC.Octagons
