import FramaC.Qed.Intmap.Update

/-! # Pairs of canonical trees

The recursion that the operations on two trees share: two branches have the same prefix, one lies inside a child of the
other, or their keys are in distinct regions.
-/
namespace FramaC.Qed.Intmap

open CommonPrefix

namespace Tree

variable {α β γ : Type}

/-- The children of a canonical branch at bit `i`. -/
structure Children (p : Key) (i : ℕ) (t0 t1 : Tree α) : Prop where
  lowest : LowestZero p i
  ne0 : t0 ≠ empty
  ne1 : t1 ≠ empty
  canonical0 : t0.Canonical
  canonical1 : t1.Canonical
  region0 : InRegion i (2 * (p.toNat / 2 ^ (i + 1))) (find · t0)
  region1 : InRegion i (2 * (p.toNat / 2 ^ (i + 1)) + 1) (find · t1)

theorem children_of_canonical {p : Key} {t0 t1 : Tree α} (h : (br p t0 t1).Canonical) : ∃ i, Children p i t0 t1 := by
  obtain ⟨hne0,hne1,hc0,hc1,i,hp,h0,h1⟩ := canonical_br_iff.1 h
  exact ⟨i,hp,hne0,hne1,hc0,hc1,h0,h1⟩

namespace Children

variable {p : Key} {i : ℕ} {t0 t1 : Tree α} (h : Children p i t0 t1)

include h

theorem canonical : (br p t0 t1).Canonical :=
  canonical_br_iff.2 ⟨h.ne0,h.ne1,h.canonical0,h.canonical1,i,h.lowest,h.region0,h.region1⟩

theorem find_eq (k : Key) : find k (br p t0 t1) = (find k t0).or (find k t1) := find_br_or h.lowest h.region0 h.region1 k

theorem region : InRegion (i + 1) (p.toNat / 2 ^ (i + 1)) (find · (br p t0 t1)) :=
  br_region h.lowest t0 t1

theorem apart : Apart (find · t0) (find · t1) := apart_children h.region0 h.region1

theorem included {q : Key} {j : ℕ} {s0 s1 : Tree β} (hs : Children q j s0 s1) (hinc : includedPrefix p q = true) :
    (zeroBit q p = true → InRegion i (2 * (p.toNat / 2 ^ (i + 1))) (find · (br q s0 s1))) ∧
      (¬ zeroBit q p = true → InRegion i (2 * (p.toNat / 2 ^ (i + 1)) + 1) (find · (br q s0 s1))) := by
  obtain ⟨hji,hq⟩ := (includedPrefix_iff h.lowest hs.lowest).1 hinc
  have hreg := hs.region.mono hji rfl
  have hz := zeroBit_iff h.lowest q
  have hd := div_succ q.toNat i
  constructor
  · intro hzero
    rw [hz.1 hzero,hq] at hreg
    exact hreg
  · intro hzero
    have hne : ¬ q.toNat / 2 ^ i = 2 * (q.toNat / 2 ^ (i + 1)) := fun h => hzero (hz.2 h)
    rw [show q.toNat / 2 ^ i = 2 * (p.toNat / 2 ^ (i + 1)) + 1 by omega] at hreg
    exact hreg

theorem apart_of_not_included {q : Key} {j : ℕ} {s0 s1 : Tree β} (hs : Children q j s0 s1) (hne : p ≠ q)
    (hpq : ¬ includedPrefix p q = true) (hqp : ¬ includedPrefix q p = true) :
    Apart (find · (br p t0 t1)) (find · (br q s0 s1)) := by
  rw [includedPrefix_iff h.lowest hs.lowest] at hpq
  rw [includedPrefix_iff hs.lowest h.lowest] at hqp
  rcases Nat.lt_trichotomy i j with hlt | rfl | hgt
  · exact ⟨j + 1,_,_,fun heq => hqp ⟨hlt,heq⟩,h.region.mono (Nat.succ_le_succ hlt.le) rfl,hs.region⟩
  · exact ⟨i + 1,_,_,fun heq => hne (h.lowest.ext hs.lowest heq),h.region,hs.region⟩
  · exact ⟨i + 1,_,_,fun heq => hpq ⟨hgt,heq.symm⟩,h.region,hs.region.mono (Nat.succ_le_succ hgt.le) rfl⟩

end Children

theorem pair_induction {motive : Tree α → Tree β → Prop} (emptyLeft : ∀ t, t.Canonical → motive empty t)
    (emptyRight : ∀ s, s.Canonical → motive s empty)
    (leaves : ∀ i x j y, motive (lf i x) (lf j y))
    (leafLeft : ∀ i x q j t0 t1, Children q j t0 t1 → motive (lf i x) t0 → motive (lf i x) t1 →
      motive (lf i x) (br q t0 t1))
    (leafRight : ∀ j y p i s0 s1, Children p i s0 s1 → motive s0 (lf j y) → motive s1 (lf j y) →
      motive (br p s0 s1) (lf j y))
    (same : ∀ p i s0 s1 t0 t1, Children p i s0 s1 → Children p i t0 t1 → motive s0 t0 → motive s1 t1 →
      motive (br p s0 s1) (br p t0 t1))
    (insideLeft : ∀ p i s0 s1 q j t0 t1, Children p i s0 s1 → Children q j t0 t1 → p ≠ q → includedPrefix p q = true →
      motive s0 (br q t0 t1) → motive s1 (br q t0 t1) → motive (br p s0 s1) (br q t0 t1))
    (insideRight : ∀ p i s0 s1 q j t0 t1, Children p i s0 s1 → Children q j t0 t1 → p ≠ q →
      ¬ includedPrefix p q = true → includedPrefix q p = true → motive (br p s0 s1) t0 → motive (br p s0 s1) t1 →
      motive (br p s0 s1) (br q t0 t1))
    (outside : ∀ p i s0 s1 q j t0 t1, Children p i s0 s1 → Children q j t0 t1 → p ≠ q →
      ¬ includedPrefix p q = true → ¬ includedPrefix q p = true → motive (br p s0 s1) (br q t0 t1))
    (s : Tree α) (t : Tree β) (hs : s.Canonical) (ht : t.Canonical) : motive s t := by
  induction s generalizing t with
  | empty => exact emptyLeft t ht
  | lf i x =>
    induction t with
    | empty => exact emptyRight _ trivial
    | lf j y => exact leaves i x j y
    | br q t0 t1 ih0 ih1 =>
      obtain ⟨j,hc⟩ := children_of_canonical ht
      exact leafLeft i x q j t0 t1 hc (ih0 hc.canonical0) (ih1 hc.canonical1)
  | br p s0 s1 ihs0 ihs1 =>
    obtain ⟨i,hcs⟩ := children_of_canonical hs
    induction t with
    | empty => exact emptyRight _ hs
    | lf j y =>
      exact leafRight j y p i s0 s1 hcs (ihs0 (lf j y) hcs.canonical0 trivial) (ihs1 (lf j y) hcs.canonical1 trivial)
    | br q t0 t1 iht0 iht1 =>
      obtain ⟨j,hct⟩ := children_of_canonical ht
      by_cases hpq : p = q
      · subst hpq
        have hij := hcs.lowest.unique hct.lowest
        subst hij
        exact same p i s0 s1 t0 t1 hcs hct (ihs0 t0 hcs.canonical0 hct.canonical0)
          (ihs1 t1 hcs.canonical1 hct.canonical1)
      · by_cases hinc : includedPrefix p q = true
        · exact insideLeft p i s0 s1 q j t0 t1 hcs hct hpq hinc (ihs0 _ hcs.canonical0 ht) (ihs1 _ hcs.canonical1 ht)
        · by_cases hinc' : includedPrefix q p = true
          · exact insideRight p i s0 s1 q j t0 t1 hcs hct hpq hinc hinc' (iht0 hct.canonical0) (iht1 hct.canonical1)
          · exact outside p i s0 s1 q j t0 t1 hcs hct hpq hinc hinc'

theorem or_combine {g : Option α → Option β → Option γ} (hg : g none none = none) {a0 a1 : Option α} {b0 b1 : Option β}
    (h : (a0 = none ∧ b0 = none) ∨ (a1 = none ∧ b1 = none)) :
    (g a0 b0).or (g a1 b1) = g (a0.or a1) (b0.or b1) := by
  obtain ⟨rfl,rfl⟩ | ⟨rfl,rfl⟩ := h
  · rw [hg,Option.none_or,Option.none_or,Option.none_or]
  · rw [hg,Option.or_none,Option.or_none,Option.or_none]

theorem region_combine {i u : ℕ} {m : Key → Option α} {n : Key → Option β} {r : Key → Option γ} (hm : InRegion i u m)
    (hn : InRegion i u n) (hr : ∀ k, m k = none → n k = none → r k = none) : InRegion i u r := by
  intro k x hk
  by_contra hne
  rw [hr k (hm.eq_none hne) (hn.eq_none hne)] at hk
  cases hk

theorem region_none (i u : ℕ) : InRegion i u fun _ : Key => (none : Option α) := by
  intro k x hk
  cases hk

theorem none_of_regions {i u v : ℕ} (huv : u ≠ v) {m0 m1 : Key → Option α} {n0 n1 : Key → Option β}
    (hm0 : InRegion i u m0) (hm1 : InRegion i v m1) (hn0 : InRegion i u n0) (hn1 : InRegion i v n1) (k : Key) :
    (m0 k = none ∧ n0 k = none) ∨ (m1 k = none ∧ n1 k = none) := by
  by_cases hk : k.toNat / 2 ^ i = u
  · have hne : k.toNat / 2 ^ i ≠ v := fun h => huv (hk.symm.trans h)
    exact Or.inr ⟨hm1.eq_none hne,hn1.eq_none hne⟩
  · exact Or.inl ⟨hm0.eq_none hk,hn0.eq_none hk⟩

section results

variable {g : Key → Option α → Option β → Option γ} (hg : ∀ k, g k none none = none) {p : Key} {i : ℕ}
  (hp : LowestZero p i) {m0 m1 : Key → Option α} {n0 n1 : Key → Option β}
  (hm0 : InRegion i (2 * (p.toNat / 2 ^ (i + 1))) m0) (hm1 : InRegion i (2 * (p.toNat / 2 ^ (i + 1)) + 1) m1)
  (hn0 : InRegion i (2 * (p.toNat / 2 ^ (i + 1))) n0) (hn1 : InRegion i (2 * (p.toNat / 2 ^ (i + 1)) + 1) n1)
  {r0 r1 : Tree γ} (hr0 : r0.Canonical ∧ ∀ k, find k r0 = g k (m0 k) (n0 k))
  (hr1 : r1.Canonical ∧ ∀ k, find k r1 = g k (m1 k) (n1 k))

include hg hm0 hn0 hr0 in
theorem result_region : InRegion i (2 * (p.toNat / 2 ^ (i + 1))) (find · r0) :=
  region_combine hm0 hn0 fun k hm hn => by
    simp only [hr0.2,hm,hn,hg]

include hg hm1 hn1 hr1 in
theorem result_region' : InRegion i (2 * (p.toNat / 2 ^ (i + 1)) + 1) (find · r1) :=
  region_combine hm1 hn1 fun k hm hn => by
    simp only [hr1.2,hm,hn,hg]

include hg hm0 hm1 hn0 hn1 hr0 hr1 in
theorem glue_results : (glue r0 r1).Canonical ∧
    ∀ k, find k (glue r0 r1) = g k ((m0 k).or (m1 k)) ((n0 k).or (n1 k)) := by
  have h0 := result_region hg hm0 hn0 hr0
  have h1 := result_region' hg hm1 hn1 hr1
  obtain ⟨hc,hf⟩ := glue_spec hr0.1 hr1.1 (apart_children h0 h1)
  refine ⟨hc,?_⟩
  intro k
  rw [hf,hr0.2,hr1.2]
  exact or_combine (hg k) (none_of_regions (by omega) hm0 hm1 hn0 hn1 k)

include hg hp hm0 hm1 hn0 hn1 hr0 hr1 in
theorem br_results (hne0 : r0 ≠ empty) (hne1 : r1 ≠ empty) : (br p r0 r1).Canonical ∧
    ∀ k, find k (br p r0 r1) = g k ((m0 k).or (m1 k)) ((n0 k).or (n1 k)) := by
  have h0 := result_region hg hm0 hn0 hr0
  have h1 := result_region' hg hm1 hn1 hr1
  obtain ⟨hc,hf⟩ := br_represents hp hr0.1 hr1.1 h0 h1 hne0 hne1
  refine ⟨hc,?_⟩
  intro k
  rw [hf,hr0.2,hr1.2]
  exact or_combine (hg k) (none_of_regions (by omega) hm0 hm1 hn0 hn1 k)

end results

end Tree

end FramaC.Qed.Intmap

/-! ## Operations on two trees

Intersection, union and merge against the operations on maps, inclusion and overlap against the bindings.
-/
namespace FramaC.Qed.Intmap

open CommonPrefix

namespace Tree

variable {α β γ : Type}

def interMap (phi : α → β → Option γ) (a : Option α) (b : Option β) : Option γ := a.bind fun x => b.bind (phi x)

def mergeMap (phi : Option α → Option β → Option γ) : Option α → Option β → Option γ
  | none,none => none
  | a,b => phi a b

@[simp] theorem interMap_none (phi : α → β → Option γ) (a : Option α) : interMap phi a none = none := by
  cases a with
  | none => rfl
  | some x => rfl

theorem elim_lfOpt (phi : α → Option γ) (i : Key) (o : Option α) :
    (o.elim empty fun x => lfOpt i (phi x)) = lfOpt i (o.bind phi) := by
  cases o with
  | none => rfl
  | some x => rfl

theorem lfOpt_find_eq {i : Key} {o : Option α} {m : Key → Option α} (hi : m i = o) (hm : ∀ k, k ≠ i → m k = none) :
    (lfOpt i o).Canonical ∧ ∀ k, find k (lfOpt i o) = m k := by
  refine ⟨(lfOpt_represents i o).1,?_⟩
  intro k
  rw [(lfOpt_represents i o).2]
  by_cases hk : k = i
  · rw [if_pos hk,hk,hi]
  · rw [if_neg hk,hm k hk]

theorem find_lf_ne {k i : Key} (x : α) (h : k ≠ i) : find k (lf i x) = none := by
  rw [find_lf,if_neg h]

theorem find_lf_self (i : Key) (x : α) : find i (lf i x) = some x := by
  rw [find_lf,if_pos rfl]

section inter

variable (phi : Key → α → β → Option γ)

section cases

variable {phi} {p : Key} {i : ℕ} {s0 s1 : Tree α} {q : Key} {j : ℕ} {t0 t1 : Tree β} (hs : Children p i s0 s1)
  (ht : Children q j t0 t1) {r0 r1 : Tree γ}

include hs ht

theorem inter_insideLeft (phi : Key → α → β → Option γ) (hinc : includedPrefix p q = true)
    (h0 : r0.Canonical ∧ ∀ k, find k r0 = interMap (phi k) (find k s0) (find k (br q t0 t1)))
    (h1 : r1.Canonical ∧ ∀ k, find k r1 = interMap (phi k) (find k s1) (find k (br q t0 t1))) :
    (if zeroBit q p then r0 else r1).Canonical ∧ ∀ k, find k (if zeroBit q p then r0 else r1) =
      interMap (phi k) (find k (br p s0 s1)) (find k (br q t0 t1)) := by
  obtain ⟨hzero,hone⟩ := hs.included ht hinc
  by_cases hz : zeroBit q p = true
  · rw [if_pos hz]
    refine ⟨h0.1,?_⟩
    intro k
    rw [h0.2,hs.find_eq]
    obtain ⟨hn,htn⟩ | ⟨hn,_⟩ :=
      none_of_regions (by omega) hs.region0 hs.region1 (hzero hz) (region_none (α := β) i _) k
    · rw [htn,interMap_none,interMap_none]
    · rw [hn,Option.or_none]
  · rw [if_neg hz]
    refine ⟨h1.1,?_⟩
    intro k
    rw [h1.2,hs.find_eq]
    obtain ⟨hn,_⟩ | ⟨hn,htn⟩ :=
      none_of_regions (by omega) hs.region0 hs.region1 (region_none (α := β) i _) (hone hz) k
    · rw [hn,Option.none_or]
    · rw [htn,interMap_none,interMap_none]

theorem inter_insideRight (phi : Key → α → β → Option γ) (hinc : includedPrefix q p = true)
    (h0 : r0.Canonical ∧ ∀ k, find k r0 = interMap (phi k) (find k (br p s0 s1)) (find k t0))
    (h1 : r1.Canonical ∧ ∀ k, find k r1 = interMap (phi k) (find k (br p s0 s1)) (find k t1)) :
    (if zeroBit p q then r0 else r1).Canonical ∧ ∀ k, find k (if zeroBit p q then r0 else r1) =
      interMap (phi k) (find k (br p s0 s1)) (find k (br q t0 t1)) := by
  obtain ⟨hzero,hone⟩ := ht.included hs hinc
  by_cases hz : zeroBit p q = true
  · rw [if_pos hz]
    refine ⟨h0.1,?_⟩
    intro k
    rw [h0.2,ht.find_eq]
    obtain ⟨hn,hsn⟩ | ⟨hn,_⟩ :=
      none_of_regions (by omega) ht.region0 ht.region1 (hzero hz) (region_none (α := α) j _) k
    · rw [hsn]
      rfl
    · rw [hn,Option.or_none]
  · rw [if_neg hz]
    refine ⟨h1.1,?_⟩
    intro k
    rw [h1.2,ht.find_eq]
    obtain ⟨hn,_⟩ | ⟨hn,hsn⟩ :=
      none_of_regions (by omega) ht.region0 ht.region1 (region_none (α := α) j _) (hone hz) k
    · rw [hn,Option.none_or]
    · rw [hsn]
      rfl

theorem inter_outside (phi : Key → α → β → Option γ) (hne : p ≠ q) (hinc : ¬ includedPrefix p q = true)
    (hinc' : ¬ includedPrefix q p = true) : (empty : Tree γ).Canonical ∧ ∀ k, find k (empty : Tree γ) =
      interMap (phi k) (find k (br p s0 s1)) (find k (br q t0 t1)) := by
  refine ⟨trivial,?_⟩
  intro k
  obtain h | h := (hs.apart_of_not_included ht hne hinc hinc').none_or k
  · rw [h]
    rfl
  · rw [h,interMap_none,find_empty]

end cases

theorem interi_empty_right (f : Key → α → β → Tree γ) (s : Tree α) : interi f s empty = empty := by
  cases s with
  | empty => rw [interi]
  | lf i x => rw [interi]; simp
  | br p s0 s1 => rw [interi]; simp

theorem interi_spec {s : Tree α} {t : Tree β} (hs : s.Canonical) (ht : t.Canonical) :
    (interi (fun i x y => lfOpt i (phi i x y)) s t).Canonical ∧
      ∀ k, find k (interi (fun i x y => lfOpt i (phi i x y)) s t) = interMap (phi k) (find k s) (find k t) := by
  have hg : ∀ k, interMap (phi k) none none = none := fun k => rfl
  refine pair_induction (motive := fun s t => (interi (fun i x y => lfOpt i (phi i x y)) s t).Canonical ∧
      ∀ k, find k (interi (fun i x y => lfOpt i (phi i x y)) s t) = interMap (phi k) (find k s) (find k t))
    ?emptyLeft ?emptyRight ?leaves ?leafLeft ?leafRight ?same ?insideLeft ?insideRight ?outside s t hs ht
  case emptyLeft =>
    intro t ht
    rw [interi]
    exact ⟨trivial,fun k => rfl⟩
  case emptyRight =>
    intro s hs
    rw [interi_empty_right]
    exact ⟨trivial,fun k => (interMap_none _ _).symm⟩
  case leaves =>
    intro i x j y
    rw [interi]
    by_cases hij : i = j
    · subst hij
      rw [if_pos rfl]
      apply lfOpt_find_eq
      · rw [find_lf_self,find_lf_self]
        rfl
      · intro k hk
        rw [find_lf_ne x hk]
        rfl
    · rw [if_neg hij]
      refine ⟨trivial,?_⟩
      intro k
      by_cases hk : k = i
      · rw [hk,find_lf_ne y hij,interMap_none,find_empty]
      · rw [find_lf_ne x hk]
        rfl
  case leafLeft =>
    intro i x q j t0 t1 ht ih0 ih1
    rw [interi,elim_lfOpt]
    apply lfOpt_find_eq
    · rw [find_lf_self]
      rfl
    · intro k hk
      rw [find_lf_ne x hk]
      rfl
  case leafRight =>
    intro j y p i s0 s1 hs ih0 ih1
    rw [interi,elim_lfOpt]
    apply lfOpt_find_eq
    · rw [find_lf_self]
      rfl
    · intro k hk
      rw [find_lf_ne y hk,interMap_none]
  case same =>
    intro p i s0 s1 t0 t1 hs ht ih0 ih1
    rw [interi,if_pos rfl]
    obtain ⟨hc,hf⟩ := glue_results hg hs.region0 hs.region1 ht.region0 ht.region1 ih0 ih1
    exact ⟨hc,fun k => by rw [hf,hs.find_eq,ht.find_eq]⟩
  case insideLeft =>
    intro p i s0 s1 q j t0 t1 hs ht hne hinc ih0 ih1
    rw [interi,if_neg hne,if_pos hinc]
    exact inter_insideLeft hs ht phi hinc ih0 ih1
  case insideRight =>
    intro p i s0 s1 q j t0 t1 hs ht hne hinc hinc' ih0 ih1
    rw [interi,if_neg hne,if_neg hinc,if_pos hinc']
    exact inter_insideRight hs ht phi hinc' ih0 ih1
  case outside =>
    intro p i s0 s1 q j t0 t1 hs ht hne hinc hinc'
    rw [interi,if_neg hne,if_neg hinc,if_neg hinc']
    exact inter_outside hs ht phi hne hinc hinc'

end inter

section interq

variable (sh : Sharing α) (phi : Key → α → α → Option α)

theorem lfq_eq (i : Key) (x y : α) : lfq sh phi i x y (lf i x) (lf i y) = lfOpt i (phi i x y) := by
  unfold lfq
  cases phi i x y with
  | none => rfl
  | some w =>
    simp only [lfOpt]
    by_cases hx : sh.value w x = true
    · rw [if_pos hx,sh.value_eq hx]
    · rw [if_neg hx]
      by_cases hy : sh.value w y = true
      · rw [if_pos hy,sh.value_eq hy]
      · rw [if_neg hy]

theorem occur0_eq (i : Key) (x : α) (t : Tree α) :
    occur0 sh phi i x (lf i x) t = lfOpt i ((find i t).bind (phi i x)) := by
  rw [occur0,findq_eq]
  cases find i t with
  | none => rfl
  | some y => exact lfq_eq sh phi i x y

theorem occur1_eq (j : Key) (y : α) (s : Tree α) :
    occur1 sh phi j y s (lf j y) = lfOpt j ((find j s).bind fun x => phi j x y) := by
  rw [occur1,findq_eq]
  cases find j s with
  | none => rfl
  | some x => exact lfq_eq sh phi j x y

theorem glue2_spec {p : Key} {i : ℕ} {s0 s1 t0 t1 r0 r1 : Tree α} (hs : Children p i s0 s1) (ht : Children p i t0 t1)
    (hg : (glue r0 r1).Canonical ∧ ∀ k, find k (glue r0 r1) = (find k r0).or (find k r1)) :
    (glue2 sh r0 r1 s0 s1 (br p s0 s1) t0 t1 (br p t0 t1)).Canonical ∧
      ∀ k, find k (glue2 sh r0 r1 s0 s1 (br p s0 s1) t0 t1 (br p t0 t1)) = (find k r0).or (find k r1) := by
  unfold glue2
  by_cases hsame : (sh.tree r0 t0 && sh.tree r1 t1) = true
  · obtain ⟨h0,h1⟩ := Bool.and_eq_true_iff.1 hsame
    rw [if_pos hsame,sh.tree_eq h0,sh.tree_eq h1]
    exact ⟨ht.canonical,ht.find_eq⟩
  · rw [if_neg hsame]
    by_cases hsame' : (sh.tree r0 s0 && sh.tree r1 s1) = true
    · obtain ⟨h0,h1⟩ := Bool.and_eq_true_iff.1 hsame'
      rw [if_pos hsame',sh.tree_eq h0,sh.tree_eq h1]
      exact ⟨hs.canonical,hs.find_eq⟩
    · rw [if_neg hsame']
      exact hg

theorem interq_empty_right (s : Tree α) : interq sh phi s empty = empty := by
  cases s with
  | empty => rw [interq]
  | lf i x => rw [interq]; simp
  | br p s0 s1 => rw [interq]; simp

theorem interq_spec {s t : Tree α} (hs : s.Canonical) (ht : t.Canonical) :
    (interq sh phi s t).Canonical ∧ ∀ k, find k (interq sh phi s t) = interMap (phi k) (find k s) (find k t) := by
  have hg : ∀ k, interMap (phi k) none none = none := fun k => rfl
  refine pair_induction (motive := fun s t => (interq sh phi s t).Canonical ∧
      ∀ k, find k (interq sh phi s t) = interMap (phi k) (find k s) (find k t))
    ?emptyLeft ?emptyRight ?leaves ?leafLeft ?leafRight ?same ?insideLeft ?insideRight ?outside s t hs ht
  case emptyLeft =>
    intro t ht
    rw [interq]
    exact ⟨trivial,fun k => rfl⟩
  case emptyRight =>
    intro s hs
    rw [interq_empty_right]
    exact ⟨trivial,fun k => (interMap_none _ _).symm⟩
  case leaves =>
    intro i x j y
    rw [interq]
    by_cases hij : i = j
    · subst hij
      rw [if_pos rfl,lfq_eq]
      apply lfOpt_find_eq
      · rw [find_lf_self,find_lf_self]
        rfl
      · intro k hk
        rw [find_lf_ne x hk]
        rfl
    · rw [if_neg hij]
      refine ⟨trivial,?_⟩
      intro k
      by_cases hk : k = i
      · rw [hk,find_lf_ne y hij,interMap_none,find_empty]
      · rw [find_lf_ne x hk]
        rfl
  case leafLeft =>
    intro i x q j t0 t1 ht ih0 ih1
    rw [interq,occur0_eq]
    apply lfOpt_find_eq
    · rw [find_lf_self]
      rfl
    · intro k hk
      rw [find_lf_ne x hk]
      rfl
  case leafRight =>
    intro j y p i s0 s1 hs ih0 ih1
    rw [interq,occur1_eq]
    apply lfOpt_find_eq
    · rw [find_lf_self]
      rfl
    · intro k hk
      rw [find_lf_ne y hk,interMap_none]
  case same =>
    intro p i s0 s1 t0 t1 hs ht ih0 ih1
    rw [interq,if_pos rfl]
    have h0 := result_region hg hs.region0 ht.region0 ih0
    have h1 := result_region' hg hs.region1 ht.region1 ih1
    obtain ⟨hc,hf⟩ := glue2_spec sh hs ht (glue_spec ih0.1 ih1.1 (apart_children h0 h1))
    refine ⟨hc,?_⟩
    intro k
    rw [hf,ih0.2,ih1.2,hs.find_eq,ht.find_eq]
    exact or_combine (hg k) (none_of_regions (by omega) hs.region0 hs.region1 ht.region0 ht.region1 k)
  case insideLeft =>
    intro p i s0 s1 q j t0 t1 hs ht hne hinc ih0 ih1
    rw [interq,if_neg hne,if_pos hinc]
    exact inter_insideLeft hs ht phi hinc ih0 ih1
  case insideRight =>
    intro p i s0 s1 q j t0 t1 hs ht hne hinc hinc' ih0 ih1
    rw [interq,if_neg hne,if_neg hinc,if_pos hinc']
    exact inter_insideRight hs ht phi hinc' ih0 ih1
  case outside =>
    intro p i s0 s1 q j t0 t1 hs ht hne hinc hinc'
    rw [interq,if_neg hne,if_neg hinc,if_neg hinc']
    exact inter_outside hs ht phi hne hinc hinc'

end interq

end Tree

end FramaC.Qed.Intmap
