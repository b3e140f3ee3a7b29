import FramaC.Qed.Intmap.Bits

/-! # Canonical trees

A canonical tree is read through `find`. The region of a number `u` at level `i` is made of the keys whose quotient by
`2 ^ i` is `u`; a branch at bit `i` puts together two trees of neighbouring regions of that level.
-/
namespace FramaC.Qed.Intmap

open CommonPrefix

def InRegion {α : Type} (i u : ℕ) (m : Key → Option α) : Prop := ∀ k x, m k = some x → k.toNat / 2 ^ i = u

def Apart {α β : Type} (m : Key → Option α) (n : Key → Option β) : Prop :=
  ∃ i u v, u ≠ v ∧ InRegion i u m ∧ InRegion i v n

theorem InRegion.eq_none {α : Type} {i u : ℕ} {m : Key → Option α} (h : InRegion i u m) {k : Key}
    (hk : k.toNat / 2 ^ i ≠ u) : m k = none := by
  cases hm : m k with
  | none => rfl
  | some x => exact absurd (h k x hm) hk

theorem InRegion.mono {α : Type} {i j u : ℕ} {m : Key → Option α} (h : InRegion i u m) (hij : i ≤ j) {a : ℕ}
    (ha : a / 2 ^ i = u) : InRegion j (a / 2 ^ j) m := by
  intro k x hk
  exact div_pow_mono hij ((h k x hk).trans ha.symm)

theorem Apart.none_or {α β : Type} {m : Key → Option α} {n : Key → Option β} (h : Apart m n) (k : Key) :
    m k = none ∨ n k = none := by
  obtain ⟨i,u,v,hne,hm,hn⟩ := h
  by_cases hk : k.toNat / 2 ^ i = u
  · exact Or.inr (hn.eq_none (fun hv => hne (hk.symm.trans hv)))
  · exact Or.inl (hm.eq_none hk)

namespace Tree

variable {α β γ : Type}

@[simp] theorem find_empty (k : Key) : find k (empty : Tree α) = none := rfl

@[simp] theorem find_lf (k i : Key) (x : α) : find k (lf i x) = if k = i then some x else none := by
  unfold find findq
  split <;> rfl

theorem find_br (k p : Key) (t0 t1 : Tree α) :
    find k (br p t0 t1) = if matchPrefix k p then (if zeroBit k p then find k t0 else find k t1) else none := by
  unfold find
  rw [findq]
  split
  · split <;> rfl
  · rfl

theorem findq_eq (k : Key) (t : Tree α) : findq k t = (find k t).map fun x => (x,lf k x) := by
  induction t with
  | empty => rfl
  | lf i x =>
    rw [find_lf,findq]
    by_cases hk : k = i
    · rw [if_pos hk,if_pos hk,hk]
      rfl
    · rw [if_neg hk,if_neg hk]
      rfl
  | br p t0 t1 ih0 ih1 =>
    rw [find_br,findq]
    split
    · split
      · exact ih0
      · exact ih1
    · rfl

theorem mem_bindings_of_find {k : Key} {x : α} {t : Tree α} (h : find k t = some x) : (k,x) ∈ t.bindings := by
  induction t with
  | empty => cases h
  | lf i y =>
    rw [find_lf] at h
    split at h
    · rename_i hk
      cases h
      rw [hk]
      exact List.mem_cons_self
    · cases h
  | br p t0 t1 ih0 ih1 =>
    rw [find_br] at h
    rw [bindings,List.mem_append]
    split at h
    · split at h
      · exact Or.inl (ih0 h)
      · exact Or.inr (ih1 h)
    · cases h

theorem side_iff {p k : Key} {i : ℕ} :
    (k.toNat / 2 ^ (i + 1) = p.toNat / 2 ^ (i + 1) ∧ k.getLsbD i = false) ↔
      k.toNat / 2 ^ i = 2 * (p.toNat / 2 ^ (i + 1)) := by
  rw [getLsbD_eq_mod,decide_eq_false_iff_not,div_succ k.toNat]
  omega

theorem side_iff' {p k : Key} {i : ℕ} :
    (k.toNat / 2 ^ (i + 1) = p.toNat / 2 ^ (i + 1) ∧ k.getLsbD i = true) ↔
      k.toNat / 2 ^ i = 2 * (p.toNat / 2 ^ (i + 1)) + 1 := by
  rw [getLsbD_eq_mod,decide_eq_true_iff,div_succ k.toNat]
  omega

theorem find_br_or {p : Key} {i : ℕ} (hp : LowestZero p i) {t0 t1 : Tree α}
    (h0 : InRegion i (2 * (p.toNat / 2 ^ (i + 1))) (find · t0))
    (h1 : InRegion i (2 * (p.toNat / 2 ^ (i + 1)) + 1) (find · t1)) (k : Key) :
    find k (br p t0 t1) = (find k t0).or (find k t1) := by
  rw [find_br]
  have hz := zeroBit_iff hp k
  have hm := matchPrefix_iff hp k
  have hd := div_succ k.toNat i
  by_cases hmatch : matchPrefix k p = true
  · rw [if_pos hmatch]
    have hq := hm.1 hmatch
    by_cases hzero : zeroBit k p = true
    · rw [if_pos hzero,h1.eq_none (k := k) (by have := hz.1 hzero; omega),Option.or_none]
    · have hne : ¬ k.toNat / 2 ^ i = 2 * (k.toNat / 2 ^ (i + 1)) := fun h => hzero (hz.2 h)
      rw [if_neg hzero,h0.eq_none (k := k) (by omega),Option.none_or]
  · have hne : ¬ k.toNat / 2 ^ (i + 1) = p.toNat / 2 ^ (i + 1) := fun h => hmatch (hm.2 h)
    rw [if_neg hmatch,h0.eq_none (k := k) (by omega),h1.eq_none (k := k) (by omega)]
    rfl

theorem find_of_mem_bindings {t : Tree α} (ht : t.Canonical) {k : Key} {x : α} (h : (k,x) ∈ t.bindings) :
    find k t = some x := by
  induction t with
  | empty => cases h
  | lf i y =>
    have heq := List.mem_singleton.1 h
    cases heq
    rw [find_lf,if_pos rfl]
  | br p t0 t1 ih0 ih1 =>
    obtain ⟨hne0,hne1,hc0,hc1,i,hp,h0,h1⟩ := ht
    rw [find_br]
    obtain h | h := List.mem_append.1 h
    · obtain ⟨hq,hbit⟩ := h0 _ h
      have hd := (side_iff).1 ⟨hq,hbit⟩
      rw [if_pos ((matchPrefix_iff hp k).2 hq),if_pos ((zeroBit_iff hp k).2 (by rw [hd,hq])),ih0 hc0 h]
    · have hq : k.toNat / 2 ^ (i + 1) = p.toNat / 2 ^ (i + 1) := (h1 _ h).1
      have hd : k.toNat / 2 ^ i = 2 * (p.toNat / 2 ^ (i + 1)) + 1 := (side_iff').1 (h1 _ h)
      have hzero : ¬ zeroBit k p = true := fun hz => by
        have hz := (zeroBit_iff hp k).1 hz
        omega
      rw [if_pos ((matchPrefix_iff hp k).2 hq),if_neg hzero,ih1 hc1 h]

theorem find_iff_mem_bindings {t : Tree α} (ht : t.Canonical) {k : Key} {x : α} :
    find k t = some x ↔ (k,x) ∈ t.bindings := ⟨mem_bindings_of_find,find_of_mem_bindings ht⟩

theorem canonical_br_iff {p : Key} {t0 t1 : Tree α} : (br p t0 t1).Canonical ↔
    t0 ≠ empty ∧ t1 ≠ empty ∧ t0.Canonical ∧ t1.Canonical ∧ ∃ i, LowestZero p i ∧
      InRegion i (2 * (p.toNat / 2 ^ (i + 1))) (find · t0) ∧
      InRegion i (2 * (p.toNat / 2 ^ (i + 1)) + 1) (find · t1) := by
  constructor
  · rintro ⟨hne0,hne1,hc0,hc1,i,hp,h0,h1⟩
    refine ⟨hne0,hne1,hc0,hc1,i,hp,?_,?_⟩
    · intro k x hk
      exact (side_iff).1 (h0 _ (mem_bindings_of_find hk))
    · intro k x hk
      exact (side_iff').1 (h1 _ (mem_bindings_of_find hk))
  · rintro ⟨hne0,hne1,hc0,hc1,i,hp,h0,h1⟩
    refine ⟨hne0,hne1,hc0,hc1,i,hp,?_,?_⟩
    · intro b hb
      exact (side_iff).2 (h0 b.1 b.2 (find_of_mem_bindings hc0 hb))
    · intro b hb
      exact (side_iff').2 (h1 b.1 b.2 (find_of_mem_bindings hc1 hb))

theorem exists_find {t : Tree α} (ht : t.Canonical) (hne : t ≠ empty) : ∃ k x, find k t = some x := by
  induction t with
  | empty => exact absurd rfl hne
  | lf i x => exact ⟨i,x,by rw [find_lf,if_pos rfl]⟩
  | br p t0 t1 ih0 ih1 =>
    obtain ⟨hne0,hne1,hc0,hc1,i,hp,h0,h1⟩ := (canonical_br_iff).1 ht
    obtain ⟨k,x,hk⟩ := ih0 hc0 hne0
    refine ⟨k,x,?_⟩
    rw [find_br_or hp h0 h1,hk]
    rfl

theorem top_region {t : Tree α} (ht : t.Canonical) (hne : t ≠ empty) {j u : ℕ} (h : InRegion j u (find · t)) :
    t.top.toNat / 2 ^ j = u := by
  cases t with
  | empty => exact absurd rfl hne
  | lf i x =>
    exact h i x (by simp)
  | br p t0 t1 =>
    obtain ⟨hne0,hne1,hc0,hc1,i,hp,h0,h1⟩ := (canonical_br_iff).1 ht
    obtain ⟨k0,x0,hk0⟩ := exists_find hc0 hne0
    obtain ⟨k1,x1,hk1⟩ := exists_find hc1 hne1
    have hr0 := h0 k0 x0 hk0
    have hr1 := h1 k1 x1 hk1
    have hu0 := h k0 x0 (by simp only [find_br_or hp h0 h1,hk0]; rfl)
    have hn0 : find k1 t0 = none := h0.eq_none (by omega)
    have hu1 := h k1 x1 (by simp only [find_br_or hp h0 h1,hn0,hk1]; rfl)
    have hij : i + 1 ≤ j := by
      by_contra hle
      have heq := div_pow_mono (Nat.le_of_lt_succ (Nat.lt_of_not_le hle)) (hu0.trans hu1.symm)
      omega
    have hd := div_succ k0.toNat i
    exact (div_pow_mono hij (show p.toNat / 2 ^ (i + 1) = k0.toNat / 2 ^ (i + 1) by omega)).trans hu0

theorem region_top {t : Tree α} (ht : t.Canonical) {j u : ℕ} (hne : t ≠ empty) (h : InRegion j u (find · t)) {b : ℕ}
    (hjb : j ≤ b) : InRegion b (t.top.toNat / 2 ^ b) (find · t) :=
  h.mono hjb (top_region ht hne h)

theorem join_spec {t0 t1 : Tree α} (hc0 : t0.Canonical) (hc1 : t1.Canonical) (hne0 : t0 ≠ empty) (hne1 : t1 ≠ empty)
    (h : Apart (find · t0) (find · t1)) :
    (join t0.top t0 t1.top t1).Canonical ∧
      ∀ k, find k (join t0.top t0 t1.top t1) = (find k t0).or (find k t1) := by
  have hor := h.none_or
  obtain ⟨j,u,v,huv,hu,hv⟩ := h
  have hne : t0.top ≠ t1.top := by
    intro heq
    apply huv
    rw [← top_region hc0 hne0 hu,← top_region hc1 hne1 hv,heq]
  obtain ⟨b,hb,hbit,hagree,hdiff⟩ := branchingBit_eq hne
  have hjb : j ≤ b := by
    by_contra hlt
    apply huv
    rw [← top_region hc0 hne0 hu,← top_region hc1 hne1 hv]
    exact div_pow_mono (by omega) hagree
  have hr0 := region_top hc0 hne0 hu hjb
  have hr1 := region_top hc1 hne1 hv hjb
  have hp := lowestZero_mask hb t0.top
  have hdiv := mask_div hb t0.top
  have hd0 := div_succ t0.top.toNat b
  have hd1 := div_succ t1.top.toNat b
  have hz := zeroBit_iff hp t0.top
  unfold join
  simp only [hbit]
  by_cases hzero : zeroBit t0.top (mask t0.top (BitVec.twoPow 63 b)) = true
  · have hzero' := hz.1 hzero
    rw [if_pos hzero]
    rw [hzero'] at hr0
    rw [show t1.top.toNat / 2 ^ b = 2 * (t0.top.toNat / 2 ^ (b + 1)) + 1 by omega] at hr1
    rw [← hdiv] at hr0 hr1
    exact ⟨(canonical_br_iff).2 ⟨hne0,hne1,hc0,hc1,b,hp,hr0,hr1⟩,find_br_or hp hr0 hr1⟩
  · have hzero' : ¬ t0.top.toNat / 2 ^ b = 2 * (t0.top.toNat / 2 ^ (b + 1)) := fun h => hzero (hz.2 h)
    rw [if_neg hzero]
    rw [show t1.top.toNat / 2 ^ b = 2 * (t0.top.toNat / 2 ^ (b + 1)) by omega] at hr1
    rw [show t0.top.toNat / 2 ^ b = 2 * (t0.top.toNat / 2 ^ (b + 1)) + 1 by omega] at hr0
    rw [← hdiv] at hr0 hr1
    refine ⟨(canonical_br_iff).2 ⟨hne1,hne0,hc1,hc0,b,hp,hr1,hr0⟩,?_⟩
    intro k
    rw [find_br_or hp hr1 hr0]
    obtain hk | hk := hor k
    · rw [hk,Option.or_none,Option.none_or]
    · rw [hk,Option.or_none,Option.none_or]

theorem glue_spec {t0 t1 : Tree α} (hc0 : t0.Canonical) (hc1 : t1.Canonical) (h : Apart (find · t0) (find · t1)) :
    (glue t0 t1).Canonical ∧ ∀ k, find k (glue t0 t1) = (find k t0).or (find k t1) := by
  cases t0 with
  | empty => exact ⟨by rw [glue]; exact hc1,fun k => by rw [glue,find_empty,Option.none_or]⟩
  | lf i x =>
    cases t1 with
    | empty => exact ⟨by rw [glue]; exact hc0; simp,fun k => by rw [glue,find_empty,Option.or_none]; simp⟩
    | lf j y => exact join_spec hc0 hc1 (by simp) (by simp) h
    | br q s0 s1 => exact join_spec hc0 hc1 (by simp) (by simp) h
  | br p r0 r1 =>
    cases t1 with
    | empty => exact ⟨by rw [glue]; exact hc0; simp,fun k => by rw [glue,find_empty,Option.or_none]; simp⟩
    | lf j y => exact join_spec hc0 hc1 (by simp) (by simp) h
    | br q s0 s1 => exact join_spec hc0 hc1 (by simp) (by simp) h

end Tree

end FramaC.Qed.Intmap
