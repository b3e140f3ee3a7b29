import FramaC.Qed.Intmap.Canonical

/-! # Updates of one tree

`change` and the maps over a tree: the result is canonical and its lookups are those of the map it stands for.
-/
namespace FramaC.Qed.Intmap

open CommonPrefix

theorem InRegion.of_none {α β : Type} {i u : ℕ} {m : Key → Option α} {n : Key → Option β} (h : InRegion i u m)
    (himp : ∀ k, m k = none → n k = none) : InRegion i u n := by
  intro k y hy
  cases hm : m k with
  | none =>
    rw [himp k hm] at hy
    cases hy
  | some x => exact h k x hm

theorem Apart.of_none {α α' β β' : Type} {m : Key → Option α} {m' : Key → Option α'} {n : Key → Option β}
    {n' : Key → Option β'} (h : Apart m n) (hm : ∀ k, m k = none → m' k = none) (hn : ∀ k, n k = none → n' k = none) :
    Apart m' n' := by
  obtain ⟨i,u,v,hne,hu,hv⟩ := h
  exact ⟨i,u,v,hne,hu.of_none hm,hv.of_none hn⟩

theorem inRegion_singleton {α : Type} (k : Key) (x : α) (i : ℕ) :
    InRegion i (k.toNat / 2 ^ i) fun k' => Tree.find k' (Tree.lf k x) := by
  intro k' y hy
  simp only [Tree.find_lf] at hy
  split at hy
  · rename_i hk
    rw [hk]
  · cases hy

namespace Tree

variable {α β γ : Type}

theorem apart_children {p : Key} {i : ℕ} {t0 t1 : Tree α} (h0 : InRegion i (2 * (p.toNat / 2 ^ (i + 1))) (find · t0))
    (h1 : InRegion i (2 * (p.toNat / 2 ^ (i + 1)) + 1) (find · t1)) : Apart (find · t0) (find · t1) :=
  ⟨i,_,_,by omega,h0,h1⟩

theorem br_region {p : Key} {i : ℕ} (hp : LowestZero p i) (t0 t1 : Tree α) :
    InRegion (i + 1) (p.toNat / 2 ^ (i + 1)) (find · (br p t0 t1)) := by
  intro k x hk
  simp only [find_br] at hk
  split at hk
  · rename_i hm
    exact (matchPrefix_iff hp k).1 hm
  · cases hk

theorem represents_lf (k : Key) (x : α) :
    (lf k x).Canonical ∧ ∀ k', find k' (lf k x) = if k' = k then some x else none :=
  ⟨trivial,fun k' => find_lf k' k x⟩

theorem lfOpt_represents (k : Key) (o : Option α) :
    (lfOpt k o).Canonical ∧ ∀ k', find k' (lfOpt k o) = if k' = k then o else none := by
  cases o with
  | none => exact ⟨trivial,fun k' => by simp [lfOpt]⟩
  | some x => exact represents_lf k x

theorem lf0_eq (sh : Sharing α) (k : Key) (y : α) (o : Option α) : lf0 sh k y (lf k y) o = lfOpt k o := by
  cases o with
  | none => rfl
  | some x =>
    unfold lf0 lfOpt
    by_cases hx : sh.value x y = true
    · simp [sh.value_eq hx]
    · simp [hx]

section branch

variable {p : Key} {i : ℕ} (hp : LowestZero p i) {t0 t1 : Tree α} (hc0 : t0.Canonical) (hc1 : t1.Canonical)
  (h0 : InRegion i (2 * (p.toNat / 2 ^ (i + 1))) (find · t0))
  (h1 : InRegion i (2 * (p.toNat / 2 ^ (i + 1)) + 1) (find · t1))

include hp hc0 hc1 h0 h1 in
theorem br_represents (hne0 : t0 ≠ empty) (hne1 : t1 ≠ empty) :
    (br p t0 t1).Canonical ∧ ∀ k, find k (br p t0 t1) = (find k t0).or (find k t1) :=
  ⟨canonical_br_iff.2 ⟨hne0,hne1,hc0,hc1,i,hp,h0,h1⟩,find_br_or hp h0 h1⟩

include hp hc0 hc1 h0 h1 in
theorem br0_represents (sh : Sharing α) (hne1 : t1 ≠ empty) (t0' : Tree α) :
    (br0 sh p t0' t1 (br p t0' t1) t0).Canonical ∧
      ∀ k, find k (br0 sh p t0' t1 (br p t0' t1) t0) = (find k t0).or (find k t1) := by
  by_cases hne0 : t0 = empty
  · subst hne0
    exact ⟨hc1,fun k => by simp [br0]⟩
  · have heq : br0 sh p t0' t1 (br p t0' t1) t0 = br p t0 t1 := by
      cases t0 with
      | empty => exact absurd rfl hne0
      | lf k x =>
        simp only [br0]
        by_cases hs : sh.tree t0' (lf k x) = true
        · rw [if_pos hs,sh.tree_eq hs]
        · rw [if_neg hs]
      | br q s0 s1 =>
        simp only [br0]
        by_cases hs : sh.tree t0' (br q s0 s1) = true
        · rw [if_pos hs,sh.tree_eq hs]
        · rw [if_neg hs]
    rw [heq]
    exact br_represents hp hc0 hc1 h0 h1 hne0 hne1

include hp hc0 hc1 h0 h1 in
theorem br1_represents (sh : Sharing α) (hne0 : t0 ≠ empty) (t1' : Tree α) :
    (br1 sh p t0 t1' (br p t0 t1') t1).Canonical ∧
      ∀ k, find k (br1 sh p t0 t1' (br p t0 t1') t1) = (find k t0).or (find k t1) := by
  by_cases hne1 : t1 = empty
  · subst hne1
    exact ⟨hc0,fun k => by simp [br1]⟩
  · have heq : br1 sh p t0 t1' (br p t0 t1') t1 = br p t0 t1 := by
      cases t1 with
      | empty => exact absurd rfl hne1
      | lf k x =>
        simp only [br1]
        by_cases hs : sh.tree t1' (lf k x) = true
        · rw [if_pos hs,sh.tree_eq hs]
        · rw [if_neg hs]
      | br q s0 s1 =>
        simp only [br1]
        by_cases hs : sh.tree t1' (br q s0 s1) = true
        · rw [if_pos hs,sh.tree_eq hs]
        · rw [if_neg hs]
    rw [heq]
    exact br_represents hp hc0 hc1 h0 h1 hne0 hne1

end branch

theorem change_represents (sh : Sharing α) (phi : Key → β → Option α → Option α) (k : Key) (x : β) {t : Tree α}
    (ht : t.Canonical) :
    (change sh phi k x t).Canonical ∧
      ∀ k', find k' (change sh phi k x t) = if k' = k then phi k x (find k t) else find k' t := by
  induction t with
  | empty =>
    unfold change
    cases hphi : phi k x none with
    | none => exact ⟨trivial,fun k' => by simp [hphi]⟩
    | some w => exact ⟨trivial,fun k' => by simp [hphi]⟩
  | lf i y =>
    unfold change
    by_cases hik : i = k
    · rw [if_pos hik]
      subst hik
      rw [lf0_eq]
      refine ⟨(lfOpt_represents i _).1,?_⟩
      intro k'
      rw [(lfOpt_represents i _).2]
      by_cases hk' : k' = i <;> simp [hk']
    · rw [if_neg hik]
      have hmiss : find k (lf i y) = none := by
        rw [find_lf,if_neg (Ne.symm hik)]
      cases hphi : phi k x none with
      | none =>
        refine ⟨trivial,?_⟩
        intro k'
        by_cases hk' : k' = k
        · rw [if_pos hk',hk',hmiss,hphi]
        · rw [if_neg hk']
      | some w =>
        have hne : k.toNat / 2 ^ 0 ≠ i.toNat / 2 ^ 0 := by
          rw [pow_zero,Nat.div_one,Nat.div_one]
          exact fun h => hik (BitVec.eq_of_toNat_eq h).symm
        have hjoin := join_spec (show (lf k w).Canonical from trivial) (show (lf i y).Canonical from trivial) (by simp)
          (by simp)
          ⟨0,_,_,hne,inRegion_singleton k w 0,inRegion_singleton i y 0⟩
        refine ⟨hjoin.1,?_⟩
        intro k'
        refine (hjoin.2 k').trans ?_
        by_cases hk' : k' = k
        · rw [if_pos hk',hk',hmiss,hphi]
          simp
        · rw [if_neg hk',find_lf k' k w,if_neg hk',Option.none_or]
  | br p t0 t1 ih0 ih1 =>
    obtain ⟨hne0,hne1,hc0,hc1,i,hp,h0,h1⟩ := canonical_br_iff.1 ht
    have hor := find_br_or hp h0 h1
    have hd := div_succ k.toNat i
    unfold change
    by_cases hmatch : matchPrefix k p = true
    · rw [if_pos hmatch]
      have hq := (matchPrefix_iff hp k).1 hmatch
      by_cases hzero : zeroBit k p = true
      · rw [if_pos hzero]
        have hk := (zeroBit_iff hp k).1 hzero
        obtain ⟨hc0',hf0⟩ := ih0 hc0
        have hmiss : find k t1 = none := h1.eq_none (by omega)
        have h0' : InRegion i (2 * (p.toNat / 2 ^ (i + 1))) (find · (change sh phi k x t0)) := by
          intro k' y hy
          simp only [hf0] at hy
          by_cases hk' : k' = k
          · rw [hk',hk,hq]
          · rw [if_neg hk'] at hy
            exact h0 k' y hy
        obtain ⟨hc,hf⟩ := br0_represents hp hc0' hc1 h0' h1 sh hne1 t0
        refine ⟨hc,?_⟩
        intro k'
        rw [hf,hf0,hor,hor]
        by_cases hk' : k' = k
        · simp [hk',hmiss]
        · simp [hk']
      · rw [if_neg hzero]
        have hk : ¬ k.toNat / 2 ^ i = 2 * (k.toNat / 2 ^ (i + 1)) := fun h => hzero ((zeroBit_iff hp k).2 h)
        obtain ⟨hc1',hf1⟩ := ih1 hc1
        have hmiss : find k t0 = none := h0.eq_none (by omega)
        have h1' : InRegion i (2 * (p.toNat / 2 ^ (i + 1)) + 1) (find · (change sh phi k x t1)) := by
          intro k' y hy
          simp only [hf1] at hy
          by_cases hk' : k' = k
          · rw [hk']
            omega
          · rw [if_neg hk'] at hy
            exact h1 k' y hy
        obtain ⟨hc,hf⟩ := br1_represents hp hc0 hc1' h0 h1' sh hne0 t1
        refine ⟨hc,?_⟩
        intro k'
        rw [hf,hf1,hor,hor]
        by_cases hk' : k' = k
        · simp [hk',hmiss]
        · simp [hk']
    · rw [if_neg hmatch]
      have hq : k.toNat / 2 ^ (i + 1) ≠ p.toNat / 2 ^ (i + 1) := fun h => hmatch ((matchPrefix_iff hp k).2 h)
      have hreg := br_region hp t0 t1
      have hmiss : find k (br p t0 t1) = none := hreg.eq_none hq
      cases hphi : phi k x none with
      | none =>
        refine ⟨ht,?_⟩
        intro k'
        by_cases hk' : k' = k
        · rw [if_pos hk',hk',hmiss,hphi]
        · rw [if_neg hk']
      | some w =>
        have hjoin := join_spec (show (lf k w).Canonical from trivial) ht (by simp) (by simp)
          ⟨i + 1,_,_,hq,inRegion_singleton k w (i + 1),hreg⟩
        refine ⟨hjoin.1,?_⟩
        intro k'
        refine (hjoin.2 k').trans ?_
        by_cases hk' : k' = k
        · rw [if_pos hk',hk',hmiss,hphi]
          simp
        · rw [if_neg hk',find_lf k' k w,if_neg hk',Option.none_or]

theorem or_bind {a b : Option α} (h : a = none ∨ b = none) (f : α → Option β) :
    (a.bind f).or (b.bind f) = (a.or b).bind f := by
  obtain rfl | rfl := h
  · rfl
  · rw [Option.bind_none,Option.or_none,Option.or_none]

theorem mapf_represents (phi : Key → α → Option β) {t : Tree α} (ht : t.Canonical) :
    (mapf phi t).Canonical ∧ ∀ k, find k (mapf phi t) = (find k t).bind (phi k) := by
  induction t with
  | empty => exact ⟨trivial,fun k => rfl⟩
  | lf i x =>
    refine ⟨(lfOpt_represents i _).1,?_⟩
    intro k
    rw [mapf,(lfOpt_represents i _).2,find_lf]
    by_cases hk : k = i <;> simp [hk]
  | br p t0 t1 ih0 ih1 =>
    obtain ⟨hne0,hne1,hc0,hc1,i,hp,h0,h1⟩ := canonical_br_iff.1 ht
    obtain ⟨hd0,hf0⟩ := ih0 hc0
    obtain ⟨hd1,hf1⟩ := ih1 hc1
    have hap := apart_children h0 h1
    obtain ⟨hc,hf⟩ := glue_spec hd0 hd1 (hap.of_none (fun k hk => by simp only [hf0] at *; rw [hk]; rfl)
      (fun k hk => by simp only [hf1] at *; rw [hk]; rfl))
    refine ⟨hc,?_⟩
    intro k
    rw [mapf,hf,hf0,hf1,find_br_or hp h0 h1]
    exact or_bind (hap.none_or k) _

theorem glue01_represents (sh : Sharing α) {p : Key} {t0 t1 s0 s1 : Tree α} (ht : (br p t0 t1).Canonical)
    (hs0 : s0.Canonical) (hs1 : s1.Canonical) (h0 : ∀ k, find k t0 = none → find k s0 = none)
    (h1 : ∀ k, find k t1 = none → find k s1 = none) :
    (glue01 sh s0 s1 t0 t1 (br p t0 t1)).Canonical ∧
      ∀ k, find k (glue01 sh s0 s1 t0 t1 (br p t0 t1)) = (find k s0).or (find k s1) := by
  obtain ⟨hne0,hne1,hc0,hc1,i,hp,hr0,hr1⟩ := canonical_br_iff.1 ht
  unfold glue01
  by_cases hsame : (sh.tree s0 t0 && sh.tree s1 t1) = true
  · rw [if_pos hsame]
    obtain ⟨hsame0,hsame1⟩ := Bool.and_eq_true_iff.1 hsame
    rw [sh.tree_eq hsame0,sh.tree_eq hsame1]
    exact ⟨ht,find_br_or hp hr0 hr1⟩
  · rw [if_neg hsame]
    exact glue_spec hs0 hs1 ((apart_children hr0 hr1).of_none h0 h1)

theorem mapq_represents (sh : Sharing α) (phi : Key → α → Option α) {t : Tree α} (ht : t.Canonical) :
    (mapq sh phi t).Canonical ∧ ∀ k, find k (mapq sh phi t) = (find k t).bind (phi k) := by
  induction t with
  | empty => exact ⟨trivial,fun k => rfl⟩
  | lf i x =>
    rw [mapq,lf0_eq]
    refine ⟨(lfOpt_represents i _).1,?_⟩
    intro k
    rw [(lfOpt_represents i _).2,find_lf]
    by_cases hk : k = i <;> simp [hk]
  | br p t0 t1 ih0 ih1 =>
    obtain ⟨hne0,hne1,hc0,hc1,i,hp,h0,h1⟩ := canonical_br_iff.1 ht
    obtain ⟨hd0,hf0⟩ := ih0 hc0
    obtain ⟨hd1,hf1⟩ := ih1 hc1
    obtain ⟨hc,hf⟩ := glue01_represents sh ht hd0 hd1 (fun k hk => by rw [hf0,hk]; rfl)
      (fun k hk => by rw [hf1,hk]; rfl)
    refine ⟨hc,?_⟩
    intro k
    rw [mapq,hf,hf0,hf1,find_br_or hp h0 h1]
    exact or_bind ((apart_children h0 h1).none_or k) _

theorem bind_ite_eq_filter (f : α → Bool) (o : Option α) : (o.bind fun v => if f v then some v else none) = o.filter f := by
  cases o with
  | none => rfl
  | some v => by_cases hv : f v = true <;> simp [Option.filter,hv]

theorem filter_represents (sh : Sharing α) (f : Key → α → Bool) {t : Tree α} (ht : t.Canonical) :
    (filter sh f t).Canonical ∧ ∀ k, find k (filter sh f t) = (find k t).filter (f k) := by
  obtain ⟨hc,hf⟩ := mapq_represents sh (fun k v => if f k v then some v else none) ht
  refine ⟨hc,?_⟩
  intro k
  rw [filter,hf]
  exact bind_ite_eq_filter (f k) _

theorem or_filter {a b : Option α} (h : a = none ∨ b = none) (f : α → Bool) :
    (a.filter f).or (b.filter f) = (a.or b).filter f := by
  obtain rfl | rfl := h
  · rfl
  · rw [Option.filter_none,Option.or_none,Option.or_none]

theorem filter_not_eq_none {f : α → Bool} {o : Option α} (h : o.filter f = o) : (o.filter fun x => !f x) = none := by
  cases o with
  | none => rfl
  | some x =>
    by_cases hx : f x = true
    · simp [Option.filter,hx]
    · simp [Option.filter,hx] at h

theorem partition_represents (sh : Sharing α) (f : Key → α → Bool) {t : Tree α} (ht : t.Canonical) :
    ((partition sh f t).1.Canonical ∧ ∀ k, find k (partition sh f t).1 = (find k t).filter (f k)) ∧
      (partition sh f t).2.Canonical ∧ ∀ k, find k (partition sh f t).2 = (find k t).filter fun x => !f k x := by
  induction t with
  | empty => exact ⟨⟨trivial,fun k => rfl⟩,trivial,fun k => rfl⟩
  | lf i x =>
    unfold partition
    by_cases hx : f i x = true
    · rw [if_pos hx]
      refine ⟨⟨trivial,?_⟩,trivial,?_⟩
      · intro k
        by_cases hk : k = i <;> simp [hk,hx,Option.filter]
      · intro k
        by_cases hk : k = i <;> simp [hk,hx,Option.filter]
    · rw [if_neg hx]
      refine ⟨⟨trivial,?_⟩,trivial,?_⟩
      · intro k
        by_cases hk : k = i <;> simp [hk,hx,Option.filter]
      · intro k
        by_cases hk : k = i <;> simp [hk,hx,Option.filter]
  | br p t0 t1 ih0 ih1 =>
    obtain ⟨hne0,hne1,hc0,hc1,i,hp,h0,h1⟩ := canonical_br_iff.1 ht
    obtain ⟨⟨hd0,hf0⟩,he0,hg0⟩ := ih0 hc0
    obtain ⟨⟨hd1,hf1⟩,he1,hg1⟩ := ih1 hc1
    have hor := find_br_or hp h0 h1
    have hap := apart_children h0 h1
    have hglue := glue_spec hd0 hd1 (hap.of_none (fun k hk => by simp only [hf0] at *; rw [hk]; rfl)
      (fun k hk => by simp only [hf1] at *; rw [hk]; rfl))
    have hglue' := glue_spec he0 he1 (hap.of_none (fun k hk => by simp only [hg0] at *; rw [hk]; rfl)
      (fun k hk => by simp only [hg1] at *; rw [hk]; rfl))
    have hyes : ∀ k, ((find k t0).filter (f k)).or ((find k t1).filter (f k)) = (find k (br p t0 t1)).filter (f k) :=
      fun k => by rw [hor]; exact or_filter (hap.none_or k) _
    have hno : ∀ k, ((find k t0).filter fun x => !f k x).or ((find k t1).filter fun x => !f k x) =
        (find k (br p t0 t1)).filter fun x => !f k x :=
      fun k => by rw [hor]; exact or_filter (hap.none_or k) _
    rw [partition]
    by_cases hsame : (sh.tree (partition sh f t0).1 t0 && sh.tree (partition sh f t1).1 t1) = true
    · rw [if_pos hsame]
      obtain ⟨hs0,hs1⟩ := Bool.and_eq_true_iff.1 hsame
      rw [sh.tree_eq hs0] at hf0
      rw [sh.tree_eq hs1] at hf1
      refine ⟨⟨ht,?_⟩,he0,?_⟩
      · intro k
        rw [← hyes,← hf0,← hf1,hor]
      · intro k
        rw [← hno,hg0,filter_not_eq_none (hf1 k).symm,Option.or_none]
    · rw [if_neg hsame]
      by_cases hsame' : (sh.tree (partition sh f t0).2 t0 && sh.tree (partition sh f t1).2 t1) = true
      · rw [if_pos hsame']
        obtain ⟨hs0,hs1⟩ := Bool.and_eq_true_iff.1 hsame'
        rw [sh.tree_eq hs0] at hg0
        rw [sh.tree_eq hs1] at hg1
        have hnone : ∀ k, (find k t1).filter (f k) = none := fun k => by
          have hno := filter_not_eq_none (hg1 k).symm
          simpa using hno
        refine ⟨⟨hd0,?_⟩,ht,?_⟩
        · intro k
          rw [← hyes,hf0,hnone,Option.or_none]
        · intro k
          rw [← hno,← hg0,← hg1,hor]
      · rw [if_neg hsame']
        refine ⟨⟨hglue.1,?_⟩,hglue'.1,?_⟩
        · intro k
          rw [hglue.2,hf0,hf1,hyes]
        · intro k
          rw [hglue'.2,hg0,hg1,hno]

end Tree

end FramaC.Qed.Intmap
