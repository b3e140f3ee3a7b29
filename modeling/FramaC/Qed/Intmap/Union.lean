import FramaC.Qed.Intmap.Pairs

/-! # Union and merge

The keys of the result may come from either tree.
-/
namespace FramaC.Qed.Intmap

open CommonPrefix

namespace Tree

variable {α β γ : Type}

theorem result_ne_empty {r : Tree γ} {s : Tree α} (hs : s.Canonical) (hne : s ≠ empty)
    (h : ∀ k, find k s ≠ none → find k r ≠ none) : r ≠ empty := by
  rintro rfl
  obtain ⟨k,x,hk⟩ := exists_find hs hne
  apply h k
  · rw [hk]
    exact Option.some_ne_none x
  · rfl

section union

variable (sh : Sharing α) (phi : Key → α → α → α)

@[simp] theorem merge_none_left (f : α → α → α) (b : Option α) : Option.merge f none b = b := by
  cases b with
  | none => rfl
  | some y => rfl

@[simp] theorem merge_none_right (f : α → α → α) (a : Option α) : Option.merge f a none = a := by
  cases a with
  | none => rfl
  | some x => rfl

theorem merge_ne_none_left (f : α → α → α) {a : Option α} (b : Option α) (ha : a ≠ none) : Option.merge f a b ≠ none := by
  cases a with
  | none => exact absurd rfl ha
  | some x =>
    cases b with
    | none => exact Option.some_ne_none x
    | some y => exact Option.some_ne_none _

theorem merge_ne_none_right (f : α → α → α) (a : Option α) {b : Option α} (hb : b ≠ none) : Option.merge f a b ≠ none := by
  cases b with
  | none => exact absurd rfl hb
  | some y =>
    cases a with
    | none => exact Option.some_ne_none y
    | some x => exact Option.some_ne_none _

theorem lf_shared_eq (i : Key) (x y w : α) :
    (if sh.value w x then lf i x else if sh.value w y then lf i y else lf i w) = lf i w := by
  by_cases hx : sh.value w x = true
  · rw [if_pos hx,sh.value_eq hx]
  · rw [if_neg hx]
    by_cases hy : sh.value w y = true
    · rw [if_pos hy,sh.value_eq hy]
    · rw [if_neg hy]

theorem br0u_eq (p : Key) (t0' t1 t0 : Tree α) : br0u sh p t0' t1 (br p t0' t1) t0 = br p t0 t1 := by
  unfold br0u
  by_cases h : sh.tree t0' t0 = true
  · rw [if_pos h,sh.tree_eq h]
  · rw [if_neg h]

theorem br1u_eq (p : Key) (t0 t1' t1 : Tree α) : br1u sh p t0 t1' (br p t0 t1') t1 = br p t0 t1 := by
  unfold br1u
  by_cases h : sh.tree t1' t1 = true
  · rw [if_pos h,sh.tree_eq h]
  · rw [if_neg h]

theorem br2u_eq (p : Key) (s0 s1 t0 t1 r0 r1 : Tree α) :
    br2u sh p s0 s1 (br p s0 s1) t0 t1 (br p t0 t1) r0 r1 = br p r0 r1 := by
  unfold br2u
  by_cases h : (sh.tree s0 r0 && sh.tree s1 r1) = true
  · obtain ⟨h0,h1⟩ := Bool.and_eq_true_iff.1 h
    rw [if_pos h,sh.tree_eq h0,sh.tree_eq h1]
  · rw [if_neg h]
    by_cases h' : (sh.tree t0 r0 && sh.tree t1 r1) = true
    · obtain ⟨h0,h1⟩ := Bool.and_eq_true_iff.1 h'
      rw [if_pos h',sh.tree_eq h0,sh.tree_eq h1]
    · rw [if_neg h']

theorem insert_spec (f : Key → α → α → α) (k : Key) (x : α) {t : Tree α} (ht : t.Canonical) :
    (insert sh f k x t).Canonical ∧
      ∀ k', find k' (insert sh f k x t) = if k' = k then insertPhi f k x (find k t) else find k' t :=
  change_represents sh (fun _ x old => insertPhi f k x old) k x ht

theorem union_empty_right (s : Tree α) : union sh phi s empty = s := by
  cases s with
  | empty => rw [union]
  | lf i x => rw [union]; simp
  | br p s0 s1 => rw [union]; simp

theorem union_spec {s t : Tree α} (hs : s.Canonical) (ht : t.Canonical) :
    (union sh phi s t).Canonical ∧ ∀ k, find k (union sh phi s t) = Option.merge (phi k) (find k s) (find k t) := by
  have hg : ∀ k, Option.merge (phi k) none none = none := fun k => rfl
  refine pair_induction (motive := fun s t => (union sh phi s t).Canonical ∧
      ∀ k, find k (union sh phi s t) = Option.merge (phi k) (find k s) (find k t))
    ?emptyLeft ?emptyRight ?leaves ?leafLeft ?leafRight ?same ?insideLeft ?insideRight ?outside s t hs ht
  case emptyLeft =>
    intro t ht
    rw [union]
    exact ⟨ht,fun k => (merge_none_left _ _).symm⟩
  case emptyRight =>
    intro s hs
    rw [union_empty_right]
    exact ⟨hs,fun k => (merge_none_right _ _).symm⟩
  case leaves =>
    intro i x j y
    rw [union]
    by_cases hij : i = j
    · subst hij
      rw [if_pos rfl,lf_shared_eq]
      refine ⟨trivial,?_⟩
      intro k
      by_cases hk : k = i
      · subst hk
        rw [find_lf_self,find_lf_self,find_lf_self]
        rfl
      · rw [find_lf_ne _ hk,find_lf_ne _ hk,find_lf_ne _ hk]
        rfl
    · rw [if_neg hij]
      have hne : i.toNat / 2 ^ 0 ≠ j.toNat / 2 ^ 0 := by
        rw [pow_zero,Nat.div_one,Nat.div_one]
        exact fun h => hij (BitVec.eq_of_toNat_eq h)
      have hap : Apart (find · (lf i x)) (find · (lf j y)) :=
        ⟨0,_,_,hne,inRegion_singleton i x 0,inRegion_singleton j y 0⟩
      obtain ⟨hc,hf⟩ := join_spec (show (lf i x).Canonical from trivial)
        (show (lf j y).Canonical from trivial) (by simp) (by simp) hap
      refine ⟨hc,?_⟩
      intro k
      refine (hf k).trans ?_
      obtain h | h := hap.none_or k
      · rw [h,Option.none_or,merge_none_left]
      · rw [h,Option.or_none,merge_none_right]
  case leafLeft =>
    intro i x q j t0 t1 ht ih0 ih1
    rw [union]
    obtain ⟨hc,hf⟩ := insert_spec sh phi i x ht.canonical
    refine ⟨hc,?_⟩
    intro k
    rw [hf]
    by_cases hk : k = i
    · subst hk
      rw [if_pos rfl,find_lf_self]
      cases find k (br q t0 t1) with
      | none => rfl
      | some y => rfl
    · rw [if_neg hk,find_lf_ne _ hk,merge_none_left]
  case leafRight =>
    intro j y p i s0 s1 hs ih0 ih1
    rw [union]
    obtain ⟨hc,hf⟩ := insert_spec sh (fun j y x => phi j x y) j y hs.canonical
    refine ⟨hc,?_⟩
    intro k
    rw [hf]
    by_cases hk : k = j
    · subst hk
      rw [if_pos rfl,find_lf_self]
      cases find k (br p s0 s1) with
      | none => rfl
      | some y => rfl
    · rw [if_neg hk,find_lf_ne _ hk,merge_none_right]
  case same =>
    intro p i s0 s1 t0 t1 hs ht ih0 ih1
    rw [union,if_pos rfl,br2u_eq]
    have hne0 : union sh phi s0 t0 ≠ empty := result_ne_empty hs.canonical0 hs.ne0 fun k hk => by
      rw [ih0.2]
      exact merge_ne_none_left _ _ hk
    have hne1 : union sh phi s1 t1 ≠ empty := result_ne_empty hs.canonical1 hs.ne1 fun k hk => by
      rw [ih1.2]
      exact merge_ne_none_left _ _ hk
    obtain ⟨hc,hf⟩ := br_results hg hs.lowest hs.region0 hs.region1 ht.region0 ht.region1 ih0 ih1 hne0 hne1
    exact ⟨hc,fun k => by rw [hf,hs.find_eq,ht.find_eq]⟩
  case insideLeft =>
    intro p i s0 s1 q j t0 t1 hs ht hne hinc ih0 ih1
    rw [union,if_neg hne,if_pos hinc]
    obtain ⟨hzero,hone⟩ := hs.included ht hinc
    by_cases hz : zeroBit q p = true
    · rw [if_pos hz,br0u_eq]
      have hne0 : union sh phi s0 (br q t0 t1) ≠ empty := result_ne_empty hs.canonical0 hs.ne0 fun k hk => by
        rw [ih0.2]
        exact merge_ne_none_left _ _ hk
      obtain ⟨hc,hf⟩ := br_results hg hs.lowest hs.region0 hs.region1 (hzero hz) (region_none i _) ih0
        ⟨hs.canonical1,fun k => (merge_none_right (phi k) _).symm⟩ hne0 hs.ne1
      exact ⟨hc,fun k => by rw [hf,hs.find_eq,Option.or_none]⟩
    · rw [if_neg hz,br1u_eq]
      have hne1 : union sh phi s1 (br q t0 t1) ≠ empty := result_ne_empty hs.canonical1 hs.ne1 fun k hk => by
        rw [ih1.2]
        exact merge_ne_none_left _ _ hk
      obtain ⟨hc,hf⟩ := br_results hg hs.lowest hs.region0 hs.region1 (region_none i _) (hone hz)
        ⟨hs.canonical0,fun k => (merge_none_right (phi k) _).symm⟩ ih1 hs.ne0 hne1
      exact ⟨hc,fun k => by rw [hf,hs.find_eq,Option.none_or]⟩
  case insideRight =>
    intro p i s0 s1 q j t0 t1 hs ht hne hinc hinc' ih0 ih1
    rw [union,if_neg hne,if_neg hinc,if_pos hinc']
    obtain ⟨hzero,hone⟩ := ht.included hs hinc'
    by_cases hz : zeroBit p q = true
    · rw [if_pos hz,br0u_eq]
      have hne0 : union sh phi (br p s0 s1) t0 ≠ empty := result_ne_empty ht.canonical0 ht.ne0 fun k hk => by
        rw [ih0.2]
        exact merge_ne_none_right _ _ hk
      obtain ⟨hc,hf⟩ := br_results hg ht.lowest (hzero hz) (region_none j _) ht.region0 ht.region1 ih0
        ⟨ht.canonical1,fun k => (merge_none_left (phi k) _).symm⟩ hne0 ht.ne1
      exact ⟨hc,fun k => by rw [hf,ht.find_eq,Option.or_none]⟩
    · rw [if_neg hz,br1u_eq]
      have hne1 : union sh phi (br p s0 s1) t1 ≠ empty := result_ne_empty ht.canonical1 ht.ne1 fun k hk => by
        rw [ih1.2]
        exact merge_ne_none_right _ _ hk
      obtain ⟨hc,hf⟩ := br_results hg ht.lowest (region_none j _) (hone hz) ht.region0 ht.region1
        ⟨ht.canonical0,fun k => (merge_none_left (phi k) _).symm⟩ ih1 ht.ne0 hne1
      exact ⟨hc,fun k => by rw [hf,ht.find_eq,Option.none_or]⟩
  case outside =>
    intro p i s0 s1 q j t0 t1 hs ht hne hinc hinc'
    rw [union,if_neg hne,if_neg hinc,if_neg hinc']
    have hap := hs.apart_of_not_included ht hne hinc hinc'
    obtain ⟨hc,hf⟩ := join_spec hs.canonical ht.canonical (by simp) (by simp) hap
    refine ⟨hc,?_⟩
    intro k
    refine (hf k).trans ?_
    obtain h | h := hap.none_or k
    · rw [h,Option.none_or,merge_none_left]
    · rw [h,Option.or_none,merge_none_right]

end union

section merge

variable (phi : Key → Option α → Option β → Option γ)

theorem mergeMap_none_right (f : Option α → Option β → Option γ) (a : Option α) :
    (a.bind fun x => f (some x) none) = mergeMap f a none := by
  cases a with
  | none => rfl
  | some x => rfl

theorem mergeMap_none_left (f : Option α → Option β → Option γ) (b : Option β) :
    (b.bind fun y => f none (some y)) = mergeMap f none b := by
  cases b with
  | none => rfl
  | some y => rfl

theorem map1_spec {s : Tree α} (hs : s.Canonical) :
    (map1 phi s).Canonical ∧ ∀ k, find k (map1 phi s) = mergeMap (phi k) (find k s) none := by
  obtain ⟨hc,hf⟩ := mapf_represents (fun i x => phi i (some x) none) hs
  exact ⟨hc,fun k => (hf k).trans (mergeMap_none_right (phi k) _)⟩

theorem map2_spec {t : Tree β} (ht : t.Canonical) :
    (map2 phi t).Canonical ∧ ∀ k, find k (map2 phi t) = mergeMap (phi k) none (find k t) := by
  obtain ⟨hc,hf⟩ := mapf_represents (fun j y => phi j none (some y)) ht
  exact ⟨hc,fun k => (hf k).trans (mergeMap_none_left (phi k) _)⟩

theorem lfOpt_left_spec (i : Key) (x : α) : (lfOpt i (phi i (some x) none)).Canonical ∧
    ∀ k, find k (lfOpt i (phi i (some x) none)) = mergeMap (phi k) (find k (lf i x)) none := by
  apply lfOpt_find_eq
  · rw [find_lf_self]
    rfl
  · intro k hk
    rw [find_lf_ne _ hk]
    rfl

theorem lfOpt_right_spec (j : Key) (y : β) : (lfOpt j (phi j none (some y))).Canonical ∧
    ∀ k, find k (lfOpt j (phi j none (some y))) = mergeMap (phi k) none (find k (lf j y)) := by
  apply lfOpt_find_eq
  · rw [find_lf_self]
    rfl
  · intro k hk
    rw [find_lf_ne _ hk]
    rfl

variable {phi}

theorem glue_apart {m : Key → Option α} {n : Key → Option β} (hap : Apart m n) {r0 r1 : Tree γ}
    (h0 : r0.Canonical ∧ ∀ k, find k r0 = mergeMap (phi k) (m k) none)
    (h1 : r1.Canonical ∧ ∀ k, find k r1 = mergeMap (phi k) none (n k)) :
    (glue r0 r1).Canonical ∧ ∀ k, find k (glue r0 r1) = mergeMap (phi k) (m k) (n k) := by
  obtain ⟨hc,hf⟩ := glue_spec h0.1 h1.1 (hap.of_none (fun k hk => by simp only [h0.2,hk]; rfl)
    (fun k hk => by simp only [h1.2,hk]; rfl))
  refine ⟨hc,?_⟩
  intro k
  rw [hf,h0.2,h1.2]
  obtain h | h := hap.none_or k
  · rw [h]
    exact Option.none_or
  · rw [h]
    exact Option.or_none

theorem leaf_region {p k : Key} {i : ℕ} (hp : LowestZero p i) (x : α) (hm : matchPrefix k p = true) :
    (zeroBit k p = true → InRegion i (2 * (p.toNat / 2 ^ (i + 1))) (find · (lf k x))) ∧
      (¬ zeroBit k p = true → InRegion i (2 * (p.toNat / 2 ^ (i + 1)) + 1) (find · (lf k x))) := by
  have hq := (matchPrefix_iff hp k).1 hm
  have hz := zeroBit_iff hp k
  have hd := div_succ k.toNat i
  have hreg := inRegion_singleton k x i
  constructor
  · intro hzero
    rw [hz.1 hzero,hq] at hreg
    exact hreg
  · intro hzero
    have hne : ¬ k.toNat / 2 ^ i = 2 * (k.toNat / 2 ^ (i + 1)) := fun h => hzero (hz.2 h)
    rw [show k.toNat / 2 ^ i = 2 * (p.toNat / 2 ^ (i + 1)) + 1 by omega] at hreg
    exact hreg

variable (phi)

theorem merge_empty_right (s : Tree α) : merge phi s empty = map1 phi s := by
  cases s with
  | empty => rw [merge]; rfl
  | lf i x => rw [merge]; simp
  | br p s0 s1 => rw [merge]; simp

theorem merge_spec {s : Tree α} {t : Tree β} (hs : s.Canonical) (ht : t.Canonical) :
    (merge phi s t).Canonical ∧ ∀ k, find k (merge phi s t) = mergeMap (phi k) (find k s) (find k t) := by
  have hg : ∀ k, mergeMap (phi k) none none = none := fun k => rfl
  refine pair_induction (motive := fun s t => (merge phi s t).Canonical ∧
      ∀ k, find k (merge phi s t) = mergeMap (phi k) (find k s) (find k t))
    ?emptyLeft ?emptyRight ?leaves ?leafLeft ?leafRight ?same ?insideLeft ?insideRight ?outside s t hs ht
  case emptyLeft =>
    intro t ht
    rw [merge]
    exact map2_spec phi ht
  case emptyRight =>
    intro s hs
    rw [merge_empty_right]
    exact map1_spec phi hs
  case leaves =>
    intro i x j y
    rw [merge]
    by_cases hij : i = j
    · subst hij
      rw [if_pos rfl]
      apply lfOpt_find_eq
      · rw [find_lf_self,find_lf_self]
        rfl
      · intro k hk
        rw [find_lf_ne _ hk,find_lf_ne _ hk]
        rfl
    · rw [if_neg hij]
      have hne : i.toNat / 2 ^ 0 ≠ j.toNat / 2 ^ 0 := by
        rw [pow_zero,Nat.div_one,Nat.div_one]
        exact fun h => hij (BitVec.eq_of_toNat_eq h)
      have hap : Apart (find · (lf i x)) (find · (lf j y)) :=
        ⟨0,_,_,hne,inRegion_singleton i x 0,inRegion_singleton j y 0⟩
      exact glue_apart hap (lfOpt_left_spec phi i x) (lfOpt_right_spec phi j y)
  case leafLeft =>
    intro i x q j t0 t1 ht ih0 ih1
    rw [merge]
    by_cases hm : matchPrefix i q = true
    · rw [if_pos hm]
      obtain ⟨hzero,hone⟩ := leaf_region ht.lowest x hm
      by_cases hz : zeroBit i q = true
      · rw [if_pos hz]
        obtain ⟨hc,hf⟩ := glue_results hg (hzero hz) (region_none j _) ht.region0 ht.region1 ih0
          (map2_spec phi ht.canonical1)
        exact ⟨hc,fun k => by rw [hf,ht.find_eq,Option.or_none]⟩
      · rw [if_neg hz]
        obtain ⟨hc,hf⟩ := glue_results hg (region_none j _) (hone hz) ht.region0 ht.region1
          (map2_spec phi ht.canonical0) ih1
        exact ⟨hc,fun k => by rw [hf,ht.find_eq,Option.none_or]⟩
    · rw [if_neg hm]
      have hq : i.toNat / 2 ^ (j + 1) ≠ q.toNat / 2 ^ (j + 1) := fun h => hm ((matchPrefix_iff ht.lowest i).2 h)
      exact glue_apart ⟨j + 1,_,_,hq,inRegion_singleton i x (j + 1),ht.region⟩ (lfOpt_left_spec phi i x)
        (map2_spec phi ht.canonical)
  case leafRight =>
    intro j y p i s0 s1 hs ih0 ih1
    rw [merge]
    by_cases hm : matchPrefix j p = true
    · rw [if_pos hm]
      obtain ⟨hzero,hone⟩ := leaf_region hs.lowest y hm
      by_cases hz : zeroBit j p = true
      · rw [if_pos hz]
        obtain ⟨hc,hf⟩ := glue_results hg hs.region0 hs.region1 (hzero hz) (region_none i _) ih0
          (map1_spec phi hs.canonical1)
        exact ⟨hc,fun k => by rw [hf,hs.find_eq,Option.or_none]⟩
      · rw [if_neg hz]
        obtain ⟨hc,hf⟩ := glue_results hg hs.region0 hs.region1 (region_none i _) (hone hz)
          (map1_spec phi hs.canonical0) ih1
        exact ⟨hc,fun k => by rw [hf,hs.find_eq,Option.none_or]⟩
    · rw [if_neg hm]
      have hq : p.toNat / 2 ^ (i + 1) ≠ j.toNat / 2 ^ (i + 1) := fun h => hm ((matchPrefix_iff hs.lowest j).2 h.symm)
      exact glue_apart ⟨i + 1,_,_,hq,hs.region,inRegion_singleton j y (i + 1)⟩ (map1_spec phi hs.canonical)
        (lfOpt_right_spec phi j y)
  case same =>
    intro p i s0 s1 t0 t1 hs ht ih0 ih1
    rw [merge,if_pos rfl]
    obtain ⟨hc,hf⟩ := glue_results hg hs.region0 hs.region1 ht.region0 ht.region1 ih0 ih1
    exact ⟨hc,fun k => by rw [hf,hs.find_eq,ht.find_eq]⟩
  case insideLeft =>
    intro p i s0 s1 q j t0 t1 hs ht hne hinc ih0 ih1
    rw [merge,if_neg hne,if_pos hinc]
    obtain ⟨hzero,hone⟩ := hs.included ht hinc
    by_cases hz : zeroBit q p = true
    · rw [if_pos hz]
      obtain ⟨hc,hf⟩ := glue_results hg hs.region0 hs.region1 (hzero hz) (region_none i _) ih0
        (map1_spec phi hs.canonical1)
      exact ⟨hc,fun k => by rw [hf,hs.find_eq,Option.or_none]⟩
    · rw [if_neg hz]
      obtain ⟨hc,hf⟩ := glue_results hg hs.region0 hs.region1 (region_none i _) (hone hz)
        (map1_spec phi hs.canonical0) ih1
      exact ⟨hc,fun k => by rw [hf,hs.find_eq,Option.none_or]⟩
  case insideRight =>
    intro p i s0 s1 q j t0 t1 hs ht hne hinc hinc' ih0 ih1
    rw [merge,if_neg hne,if_neg hinc,if_pos hinc']
    obtain ⟨hzero,hone⟩ := ht.included hs hinc'
    by_cases hz : zeroBit p q = true
    · rw [if_pos hz]
      obtain ⟨hc,hf⟩ := glue_results hg (hzero hz) (region_none j _) ht.region0 ht.region1 ih0
        (map2_spec phi ht.canonical1)
      exact ⟨hc,fun k => by rw [hf,ht.find_eq,Option.or_none]⟩
    · rw [if_neg hz]
      obtain ⟨hc,hf⟩ := glue_results hg (region_none j _) (hone hz) ht.region0 ht.region1
        (map2_spec phi ht.canonical0) ih1
      exact ⟨hc,fun k => by rw [hf,ht.find_eq,Option.none_or]⟩
  case outside =>
    intro p i s0 s1 q j t0 t1 hs ht hne hinc hinc'
    rw [merge,if_neg hne,if_neg hinc,if_neg hinc']
    exact glue_apart (hs.apart_of_not_included ht hne hinc hinc') (map1_spec phi hs.canonical)
      (map2_spec phi ht.canonical)

end merge

end Tree

end FramaC.Qed.Intmap
