import FramaC.Qed.Intmap.Queries

/-! # The shared difference

`diffq` returns a whole operand when a result is physically one of the inputs. On a leaf of the first map that meets a
branch of the second, the operand is the branch, and all its keys come into the result.
-/
namespace FramaC.Qed.Intmap

open CommonPrefix

namespace Tree

variable {α : Type}

def glue0 (sh : Sharing α) (t0 t0' t1' t' : Tree α) : Tree α := if sh.tree t0 t0' then t' else glue t0 t1'

def glue1 (sh : Sharing α) (t1 t0' t1' t' : Tree α) : Tree α := if sh.tree t1 t1' then t' else glue t0' t1

def diffq (sh : Sharing α) (phi : Key → α → α → Option α) (s t : Tree α) : Tree α :=
  match s,t with
  | empty,_ => empty
  | s,empty => s
  | lf i x,lf j y => if i = j then lfq sh phi i x y (lf i x) (lf j y) else lf i x
  | lf i x,br q t0 t1 =>
    match find i (br q t0 t1) with
    | none => lf i x
    | some y => lfq sh phi i x y (lf i x) (br q t0 t1)
  | br p s0 s1,lf j y => change sh (fun j y x => x.bind fun x => phi j x y) j y (br p s0 s1)
  | br p s0 s1,br q t0 t1 =>
    if p = q then glue01 sh (diffq sh phi s0 t0) (diffq sh phi s1 t1) s0 s1 (br p s0 s1)
    else if includedPrefix p q then
      if zeroBit q p then glue0 sh (diffq sh phi s0 (br q t0 t1)) s0 s1 (br p s0 s1)
      else glue1 sh (diffq sh phi s1 (br q t0 t1)) s0 s1 (br p s0 s1)
    else if includedPrefix q p then
      if zeroBit p q then diffq sh phi (br p s0 s1) t0 else diffq sh phi (br p s0 s1) t1
    else br p s0 s1
termination_by sizeOf s + sizeOf t

end Tree

def diffMap {α : Type} (phi : α → α → Option α) : Option α → Option α → Option α
  | none,_ => none
  | some x,none => some x
  | some x,some y => phi x y

def SharesRight {α : Type} (sh : Sharing α) (phi : Key → α → α → Option α) (m n : Key → Option α) (i : Key) : Prop :=
  ∃ x y w, m i = some x ∧ n i = some y ∧ phi i x y = some w ∧ sh.value w x = false ∧ sh.value w y = true

/-- A key has more leading bits in common with `i` than the other keys of the map. -/
def Nearest {α : Type} (m : Key → Option α) (i k : Key) : Prop :=
  ∀ j, m j ≠ none → j ≠ i → ∃ b, k.toNat / 2 ^ b = i.toNat / 2 ^ b ∧ j.toNat / 2 ^ b ≠ i.toNat / 2 ^ b

def Extra {α : Type} (sh : Sharing α) (phi : Key → α → α → Option α) (m n : Key → Option α) (k : Key) : Prop :=
  ∃ i, SharesRight sh phi m n i ∧ Nearest m i k

def Within {α : Type} (i u : ℕ) (m m0 : Key → Option α) : Prop :=
  ∀ k : Key, (k.toNat / 2 ^ i = u → m0 k = m k) ∧ (k.toNat / 2 ^ i ≠ u → m0 k = none)

section within

variable {α : Type} {i u : ℕ} {m m0 n n0 : Key → Option α}

theorem Within.refl (h : InRegion i u m) : Within i u m m := fun _ => ⟨fun _ => rfl,h.eq_none⟩

theorem Within.of_bound (h : Within i u m m0) {k : Key} (hk : m0 k ≠ none) : k.toNat / 2 ^ i = u ∧ m k = m0 k := by
  have hu : k.toNat / 2 ^ i = u := by
    by_contra hne
    exact hk ((h k).2 hne)
  exact ⟨hu,((h k).1 hu).symm⟩

theorem nearest_not_outside (hm : InRegion i u m) {j k l : Key} (hk : k.toNat / 2 ^ i ≠ u) (hj : m j ≠ none)
    (hl : m l ≠ none) (hne : l ≠ j) : ¬ Nearest m j k := by
  intro h
  obtain ⟨b,hb,hb'⟩ := h l hl hne
  obtain ⟨x,hx⟩ := Option.ne_none_iff_exists'.1 hj
  obtain ⟨y,hy⟩ := Option.ne_none_iff_exists'.1 hl
  have hju := hm j x hx
  have hlu := hm l y hy
  by_cases hib : i ≤ b
  · exact hb' (div_pow_mono hib (hlu.trans hju.symm))
  · exact hk ((div_pow_mono (by omega) hb).trans hju)

theorem extra_within (sh : Sharing α) (phi : Key → α → α → Option α) (hm : Within i u m m0) (hn : Within i u n n0)
    (hne : ∃ j, m0 j ≠ none) {k : Key} (hk : k.toNat / 2 ^ i = u) :
    Extra sh phi m n k ↔ Extra sh phi m0 n0 k := by
  constructor
  · rintro ⟨l,⟨x,y,w,hx,hy,hw,hwx,hwy⟩,hnear⟩
    have hl : l.toNat / 2 ^ i = u := by
      by_contra hl
      obtain ⟨j,hj⟩ := hne
      obtain ⟨hju,hjm⟩ := hm.of_bound hj
      obtain ⟨b,hb,hb'⟩ := hnear j (hjm ▸ hj) (fun h => hl (h ▸ hju))
      by_cases hib : i ≤ b
      · exact hb' ((div_pow_mono hib (hju.trans hk.symm)).trans hb)
      · exact hl ((div_pow_mono (by omega) hb.symm).trans hk)
    refine ⟨l,⟨x,y,w,((hm l).1 hl).trans hx,((hn l).1 hl).trans hy,hw,hwx,hwy⟩,?_⟩
    intro j hj hjl
    exact hnear j ((hm.of_bound hj).2 ▸ hj) hjl
  · rintro ⟨l,⟨x,y,w,hx,hy,hw,hwx,hwy⟩,hnear⟩
    obtain ⟨hl,hml⟩ := hm.of_bound (show m0 l ≠ none by rw [hx]; simp)
    obtain ⟨_,hnl⟩ := hn.of_bound (show n0 l ≠ none by rw [hy]; simp)
    refine ⟨l,⟨x,y,w,hml.trans hx,hnl.trans hy,hw,hwx,hwy⟩,?_⟩
    intro j hj hjl
    by_cases hju : j.toNat / 2 ^ i = u
    · exact hnear j (by rw [(hm j).1 hju]; exact hj) hjl
    · exact ⟨i,hk.trans hl.symm,fun h => hju (h.trans hl)⟩

end within

namespace Tree

variable {α : Type} (sh : Sharing α) (phi : Key → α → α → Option α)

/-- What `diffq` computes: the difference on the keys of the first map, and the extra keys with their values in the
second one. -/
structure DiffSpec (m n : Key → Option α) (r : Tree α) : Prop where
  canonical : r.Canonical
  bound : ∀ k x, m k = some x → find k r = diffMap (phi k) (some x) (n k)
  unbound : ∀ k y, m k = none → (find k r = some y ↔ n k = some y ∧ Extra sh phi m n k)

variable {sh phi}

theorem DiffSpec.eq_none {m n : Key → Option α} {r : Tree α} (h : DiffSpec sh phi m n r) {k : Key} (hm : m k = none)
    (hn : n k = none) : find k r = none := by
  cases hr : find k r with
  | none => rfl
  | some y =>
    have hy := ((h.unbound k y hm).1 hr).1
    rw [hn] at hy
    cases hy

theorem DiffSpec.region {m n : Key → Option α} {r : Tree α} (h : DiffSpec sh phi m n r) {i u : ℕ} (hm : InRegion i u m)
    (hn : InRegion i u n) : InRegion i u (find · r) :=
  region_combine hm hn fun _ hk hk' => h.eq_none hk hk'

theorem not_extra {m n : Key → Option α} (h : ∀ i x y, m i = some x → n i = some y → False) (k : Key) :
    ¬ Extra sh phi m n k := by
  rintro ⟨i,⟨x,y,w,hx,hy,_⟩,_⟩
  exact h i x y hx hy

theorem diffSpec_of_disjoint {n : Key → Option α} {s : Tree α} (hs : s.Canonical)
    (h : ∀ k, find k s = none ∨ n k = none) : DiffSpec sh phi (find · s) n s := by
  refine ⟨hs,?_,?_⟩
  · intro k x hk
    have hn : n k = none := (h k).resolve_left (by rw [hk]; simp)
    rw [hn,hk]
    rfl
  · intro k y hk
    have hextra : ¬ Extra sh phi (find · s) n k := by
      apply not_extra
      intro i x y hx hy
      obtain hi | hi := h i
      · exact absurd (hi.symm.trans hx) (by simp)
      · exact absurd (hi.symm.trans hy) (by simp)
    have hk' : find k s ≠ some y := by
      rw [show find k s = none from hk]
      simp
    exact iff_of_false hk' (fun h => hextra h.2)

theorem Children.within0 {p : Key} {i : ℕ} {t0 t1 : Tree α} (h : Children p i t0 t1) :
    Within i (2 * (p.toNat / 2 ^ (i + 1))) (find · (br p t0 t1)) (find · t0) := by
  intro k
  refine ⟨?_,h.region0.eq_none⟩
  intro hk
  have hn : find k t1 = none := h.region1.eq_none (by omega)
  simp only [h.find_eq,hn,Option.or_none]

theorem Children.within1 {p : Key} {i : ℕ} {t0 t1 : Tree α} (h : Children p i t0 t1) :
    Within i (2 * (p.toNat / 2 ^ (i + 1)) + 1) (find · (br p t0 t1)) (find · t1) := by
  intro k
  refine ⟨?_,h.region1.eq_none⟩
  intro hk
  have hn : find k t0 = none := h.region0.eq_none (by omega)
  simp only [h.find_eq,hn,Option.none_or]

theorem exists_bound {t : Tree α} (ht : t.Canonical) (hne : t ≠ empty) : ∃ k, find k t ≠ none := by
  obtain ⟨k,x,hk⟩ := exists_find ht hne
  exact ⟨k,by rw [hk]; simp⟩

section glue

variable {p : Key} {i : ℕ} {s0 s1 r0 r1 : Tree α} (hs : Children p i s0 s1)

include hs

variable (sh) in
theorem glue01_regions (hc0 : r0.Canonical) (hc1 : r1.Canonical)
    (h0 : InRegion i (2 * (p.toNat / 2 ^ (i + 1))) (find · r0))
    (h1 : InRegion i (2 * (p.toNat / 2 ^ (i + 1)) + 1) (find · r1)) :
    (glue01 sh r0 r1 s0 s1 (br p s0 s1)).Canonical ∧
      ∀ k, find k (glue01 sh r0 r1 s0 s1 (br p s0 s1)) = (find k r0).or (find k r1) := by
  unfold glue01
  by_cases hsame : (sh.tree r0 s0 && sh.tree r1 s1) = true
  · obtain ⟨hsame0,hsame1⟩ := Bool.and_eq_true_iff.1 hsame
    rw [if_pos hsame,sh.tree_eq hsame0,sh.tree_eq hsame1]
    exact ⟨hs.canonical,hs.find_eq⟩
  · rw [if_neg hsame]
    exact glue_spec hc0 hc1 (apart_children h0 h1)

variable (sh) in
theorem glue0_regions (hc0 : r0.Canonical) (h0 : InRegion i (2 * (p.toNat / 2 ^ (i + 1))) (find · r0)) :
    (glue0 sh r0 s0 s1 (br p s0 s1)).Canonical ∧
      ∀ k, find k (glue0 sh r0 s0 s1 (br p s0 s1)) = (find k r0).or (find k s1) := by
  unfold glue0
  by_cases hsame : sh.tree r0 s0 = true
  · rw [if_pos hsame,sh.tree_eq hsame]
    exact ⟨hs.canonical,hs.find_eq⟩
  · rw [if_neg hsame]
    exact glue_spec hc0 hs.canonical1 (apart_children h0 hs.region1)

variable (sh) in
theorem glue1_regions (hc1 : r1.Canonical) (h1 : InRegion i (2 * (p.toNat / 2 ^ (i + 1)) + 1) (find · r1)) :
    (glue1 sh r1 s0 s1 (br p s0 s1)).Canonical ∧
      ∀ k, find k (glue1 sh r1 s0 s1 (br p s0 s1)) = (find k s0).or (find k r1) := by
  unfold glue1
  by_cases hsame : sh.tree r1 s1 = true
  · rw [if_pos hsame,sh.tree_eq hsame]
    exact ⟨hs.canonical,hs.find_eq⟩
  · rw [if_neg hsame]
    exact glue_spec hs.canonical0 hc1 (apart_children hs.region0 h1)

end glue

theorem DiffSpec.lift {m m0 n n0 : Key → Option α} {r0 r : Tree α} (h : DiffSpec sh phi m0 n0 r0) {i u : ℕ}
    (hm : Within i u m m0) (hn : Within i u n n0) (hne : ∃ j, m0 j ≠ none) {k : Key} (hk : k.toNat / 2 ^ i = u)
    (hr : find k r = find k r0) :
    (∀ x, m k = some x → find k r = diffMap (phi k) (some x) (n k)) ∧
      ∀ y, m k = none → (find k r = some y ↔ n k = some y ∧ Extra sh phi m n k) := by
  have hmk := (hm k).1 hk
  have hnk := (hn k).1 hk
  constructor
  · intro x hx
    rw [hr,h.bound k x (hmk.trans hx),hnk]
  · intro y hy
    rw [hr,h.unbound k y (hmk.trans hy),hnk,extra_within sh phi hm hn hne hk]

section cases

variable {p : Key} {i : ℕ} {s0 s1 : Tree α} {q : Key} {j : ℕ} {t0 t1 r0 r1 : Tree α}

theorem diffSpec_same (hs : Children p i s0 s1) (ht : Children p i t0 t1)
    (h0 : DiffSpec sh phi (find · s0) (find · t0) r0) (h1 : DiffSpec sh phi (find · s1) (find · t1) r1) :
    DiffSpec sh phi (find · (br p s0 s1)) (find · (br p t0 t1)) (glue01 sh r0 r1 s0 s1 (br p s0 s1)) := by
  have hr0 := h0.region hs.region0 ht.region0
  have hr1 := h1.region hs.region1 ht.region1
  obtain ⟨hc,hf⟩ := glue01_regions sh hs h0.canonical h1.canonical hr0 hr1
  have hspec : ∀ k, (∀ x, find k (br p s0 s1) = some x →
      find k (glue01 sh r0 r1 s0 s1 (br p s0 s1)) = diffMap (phi k) (some x) (find k (br p t0 t1))) ∧
      ∀ y, find k (br p s0 s1) = none → (find k (glue01 sh r0 r1 s0 s1 (br p s0 s1)) = some y ↔
        find k (br p t0 t1) = some y ∧ Extra sh phi (find · (br p s0 s1)) (find · (br p t0 t1)) k) := by
    intro k
    by_cases hk0 : k.toNat / 2 ^ i = 2 * (p.toNat / 2 ^ (i + 1))
    · have hn1 : find k r1 = none := hr1.eq_none (by omega)
      exact h0.lift hs.within0 ht.within0 (exists_bound hs.canonical0 hs.ne0) hk0 (by rw [hf,hn1,Option.or_none])
    · have hn0 : find k r0 = none := hr0.eq_none hk0
      by_cases hk1 : k.toNat / 2 ^ i = 2 * (p.toNat / 2 ^ (i + 1)) + 1
      · exact h1.lift hs.within1 ht.within1 (exists_bound hs.canonical1 hs.ne1) hk1 (by rw [hf,hn0,Option.none_or])
      · have hn1 : find k r1 = none := hr1.eq_none hk1
        have hsn : find k (br p s0 s1) = none := by
          rw [hs.find_eq,hs.region0.eq_none hk0,hs.region1.eq_none hk1]
          rfl
        have htn : find k (br p t0 t1) = none := by
          rw [ht.find_eq,ht.region0.eq_none hk0,ht.region1.eq_none hk1]
          rfl
        rw [hf,hn0,hn1,hsn,htn]
        exact ⟨fun _ hx => absurd hx (by simp),fun y _ => iff_of_false (by simp) (by simp)⟩
  exact ⟨hc,fun k => (hspec k).1,fun k => (hspec k).2⟩

theorem diffSpec_inside {n : Key → Option α} {s c r r' : Tree α} {i u : ℕ} (h : DiffSpec sh phi (find · c) n r)
    (hc : Within i u (find · s) (find · c)) (hn : InRegion i u n) (hne : ∃ j, find j c ≠ none) (hcan : r'.Canonical)
    (hin : ∀ k : Key, k.toNat / 2 ^ i = u → find k r' = find k r)
    (hout : ∀ k : Key, k.toNat / 2 ^ i ≠ u → find k r' = find k s) : DiffSpec sh phi (find · s) n r' := by
  have hspec : ∀ k, (∀ x, find k s = some x → find k r' = diffMap (phi k) (some x) (n k)) ∧
      ∀ y, find k s = none → (find k r' = some y ↔ n k = some y ∧ Extra sh phi (find · s) n k) := by
    intro k
    by_cases hk : k.toNat / 2 ^ i = u
    · exact h.lift hc (Within.refl hn) hne hk (hin k hk)
    · rw [hout k hk,hn.eq_none hk]
      refine ⟨fun x hx => by rw [hx]; rfl,?_⟩
      intro y hy
      rw [hy]
      exact iff_of_false (by simp) (by simp)
  exact ⟨hcan,fun k => (hspec k).1,fun k => (hspec k).2⟩

theorem diffSpec_contained {m n n0 : Key → Option α} {r : Tree α} {i u : ℕ} (h : DiffSpec sh phi m n0 r)
    (hn : Within i u n n0) (hm : InRegion i u m) {k0 k1 : Key} (hk0 : m k0 ≠ none) (hk1 : m k1 ≠ none)
    (hne : k0 ≠ k1) : DiffSpec sh phi m n r := by
  have hspec : ∀ k, (∀ x, m k = some x → find k r = diffMap (phi k) (some x) (n k)) ∧
      ∀ y, m k = none → (find k r = some y ↔ n k = some y ∧ Extra sh phi m n k) := by
    intro k
    by_cases hk : k.toNat / 2 ^ i = u
    · exact h.lift (Within.refl hm) hn ⟨k0,hk0⟩ hk rfl
    · have hmn := hm.eq_none hk
      have hnone : find k r = none := h.eq_none hmn ((hn k).2 hk)
      rw [hmn,hnone]
      refine ⟨fun _ hx => absurd hx (by simp),?_⟩
      intro y _
      refine iff_of_false (by simp) ?_
      rintro ⟨_,l,⟨x,_,_,hx,_⟩,hnear⟩
      have hl : m l ≠ none := by
        rw [hx]
        simp
      -- another key of the first map is as far from `k`
      by_cases hlk : k0 = l
      · exact nearest_not_outside hm hk hl hk1 (fun h => hne (hlk.trans h.symm)) hnear
      · exact nearest_not_outside hm hk hl hk0 hlk hnear
  exact ⟨h.canonical,fun k => (hspec k).1,fun k => (hspec k).2⟩

end cases

theorem diffq_empty_right (s : Tree α) : diffq sh phi s empty = s := by
  cases s with
  | empty => rw [diffq]
  | lf i x => rw [diffq]; simp
  | br p s0 s1 => rw [diffq]; simp

theorem lfq_whole {i : Key} {x y : α} {t : Tree α} (ht : t.Canonical) (hy : find i t = some y) :
    DiffSpec sh phi (find · (lf i x)) (find · t) (lfq sh phi i x y (lf i x) t) := by
  have hextra : ∀ k, Extra sh phi (find · (lf i x)) (find · t) k ↔
      ∃ w, phi i x y = some w ∧ sh.value w x = false ∧ sh.value w y = true := by
    intro k
    constructor
    · rintro ⟨j,⟨x',y',w,hx',hy',hw,hwx,hwy⟩,_⟩
      simp only [find_lf,Option.ite_none_right_eq_some,Option.some.injEq] at hx'
      obtain ⟨rfl,rfl⟩ := hx'
      obtain rfl : y = y' := Option.some.inj (hy.symm.trans hy')
      exact ⟨w,hw,hwx,hwy⟩
    · rintro ⟨w,hw,hwx,hwy⟩
      refine ⟨i,⟨x,y,w,find_lf_self i x,hy,hw,hwx,hwy⟩,?_⟩
      intro j hj hji
      exact absurd (find_lf_ne x hji) hj
  have hbound : ∀ {r : Tree α}, find i r = phi i x y → ∀ k x', find k (lf i x) = some x' →
      find k r = diffMap (phi k) (some x') (find k t) := by
    intro r hr k x' hk
    simp only [find_lf,Option.ite_none_right_eq_some,Option.some.injEq] at hk
    obtain ⟨rfl,rfl⟩ := hk
    rw [hr,hy]
    rfl
  unfold lfq
  cases hw : phi i x y with
  | none =>
    refine ⟨trivial,hbound (by rw [hw]; rfl),?_⟩
    intro k z _
    refine iff_of_false (by simp) ?_
    rintro ⟨_,hk⟩
    obtain ⟨w,hw',_⟩ := (hextra k).1 hk
    rw [hw] at hw'
    cases hw'
  | some w =>
    have hleaf : ∀ {v : α}, (w = v) → (sh.value w x = true ∨ sh.value w y = false) →
        DiffSpec sh phi (find · (lf i x)) (find · t) (lf i v) := by
      rintro v rfl hv
      refine ⟨trivial,hbound (by rw [hw,find_lf_self]),?_⟩
      intro k z hk
      have hne : k ≠ i := by
        rintro rfl
        rw [find_lf_self] at hk
        cases hk
      refine iff_of_false (by rw [find_lf_ne w hne]; simp) ?_
      rintro ⟨_,hk'⟩
      obtain ⟨w',hw',hwx,hwy⟩ := (hextra k).1 hk'
      obtain rfl : w = w' := Option.some.inj (hw.symm.trans hw')
      obtain hv | hv := hv
      · exact absurd (hv.symm.trans hwx) (by simp)
      · exact absurd (hv.symm.trans hwy) (by simp)
    simp only
    by_cases hwx : sh.value w x = true
    · rw [if_pos hwx]
      exact hleaf (sh.value_eq hwx) (Or.inl hwx)
    · rw [if_neg hwx]
      by_cases hwy : sh.value w y = true
      · rw [if_pos hwy]
        refine ⟨ht,hbound (by rw [hw,hy,sh.value_eq hwy]),?_⟩
        intro k z _
        rw [hextra k]
        exact (and_iff_left ⟨w,hw,by simpa using hwx,hwy⟩).symm
      · rw [if_neg hwy]
        exact hleaf rfl (Or.inr (by simpa using hwy))

variable (sh phi)

theorem diffq_spec {s t : Tree α} (hs : s.Canonical) (ht : t.Canonical) :
    DiffSpec sh phi (find · s) (find · t) (diffq sh phi s t) := by
  refine pair_induction (motive := fun s t => DiffSpec sh phi (find · s) (find · t) (diffq sh phi s t))
    ?emptyLeft ?emptyRight ?leaves ?leafLeft ?leafRight ?same ?insideLeft ?insideRight ?outside s t hs ht
  case emptyLeft =>
    intro t ht
    rw [diffq]
    exact diffSpec_of_disjoint trivial fun k => Or.inl rfl
  case emptyRight =>
    intro s hs
    rw [diffq_empty_right]
    exact diffSpec_of_disjoint hs fun k => Or.inr rfl
  case leaves =>
    intro i x j y
    rw [diffq]
    by_cases hij : i = j
    · subst hij
      rw [if_pos rfl]
      exact lfq_whole trivial (find_lf_self i y)
    · rw [if_neg hij]
      refine diffSpec_of_disjoint (represents_lf i x).1 ?_
      intro k
      by_cases hk : k = i
      · exact Or.inr (find_lf_ne y (fun h => hij (hk.symm.trans h)))
      · exact Or.inl (find_lf_ne x hk)
  case leafLeft =>
    intro i x q j t0 t1 ht ih0 ih1
    rw [diffq]
    cases hy : find i (br q t0 t1) with
    | none =>
      refine diffSpec_of_disjoint (represents_lf i x).1 ?_
      intro k
      by_cases hk : k = i
      · exact Or.inr (hk ▸ hy)
      · exact Or.inl (find_lf_ne x hk)
    | some y => exact lfq_whole ht.canonical hy
  case leafRight =>
    intro j y p i s0 s1 hs ih0 ih1
    rw [diffq]
    obtain ⟨hc,hf⟩ := change_represents sh (fun j y x => Option.bind x fun x => phi j x y) j y hs.canonical
    refine ⟨hc,?_,?_⟩
    · intro k x hk
      rw [hf]
      by_cases hkj : k = j
      · subst hkj
        rw [if_pos rfl,hk,find_lf_self]
        rfl
      · rw [if_neg hkj,find_lf_ne y hkj,hk]
        rfl
    · intro k z hk
      have hnone : find k (change sh (fun j y x => Option.bind x fun x => phi j x y) j y (br p s0 s1)) = none := by
        rw [hf]
        by_cases hkj : k = j
        · subst hkj
          rw [if_pos rfl,hk]
          rfl
        · rw [if_neg hkj,hk]
      rw [hnone]
      refine iff_of_false (by simp) ?_
      rintro ⟨hkz,i,⟨x,y',_,hx,hy',_⟩,_⟩
      simp only [find_lf,Option.ite_none_right_eq_some] at hkz hy'
      rw [hkz.1.trans hy'.1.symm] at hk
      exact absurd (hk.symm.trans hx) (by simp)
  case same =>
    intro p i s0 s1 t0 t1 hs ht ih0 ih1
    rw [diffq,if_pos rfl]
    exact diffSpec_same hs ht ih0 ih1
  case insideLeft =>
    intro p i s0 s1 q j t0 t1 hs ht hne hinc ih0 ih1
    rw [diffq,if_neg hne,if_pos hinc]
    obtain ⟨hzero,hone⟩ := hs.included ht hinc
    by_cases hz : zeroBit q p = true
    · have hreg := ih0.region hs.region0 (hzero hz)
      obtain ⟨hc,hf⟩ := glue0_regions sh hs ih0.canonical hreg
      rw [if_pos hz]
      refine diffSpec_inside ih0 hs.within0 (hzero hz) (exists_bound hs.canonical0 hs.ne0) hc ?_ ?_
      · intro k hk
        rw [hf,hs.region1.eq_none (k := k) (by omega),Option.or_none]
      · intro k hk
        rw [hf,hreg.eq_none hk,hs.find_eq,hs.region0.eq_none hk]
    · have hreg := ih1.region hs.region1 (hone hz)
      obtain ⟨hc,hf⟩ := glue1_regions sh hs ih1.canonical hreg
      rw [if_neg hz]
      refine diffSpec_inside ih1 hs.within1 (hone hz) (exists_bound hs.canonical1 hs.ne1) hc ?_ ?_
      · intro k hk
        rw [hf,hs.region0.eq_none (k := k) (by omega),Option.none_or]
      · intro k hk
        rw [hf,hreg.eq_none hk,hs.find_eq,hs.region1.eq_none hk]
  case insideRight =>
    intro p i s0 s1 q j t0 t1 hs ht hne hinc hinc' ih0 ih1
    rw [diffq,if_neg hne,if_neg hinc,if_pos hinc']
    obtain ⟨hzero,hone⟩ := ht.included hs hinc'
    obtain ⟨k0,x0,k1,x1,hk0,hk1,hkk⟩ := hs.two_keys
    have hb0 : find k0 (br p s0 s1) ≠ none := by
      rw [hk0]
      simp
    have hb1 : find k1 (br p s0 s1) ≠ none := by
      rw [hk1]
      simp
    by_cases hz : zeroBit p q = true
    · rw [if_pos hz]
      exact diffSpec_contained ih0 ht.within0 (hzero hz) hb0 hb1 hkk
    · rw [if_neg hz]
      exact diffSpec_contained ih1 ht.within1 (hone hz) hb0 hb1 hkk
  case outside =>
    intro p i s0 s1 q j t0 t1 hs ht hne hinc hinc'
    rw [diffq,if_neg hne,if_neg hinc,if_neg hinc']
    exact diffSpec_of_disjoint hs.canonical (hs.apart_of_not_included ht hne hinc hinc').none_or

def NoExtra (m n : Key → Option α) : Prop := ∀ k, m k = none → n k ≠ none → ¬ Extra sh phi m n k

theorem diffq_eq_iff {s t : Tree α} (hs : s.Canonical) (ht : t.Canonical) :
    (∀ k, find k (diffq sh phi s t) = diffMap (phi k) (find k s) (find k t)) ↔
      NoExtra sh phi (find · s) (find · t) := by
  have hspec := diffq_spec sh phi hs ht
  constructor
  · intro h k hk hkt hextra
    obtain ⟨y,hy⟩ := Option.ne_none_iff_exists'.1 hkt
    have hin := (hspec.unbound k y hk).2 ⟨hy,hextra⟩
    rw [h k,show find k s = none from hk] at hin
    cases hin
  · intro h k
    cases hk : find k s with
    | some x => exact hspec.bound k x hk
    | none =>
      cases hr : find k (diffq sh phi s t) with
      | none => rfl
      | some y =>
        obtain ⟨hy,hextra⟩ := (hspec.unbound k y hk).1 hr
        refine absurd hextra (h k hk ?_)
        simp only [hy]
        simp

end Tree

end FramaC.Qed.Intmap
