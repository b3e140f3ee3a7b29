import FramaC.Offsetmap.Inclusion
import FramaC.Offsetmap.Slices

/-! # The meaning of the inclusion of offsetmaps

A value stands for words of bits. A sequence of bits belongs to an offsetmap when every occurrence
of a stored value, cut or not, is one of its words, chosen independently of the others.
-/
namespace FramaC.Offsetmap
open OffsetmapLattice
variable {V β : Type}

def bitsOf (words : ℤ → V → Set (List β)) (v : V) : Set β := {x | ∃ m, ∃ w ∈ words m v, x ∈ w}

/-- What the values stand for: `words m v` are the words of `m` bits of `v`. Inclusion is sound, and the bits of an
isotropic value are independent. -/
structure Concretization (V β : Type) [OffsetmapLattice V] where
  words : ℤ → V → Set (List β)
  length_words : ∀ {m : ℤ} {v : V} {w : List β}, w ∈ words m v → (w.length : ℤ) = m
  sound : ∀ {v1 v2 : V}, isIncluded v1 v2 = true → ∀ m, words m v1 ⊆ words m v2
  isotropic : ∀ {v : V} {w : List β}, isIsotropic v = true → w ≠ [] → (∀ x ∈ w, x ∈ bitsOf words v) → w ∈ words w.length v

/-- The number of the value that covers a bit, from the alignment of the segment. -/
def Seg.occurrence (s : Seg V) (b : ℤ) : ℤ := (b - (s.lo + s.rem)) / s.modu

section Occurrences
variable {s s1 s2 : Seg V} {b b' x : ℤ}

theorem Seg.position_range (hm : 0 < s.modu) (b : ℤ) : 0 ≤ (s.bind b).position ∧ (s.bind b).position < s.modu :=
  ⟨Int.emod_nonneg _ hm.ne',Int.emod_lt_of_pos _ hm⟩

theorem Seg.eq_position (s : Seg V) (b : ℤ) :
    b = s.lo + s.rem + s.modu * s.occurrence b + (s.bind b).position := by
  have h := Int.mul_ediv_add_emod (b - (s.lo + s.rem)) s.modu
  rw [Seg.occurrence,Seg.bind]
  dsimp only
  omega

theorem Seg.occurrence_lt (hm : 0 < s.modu) (hx : x % s.modu = (s.lo + s.rem) % s.modu) (h1 : b < x) (h2 : x ≤ b') :
    s.occurrence b < s.occurrence b' := by
  obtain ⟨k,hk⟩ := Progression.dvd_sub_of_emod_eq hx
  have hlt : s.occurrence b < k := by
    apply Int.ediv_lt_of_lt_mul hm
    rw [mul_comm]
    omega
  have hle : k ≤ s.occurrence b' := by
    apply (Int.le_ediv_iff_mul_le hm).mpr
    rw [mul_comm]
    omega
  omega

/-- Two nodes cut the values that they repeat in the same way, and the bounds of one of them that the other one goes
beyond do not cut a value. -/
structure Seg.Aligned (s1 s2 : Seg V) : Prop where
  size : s1.modu = s2.modu
  rem : (s1.lo + s1.rem) % s1.modu = (s2.lo + s2.rem) % s2.modu
  start : s1.lo ≠ s2.lo → max s1.lo s2.lo % s1.modu = (s1.lo + s1.rem) % s1.modu
  stop : s1.hi < s2.hi → (s1.hi + 1) % s1.modu = (s1.lo + s1.rem) % s1.modu

theorem Seg.aligned_iff : (decide ((s1.lo + s1.rem) % s1.modu = (s2.lo + s2.rem) % s2.modu) && decide (s1.modu = s2.modu) &&
    (decide (s1.lo = s2.lo) || decide (max s1.lo s2.lo % s1.modu = (s1.lo + s1.rem) % s1.modu)) &&
    (decide (s1.hi = s2.hi) || if s1.hi < s2.hi then
      decide ((min s1.hi s2.hi + 1) % s1.modu = (s1.lo + s1.rem) % s1.modu) else true)) = true ↔ s1.Aligned s2 := by
  simp only [Bool.and_eq_true,Bool.or_eq_true,decide_eq_true_eq]
  constructor
  · rintro ⟨⟨⟨hr,hm⟩,hmin⟩,hmax⟩
    refine ⟨hm,hr,hmin.resolve_left,?_⟩
    intro hlt
    rw [if_pos hlt,decide_eq_true_iff,min_eq_left hlt.le] at hmax
    exact hmax.resolve_left hlt.ne
  · intro h
    refine ⟨⟨⟨h.rem,h.size⟩,or_iff_not_imp_left.mpr h.start⟩,.inr ?_⟩
    split
    · rename_i hlt
      rw [decide_eq_true_iff,min_eq_left hlt.le]
      exact h.stop hlt
    · rfl

theorem Seg.isIncluded_iff [OffsetmapLattice V] : s1.isIncluded s2 = true ↔
    OffsetmapLattice.isIncluded s1.v s2.v = true ∧
      (isIsotropic s1.v = true ∨ isIsotropic s2.v = true ∨ s1.Aligned s2) := by
  rw [Seg.isIncluded,isIncludedNodesValues]
  by_cases hiso : (isIsotropic s1.v || isIsotropic s2.v) = true
  · rw [if_pos hiso]
    rw [Bool.or_eq_true] at hiso
    tauto
  · rw [if_neg hiso]
    rw [Bool.or_eq_true] at hiso
    dsimp only
    rw [Bool.if_false_right,Bool.and_eq_true,decide_eq_true_iff,Seg.aligned_iff]
    tauto

section Aligned
variable (h : s1.Aligned s2) (hm : 0 < s2.modu)
include h hm

omit hm in
theorem Seg.Aligned.position (b : ℤ) : (s1.bind b).position = (s2.bind b).position := by
  have hr := h.rem
  rw [h.size] at hr
  simp only [Seg.bind,h.size]
  rw [Int.sub_emod b (s1.lo + s1.rem),hr,← Int.sub_emod]

theorem Seg.Aligned.occurrence_eq_iff : s1.occurrence b = s1.occurrence b' ↔ s2.occurrence b = s2.occurrence b' := by
  have h1 := s1.eq_position b
  have h1' := s1.eq_position b'
  have h2 := s2.eq_position b
  have h2' := s2.eq_position b'
  rw [h.position] at h1 h1'
  rw [h.size] at h1 h1'
  have hd : s2.modu * (s1.occurrence b - s1.occurrence b') = s2.modu * (s2.occurrence b - s2.occurrence b') := by
    rw [mul_sub,mul_sub]
    omega
  have := mul_left_cancel₀ hm.ne' hd
  omega

theorem Seg.Aligned.mem_of_occurrence (hb : s1.lo ≤ b ∧ b ≤ s1.hi)
    (hb' : s2.lo ≤ b' ∧ b' ≤ s2.hi) (ho : s2.occurrence b' = s2.occurrence b) : s1.lo ≤ b' ∧ b' ≤ s1.hi := by
  have ho1 := (h.occurrence_eq_iff hm).mpr ho
  have hm1 : 0 < s1.modu := h.size ▸ hm
  constructor
  · by_contra hlt
    have hstart := h.start (by omega)
    rw [max_eq_left (by omega)] at hstart
    have := Seg.occurrence_lt hm1 hstart (show b' < s1.lo by omega) hb.1
    omega
  · by_contra hgt
    have hstop := h.stop (by omega)
    have := Seg.occurrence_lt hm1 hstop (show b < s1.hi + 1 by omega) (show s1.hi + 1 ≤ b' by omega)
    omega

end Aligned

end Occurrences

namespace Concretization
variable [OffsetmapLattice V] (γ : Concretization V β)

/-- The part of a sequence in a segment is made of words of its value, cut at the bounds of the segment. -/
def Denotes (s : Seg V) (f : ℤ → β) : Prop :=
  ∀ b, s.lo ≤ b → b ≤ s.hi → ∃ w ∈ γ.words s.modu s.v, ∀ b', s.lo ≤ b' → b' ≤ s.hi →
    s.occurrence b' = s.occurrence b → w[(s.bind b').position.toNat]? = some (f b')

/-- The sequences of bits of the tree rooted at `o`. -/
def bitSequences (o : ℤ) (t : Offsetmap V) : Set (ℤ → β) := {f | ∀ s ∈ segs o t, γ.Denotes s f}

/-- Words whose bits come from isotropic values that are included in a value are words of this value. -/
def Mixes : Prop :=
  ∀ (v : V) (w : List β), w ≠ [] → (∀ x ∈ w, ∃ u, isIsotropic u = true ∧ isIncluded u v = true ∧ x ∈ bitsOf γ.words u) →
    w ∈ γ.words w.length v

variable {γ} {s s1 s2 : Seg V} {f : ℤ → β} {b : ℤ}

theorem Denotes.mem_bitsOf (h : γ.Denotes s f) (h1 : s.lo ≤ b) (h2 : b ≤ s.hi) : f b ∈ bitsOf γ.words s.v := by
  obtain ⟨w,hw,hf⟩ := h b h1 h2
  exact ⟨s.modu,w,hw,List.mem_of_getElem? (hf b h1 h2 rfl)⟩

theorem bitsOf_mono {v1 v2 : V} (h : isIncluded v1 v2 = true) : bitsOf γ.words v1 ⊆ bitsOf γ.words v2 := by
  rintro x ⟨m,w,hw,hx⟩
  exact ⟨m,w,γ.sound h m hw,hx⟩

theorem mem_words_of_isotropic {v : V} {w : List β} (hv : isIsotropic v = true) (hne : w ≠ [])
    (hw : ∀ x ∈ w, ∃ u, isIsotropic u = true ∧ isIncluded u v = true ∧ x ∈ bitsOf γ.words u) : w ∈ γ.words w.length v := by
  apply γ.isotropic hv hne
  intro x hx
  obtain ⟨u,-,hle,hx⟩ := hw x hx
  exact bitsOf_mono hle hx

omit [OffsetmapLattice V] in
theorem exists_word (X : β → Prop) (hm : 0 < s.modu) (h1 : s.lo ≤ b) (h2 : b ≤ s.hi)
    (hX : ∀ b', s.lo ≤ b' → b' ≤ s.hi → s.occurrence b' = s.occurrence b → X (f b')) :
    ∃ w : List β, (w.length : ℤ) = s.modu ∧ (∀ x ∈ w, X x) ∧ ∀ b', s.lo ≤ b' → b' ≤ s.hi →
      s.occurrence b' = s.occurrence b → w[(s.bind b').position.toNat]? = some (f b') := by
  let bit (p : ℕ) : ℤ := s.lo + s.rem + s.modu * s.occurrence b + p
  refine ⟨(List.range s.modu.toNat).map fun p => if s.lo ≤ bit p ∧ bit p ≤ s.hi then f (bit p) else f b,?_,?_,?_⟩
  · simp
    omega
  · intro x hx
    obtain ⟨p,hp,rfl⟩ := List.mem_map.mp hx
    have hp := List.mem_range.mp hp
    split
    · rename_i hb
      apply hX _ hb.1 hb.2
      have he : bit p - (s.lo + s.rem) = p + s.modu * s.occurrence b := by
        dsimp only [bit]
        ring
      rw [Seg.occurrence,he,Int.add_mul_ediv_left _ _ hm.ne',Int.ediv_eq_zero_of_lt (by omega) (by omega),zero_add]
    · exact hX b h1 h2 rfl
  · intro b' h1' h2' ho
    have hp := s.position_range hm b'
    have hb : bit (s.bind b').position.toNat = b' := by
      dsimp only [bit]
      rw [← ho,Int.toNat_of_nonneg hp.1]
      exact (s.eq_position b').symm
    rw [List.getElem?_map,List.getElem?_range (by omega),Option.map_some,hb,if_pos ⟨h1',h2'⟩]

theorem exists_isotropic_map [DecidableEq V] (u : ℤ → V) (n : ℕ)
    (hu : ∀ b : ℤ, 0 ≤ b → b < n → isIsotropic (u b) = true) :
    ∃ o t, Canon 0 (n - 1) o t ∧ ∀ b : ℤ, 0 ≤ b → b < n → HasVal (segs o t) b (u b) := by
  induction n with
  | zero => exact ⟨0,.empty,canon_empty 0,fun b h1 h2 => absurd h2 (by simpa using h1)⟩
  | succ n ih =>
    obtain ⟨o,t,hc,hval⟩ := ih fun b h1 h2 => hu b h1 (by omega)
    have hiso : isIsotropic (u n) = true ∨ (0 : ℤ) ≤ 0 ∧ (0 : ℤ) < 1 := .inl (hu n (by omega) (by omega))
    obtain ⟨o',t',he,hc',-⟩ := addNode_right hc (show (n : ℤ) ≤ n from le_rfl) hiso
    refine ⟨o',t',by simpa using hc',?_⟩
    intro b h1 h2
    apply hasVal_addNode_right hc le_rfl hiso he
    by_cases hb : b < n
    · exact .inl (hval b h1 hb)
    · obtain rfl : b = n := by omega
      exact .inr ⟨le_rfl,le_rfl,rfl⟩

theorem mem_bitSequences_of_isotropic [DecidableEq V] {lo hi o : ℤ} {t : Offsetmap V} (hc : Canon lo hi o t)
    (h : ∀ b v, HasVal (segs o t) b v → isIsotropic v = true ∧ f b ∈ bitsOf γ.words v) : f ∈ γ.bitSequences o t := by
  intro s hs b h1 h2
  obtain ⟨hiso,hb⟩ := h b s.v ⟨s,hs,h1,h2,rfl⟩
  obtain ⟨-,-,hunit⟩ := hc.2.1 s hs
  obtain ⟨hrem,hmodu⟩ := hunit hiso
  have hword : [f b] ∈ γ.words s.modu s.v := by
    rw [hmodu]
    exact γ.isotropic (w := [f b]) hiso (by simp) (by simpa using hb)
  refine ⟨[f b],hword,?_⟩
  intro b' _ _ ho
  simp only [Seg.occurrence,hmodu,Int.ediv_one] at ho
  obtain rfl : b' = b := by omega
  simp [Seg.bind,hmodu]

theorem Denotes.mem_words {v : V} {w : List β} (h : γ.Denotes ⟨0,w.length - 1,0,w.length,v⟩ f) (hne : w ≠ [])
    (hf : ∀ i : ℕ, i < w.length → w[i]? = some (f i)) : w ∈ γ.words w.length v := by
  have hm : 0 < (w.length : ℤ) := by exact_mod_cast List.length_pos_of_ne_nil hne
  obtain ⟨w',hw',hf'⟩ := h 0 le_rfl (show (0 : ℤ) ≤ w.length - 1 by omega)
  dsimp only at hw' hf'
  have hlen : w'.length = w.length := by exact_mod_cast γ.length_words hw'
  suffices he : w' = w from he ▸ hw'
  apply List.ext_getElem?
  intro i
  by_cases hi : i < w.length
  · have hi' : (i : ℤ) < w.length := by exact_mod_cast hi
    have hdiv : (i : ℤ) / w.length = 0 := Int.ediv_eq_zero_of_lt (by omega) hi'
    have hmod : (i : ℤ) % w.length = i := Int.emod_eq_of_lt (by omega) hi'
    have hfi := hf' i (by omega) (by omega) (by simp [Seg.occurrence,hdiv])
    simp only [Seg.bind,add_zero,sub_zero,hmod,Int.toNat_natCast] at hfi
    rw [hfi,hf i hi]
  · rw [List.getElem?_eq_none (by omega),List.getElem?_eq_none (by omega)]

theorem denotes_of_isIncluded (hmix : γ.Mixes) (hm : 0 < s2.modu)
    (hs : ∀ b, s2.lo ≤ b → b ≤ s2.hi → ∃ s1 : Seg V, (s1.lo ≤ b ∧ b ≤ s1.hi) ∧ γ.Denotes s1 f ∧ s1.isIncluded s2 = true) :
    γ.Denotes s2 f := by
  intro b h1 h2
  have hne : ∀ {w : List β}, (w.length : ℤ) = s2.modu → w ≠ [] := by
    rintro w hw rfl
    simp only [List.length_nil,Nat.cast_zero] at hw
    omega
  by_cases hv : isIsotropic s2.v = true
  · have hX : ∀ b', s2.lo ≤ b' → b' ≤ s2.hi → s2.occurrence b' = s2.occurrence b → f b' ∈ bitsOf γ.words s2.v := by
      intro b' h1' h2' _
      obtain ⟨s1,hb,hd,hle⟩ := hs b' h1' h2'
      exact bitsOf_mono (Seg.isIncluded_iff.mp hle).1 (hd.mem_bitsOf hb.1 hb.2)
    obtain ⟨w,hl,hw,hf⟩ := exists_word (· ∈ bitsOf γ.words s2.v) hm h1 h2 hX
    exact ⟨w,hl ▸ γ.isotropic hv (hne hl) hw,hf⟩
  -- an anisotropic node that meets the occurrence holds all of it
  by_cases hex : ∃ b', (s2.lo ≤ b' ∧ b' ≤ s2.hi) ∧ s2.occurrence b' = s2.occurrence b ∧
      ∃ s1 : Seg V, (s1.lo ≤ b' ∧ b' ≤ s1.hi) ∧ γ.Denotes s1 f ∧ s1.isIncluded s2 = true ∧ isIsotropic s1.v ≠ true
  · obtain ⟨b',hb',ho,s1,hb1,hd,hle,haniso⟩ := hex
    obtain ⟨hle,h⟩ := Seg.isIncluded_iff.mp hle
    have ha : s1.Aligned s2 := (h.resolve_left haniso).resolve_left hv
    obtain ⟨w,hw,hf⟩ := hd b' hb1.1 hb1.2
    refine ⟨w,γ.sound hle _ (ha.size ▸ hw),?_⟩
    intro c hc1 hc2 hoc
    have hoc' := hoc.trans ho.symm
    obtain ⟨hc1',hc2'⟩ := ha.mem_of_occurrence hm hb1 ⟨hc1,hc2⟩ hoc'
    rw [← ha.position]
    exact hf c hc1' hc2' ((ha.occurrence_eq_iff hm).mpr hoc')
  · have hX : ∀ b', s2.lo ≤ b' → b' ≤ s2.hi → s2.occurrence b' = s2.occurrence b →
        ∃ u, isIsotropic u = true ∧ isIncluded u s2.v = true ∧ f b' ∈ bitsOf γ.words u := by
      intro b' h1' h2' ho
      obtain ⟨s1,hb,hd,hle⟩ := hs b' h1' h2'
      have hiso : isIsotropic s1.v = true := by
        by_contra haniso
        exact hex ⟨b',⟨h1',h2'⟩,ho,s1,hb,hd,hle,haniso⟩
      exact ⟨s1.v,hiso,(Seg.isIncluded_iff.mp hle).1,hd.mem_bitsOf hb.1 hb.2⟩
    obtain ⟨w,hl,hw,hf⟩ := exists_word (fun x => ∃ u, isIsotropic u = true ∧ isIncluded u s2.v = true ∧
      x ∈ bitsOf γ.words u) hm h1 h2 hX
    exact ⟨w,hl ▸ hmix s2.v w (hne hl) hw,hf⟩

variable [DecidableEq V] {lo hi : ℤ} {t1 t2 t3 : Offsetmap V} (hrefl : ∀ v : V, isIncluded v v = true)
include hrefl

theorem bitSequences_subset (hmix : γ.Mixes) (h1 : Spanning lo hi (0,t1)) (h2 : Spanning lo hi (0,t2))
    (h : isIncludedMap t1 t2 = true) : γ.bitSequences 0 t1 ⊆ γ.bitSequences 0 t2 := by
  have hc1 := spanning_iff_canon.mp h1
  have hc2 := spanning_iff_canon.mp h2
  have hnodes := (isIncludedAux_iff_nodes hrefl hc1.1 hc2.1).mp h
  intro f hf s2 hs2
  have hok := hc2.2.1 s2 hs2
  have hmem := hc2.1.mem_segs hs2
  apply denotes_of_isIncluded hmix (show 0 < s2.modu from hok.1.trans_lt hok.2.1)
  intro b hb1 hb2
  obtain ⟨s1,hs1,hb⟩ := hc1.1.tiles.exists_seg (show lo ≤ b by omega) (show b ≤ hi by omega)
  exact ⟨s1,hb,hf s1 hs1,hnodes b trivial s1 s2 ⟨hs1,hb⟩ ⟨hs2,hb1,hb2⟩⟩

theorem mixes_of_subset (hs : ∀ (lo hi : ℤ) (t1 t2 : Offsetmap V), Spanning lo hi (0,t1) → Spanning lo hi (0,t2) →
    isIncludedMap t1 t2 = true → γ.bitSequences 0 t1 ⊆ γ.bitSequences 0 t2) : γ.Mixes := by
  intro v w hne hw
  by_cases hv : isIsotropic v = true
  · exact mem_words_of_isotropic hv hne hw
  have hm : 0 < (w.length : ℤ) := by exact_mod_cast List.length_pos_of_ne_nil hne
  let f (b : ℤ) : β := w.getD b.toNat (w.head hne)
  have hget : ∀ i : ℕ, i < w.length → w[i]? = some (f i) := by
    intro i hi
    simp [f,hi]
  have hu : ∀ b : ℤ, ∃ u, 0 ≤ b → b < w.length → isIsotropic u = true ∧ isIncluded u v = true ∧ f b ∈ bitsOf γ.words u := by
    intro b
    by_cases hb : 0 ≤ b ∧ b < w.length
    · have hx := List.mem_of_getElem? (hget b.toNat (by omega))
      rw [Int.toNat_of_nonneg hb.1] at hx
      obtain ⟨u,hu⟩ := hw _ hx
      exact ⟨u,fun _ _ => hu⟩
    · exact ⟨v,fun h1 h2 => absurd ⟨h1,h2⟩ hb⟩
  choose u hu using hu
  obtain ⟨o,t,hc,hval⟩ := exists_isotropic_map u w.length fun b h1 h2 => (hu b h1 h2).1
  obtain rfl := hc.1.root_zero
  have hbits : ∀ b v', HasVal (segs 0 t) b v' → isIsotropic v' = true ∧ isIncluded v' v = true ∧ f b ∈ bitsOf γ.words v' := by
    intro b v' hv'
    obtain ⟨h1,h2⟩ := hv'.mem hc.1.tiles
    rw [hc.1.tiles.hasVal_unique hv' (hval b h1 (by omega))]
    exact hu b h1 (by omega)
  have hf : f ∈ γ.bitSequences 0 t := by
    apply mem_bitSequences_of_isotropic hc
    intro b v' hv'
    exact ⟨(hbits b v' hv').1,(hbits b v' hv').2.2⟩
  obtain ⟨hc2,hsegs⟩ := intervalAux_spec (v := v) (show (0 : ℤ) ≤ w.length - 1 by omega) (.inr ⟨le_rfl,hm⟩)
  rw [newSeg,if_neg hv] at hsegs
  have hle : isIncludedMap t (intervalAux (w.length - 1 - 0) 0 w.length v) = true := by
    apply (isIncludedAux_iff_nodes hrefl hc.1 hc2.1).mpr
    intro b _ s1 s2 h1 h2
    obtain rfl : s2 = _ := List.mem_singleton.mp (hsegs ▸ h2.1)
    obtain ⟨hiso,hle,-⟩ := hbits b s1.v (hasVal_iff.mpr ⟨s1,h1,rfl⟩)
    exact Seg.isIncluded_iff.mpr ⟨hle,.inl hiso⟩
  have hd := hs 0 (w.length - 1) t _ (spanning_iff_canon.mpr hc) (spanning_iff_canon.mpr hc2) hle hf
  exact (hd _ (hsegs ▸ List.mem_singleton.mpr rfl)).mem_words hne hget

end Concretization

def NoIsotropicBetween (V : Type) [OffsetmapLattice V] : Prop :=
  ∀ v1 v2 v3 : V, isIncluded v1 v2 = true → isIncluded v2 v3 = true → isIsotropic v2 = true →
    isIsotropic v1 = true ∨ isIsotropic v3 = true

section Transitivity
variable {s1 s3 : Seg V} {b lo hi : ℤ} {t1 t2 t3 : Offsetmap V}

theorem Seg.Aligned.trans (h1 : s1.lo ≤ b ∧ b ≤ s1.hi) (h3 : s3.lo ≤ b ∧ b ≤ s3.hi)
    (h : ∀ c, s1.lo ≤ c ∧ c ≤ s1.hi → s3.lo ≤ c ∧ c ≤ s3.hi →
      ∃ s2 : Seg V, (s2.lo ≤ c ∧ c ≤ s2.hi) ∧ s1.Aligned s2 ∧ s2.Aligned s3) : s1.Aligned s3 := by
  obtain ⟨s2,-,h12,h23⟩ := h b h1 h3
  refine ⟨h12.size.trans h23.size,?_,?_,?_⟩
  · rw [h12.rem,h23.rem]
  · intro hne
    obtain ⟨s2,hb,h12,h23⟩ := h (max s1.lo s3.lo) (by omega) (by omega)
    by_cases hlo : s1.lo ≠ s2.lo ∧ max s1.lo s2.lo = max s1.lo s3.lo
    · rw [← hlo.2]
      exact h12.start hlo.1
    · have hlo' : s2.lo ≠ s3.lo ∧ max s2.lo s3.lo = max s1.lo s3.lo := by omega
      rw [h12.rem,h12.size,← hlo'.2]
      exact h23.start hlo'.1
  · intro hlt
    obtain ⟨s2,hb,h12,h23⟩ := h s1.hi (by omega) (by omega)
    by_cases hhi : s1.hi = s2.hi
    · rw [h12.rem,h12.size,hhi]
      exact h23.stop (hhi ▸ hlt)
    · exact h12.stop (by omega)

variable [DecidableEq V] [OffsetmapLattice V] (hrefl : ∀ v : V, isIncluded v v = true)
include hrefl

theorem isIncludedMap_trans (htrans : ∀ v1 v2 v3 : V, isIncluded v1 v2 = true → isIncluded v2 v3 = true → isIncluded v1 v3 = true)
    (hbetween : NoIsotropicBetween V) (h1 : Spanning lo hi (0,t1)) (h2 : Spanning lo hi (0,t2)) (h3 : Spanning lo hi (0,t3))
    (h12 : isIncludedMap t1 t2 = true) (h23 : isIncludedMap t2 t3 = true) : isIncludedMap t1 t3 = true := by
  have hc1 := (spanning_iff_canon.mp h1).1
  have hc2 := (spanning_iff_canon.mp h2).1
  have hc3 := (spanning_iff_canon.mp h3).1
  have hn12 := (isIncludedAux_iff_nodes hrefl hc1 hc2).mp h12
  have hn23 := (isIncludedAux_iff_nodes hrefl hc2 hc3).mp h23
  apply (isIncludedAux_iff_nodes hrefl hc1 hc3).mpr
  intro b _ s1 s3 hs1 hs3
  -- the node of the second map at a common bit
  have hmiddle : ∀ c, s1.lo ≤ c ∧ c ≤ s1.hi → s3.lo ≤ c ∧ c ≤ s3.hi →
      ∃ s2 : Seg V, (s2.lo ≤ c ∧ c ≤ s2.hi) ∧ s1.isIncluded s2 = true ∧ s2.isIncluded s3 = true := by
    intro c hc hc'
    have hmem := hc1.mem_segs hs1.1
    obtain ⟨s2,hs2,hb⟩ := hc2.tiles.exists_seg (show lo ≤ c by omega) (show c ≤ hi by omega)
    exact ⟨s2,hb,hn12 c trivial s1 s2 ⟨hs1.1,hc⟩ ⟨hs2,hb⟩,hn23 c trivial s2 s3 ⟨hs2,hb⟩ ⟨hs3.1,hc'⟩⟩
  obtain ⟨s2,-,h12,h23⟩ := hmiddle b hs1.2 hs3.2
  refine Seg.isIncluded_iff.mpr ⟨htrans _ _ _ (Seg.isIncluded_iff.mp h12).1 (Seg.isIncluded_iff.mp h23).1,?_⟩
  rw [or_iff_not_imp_left,or_iff_not_imp_left]
  intro hv1 hv3
  refine Seg.Aligned.trans hs1.2 hs3.2 fun c hc hc' => ?_
  obtain ⟨s2,hb,h12,h23⟩ := hmiddle c hc hc'
  rw [Seg.isIncluded_iff] at h12 h23
  have hv2 : isIsotropic s2.v ≠ true := fun hv2 => (hbetween _ _ _ h12.1 h23.1 hv2).elim hv1 hv3
  exact ⟨s2,hb,(h12.2.resolve_left hv1).resolve_left hv2,(h23.2.resolve_left hv2).resolve_left hv3⟩

theorem isIncludedMap_intervalAux {r1 m1 r2 m2 : ℤ} {v1 v2 : V} (hle : 0 ≤ hi)
    (hv1 : isIsotropic v1 = true ∨ 0 ≤ r1 ∧ r1 < m1) (hv2 : isIsotropic v2 = true ∨ 0 ≤ r2 ∧ r2 < m2) :
    isIncludedMap (intervalAux (hi - 0) r1 m1 v1) (intervalAux (hi - 0) r2 m2 v2) = true ↔
      (newSeg 0 hi r1 m1 v1).isIncluded (newSeg 0 hi r2 m2 v2) = true := by
  obtain ⟨hc1,hs1⟩ := intervalAux_spec hle hv1
  obtain ⟨hc2,hs2⟩ := intervalAux_spec hle hv2
  have hbit : ∀ (r m : ℤ) (v : V), HasSeg [newSeg 0 hi r m v] 0 (newSeg 0 hi r m v) := by
    intro r m v
    rw [newSeg]
    split
    · exact ⟨by simp,le_rfl,hle⟩
    · exact ⟨by simp,le_rfl,hle⟩
  rw [isIncludedMap,isIncludedAux_iff_nodes hrefl hc1.1 hc2.1,NodesIn,hs1,hs2]
  constructor
  · intro h
    exact h 0 trivial _ _ (hbit r1 m1 v1) (hbit r2 m2 v2)
  · intro h b _ s1 s2 h1 h2
    rwa [List.mem_singleton.mp h1.1,List.mem_singleton.mp h2.1]

theorem noIsotropicBetween_of_trans
    (h : ∀ (lo hi : ℤ) (t1 t2 t3 : Offsetmap V), Spanning lo hi (0,t1) → Spanning lo hi (0,t2) → Spanning lo hi (0,t3) →
      isIncludedMap t1 t2 = true → isIncludedMap t2 t3 = true → isIncludedMap t1 t3 = true) : NoIsotropicBetween V := by
  intro v1 v2 v3 h12 h23 hv2
  by_contra hiso
  obtain ⟨hv1,hv3⟩ := not_or.mp hiso
  have hle : (0 : ℤ) ≤ 1 := by omega
  have ha1 : isIsotropic v1 = true ∨ (0 : ℤ) ≤ 0 ∧ (0 : ℤ) < 2 := .inr ⟨le_rfl,by omega⟩
  have ha2 : isIsotropic v2 = true ∨ (0 : ℤ) ≤ 0 ∧ (0 : ℤ) < 1 := .inl hv2
  have ha3 : isIsotropic v3 = true ∨ (0 : ℤ) ≤ 1 ∧ (1 : ℤ) < 2 := .inr ⟨hle,by omega⟩
  have h12 := (isIncludedMap_intervalAux hrefl hle ha1 ha2).mpr
    (Seg.isIncluded_iff.mpr (by simp only [newSeg,if_neg hv1,if_pos hv2]; exact ⟨h12,.inr (.inl hv2)⟩))
  have h23 := (isIncludedMap_intervalAux hrefl hle ha2 ha3).mpr
    (Seg.isIncluded_iff.mpr (by simp only [newSeg,if_neg hv3,if_pos hv2]; exact ⟨h23,.inl hv2⟩))
  have h13 := h 0 1 _ _ _ (spanning_iff_canon.mpr (intervalAux_spec hle ha1).1)
    (spanning_iff_canon.mpr (intervalAux_spec hle ha2).1) (spanning_iff_canon.mpr (intervalAux_spec hle ha3).1) h12 h23
  have hnodes := Seg.isIncluded_iff.mp ((isIncludedMap_intervalAux hrefl hle ha1 ha3).mp h13)
  simp only [newSeg,if_neg hv1,if_neg hv3] at hnodes
  have hrem := ((hnodes.2.resolve_left hv1).resolve_left hv3).rem
  simp at hrem

omit hrefl in
theorem isIncludedMap_refl (t : Offsetmap V) : isIncludedMap t t = true := by
  cases t with
  | empty => rw [isIncludedMap,isIncludedAux]
  | node max offl subl offr subr rem modu v =>
    rw [isIncludedMap,isIncludedAux]
    exact if_pos ⟨rfl,rfl⟩

end Transitivity

/-- Inclusion of well-formed maps is sound exactly when the isotropic values included in a value can be mixed in it, it is
reflexive, and it is transitive exactly when no isotropic value lies between two anisotropic ones. -/
theorem isIncludedMap_sound_refl_trans (V β : Type) [DecidableEq V] [OffsetmapLattice V] (γ : Concretization V β)
    (hrefl : ∀ v : V, isIncluded v v = true)
    (htrans : ∀ v1 v2 v3 : V, isIncluded v1 v2 = true → isIncluded v2 v3 = true → isIncluded v1 v3 = true) :
    ((∀ (lo hi : ℤ) (t1 t2 : Offsetmap V), Spanning lo hi (0,t1) → Spanning lo hi (0,t2) →
      isIncludedMap t1 t2 = true → γ.bitSequences 0 t1 ⊆ γ.bitSequences 0 t2) ↔ γ.Mixes) ∧
    (∀ t : Offsetmap V, isIncludedMap t t = true) ∧
    ((∀ (lo hi : ℤ) (t1 t2 t3 : Offsetmap V), Spanning lo hi (0,t1) → Spanning lo hi (0,t2) → Spanning lo hi (0,t3) →
      isIncludedMap t1 t2 = true → isIncludedMap t2 t3 = true → isIncludedMap t1 t3 = true) ↔ NoIsotropicBetween V) := by
  refine ⟨⟨γ.mixes_of_subset hrefl,?_⟩,isIncludedMap_refl,⟨noIsotropicBetween_of_trans hrefl,?_⟩⟩
  · intro hmix lo hi t1 t2 h1 h2 h
    exact Concretization.bitSequences_subset hrefl hmix h1 h2 h
  · intro hbetween lo hi t1 t2 t3 h1 h2 h3 h12 h23
    exact isIncludedMap_trans hrefl htrans hbetween h1 h2 h3 h12 h23

namespace ByteSet

/-- The words of a value: `allValues` is a byte, which is extended with zeros. -/
def words (m : ℤ) : ByteSet → Set (List Bool)
  | bottom => ∅
  | zero => {w | (w.length : ℤ) = m ∧ ∀ x ∈ w, x = false}
  | allValues => {w | (w.length : ℤ) = m ∧ ∀ x ∈ w.drop 8, x = false}
  | topInt => {w | (w.length : ℤ) = m}

theorem words_mono {v1 v2 : ByteSet} (h : isIncluded v1 v2 = true) (m : ℤ) : words m v1 ⊆ words m v2 := by
  have hcases : v1 = bottom ∨ v1 = v2 ∨ v2 = topInt := by
    revert h
    cases v1 <;> cases v2 <;> decide
  rcases hcases with rfl | rfl | rfl
  · exact Set.empty_subset _
  · exact subset_rfl
  · intro w hw
    cases v1 with
    | bottom => exact hw.elim
    | zero => exact hw.1
    | allValues => exact hw.1
    | topInt => exact hw

theorem eq_false_of_mem_bitsOf_zero {x : Bool} (h : x ∈ bitsOf words zero) : x = false := by
  obtain ⟨m,w,hw,hx⟩ := h
  exact hw.2 x hx

theorem not_mem_bitsOf_bottom {x : Bool} : x ∉ bitsOf words bottom := fun ⟨_,_,hw,_⟩ => hw

def concretization : Concretization ByteSet Bool where
  words := words
  length_words := by
    intro m v w hw
    exact words_mono (show isIncluded v topInt = true by cases v <;> rfl) m hw
  sound := words_mono
  isotropic := by
    intro v w hv hne hw
    cases v with
    | bottom =>
      obtain ⟨x,hx⟩ := List.exists_mem_of_ne_nil w hne
      exact absurd (hw x hx) not_mem_bitsOf_bottom
    | zero => exact ⟨rfl,fun x hx => eq_false_of_mem_bitsOf_zero (hw x hx)⟩
    | allValues => exact absurd hv (by decide)
    | topInt => exact rfl

theorem mixes : concretization.Mixes := by
  intro v w hne hw
  by_cases hv : isIsotropic v = true
  · exact Concretization.mem_words_of_isotropic hv hne hw
  · obtain rfl : v = allValues := by
      revert hv
      cases v <;> decide
    obtain ⟨x,hx⟩ := List.exists_mem_of_ne_nil w hne
    obtain ⟨u,hiso,hle,hb⟩ := hw x hx
    -- only `bottom` is isotropic and included in `allValues`
    obtain rfl : u = bottom := by
      revert hiso hle
      cases u <;> decide
    exact absurd hb not_mem_bitsOf_bottom

theorem noIsotropicBetween : NoIsotropicBetween ByteSet := by
  intro v1 v2 v3
  cases v1 <;> cases v2 <;> cases v3 <;> decide

end ByteSet

/-- Two bytes are included in any sequence of bits. -/
theorem isIncludedMap_sound_refl_trans_bytes :
    ByteSet.concretization.bitSequences 0 (intervalAux 15 0 8 ByteSet.allValues) ⊆
      ByteSet.concretization.bitSequences 0 (intervalAux 15 0 1 ByteSet.topInt) ∧
    isIncludedMap (intervalAux 15 0 8 ByteSet.allValues) (intervalAux 15 0 8 ByteSet.allValues) = true ∧
    isIncludedMap (intervalAux 15 0 8 ByteSet.allValues) (intervalAux 15 0 1 ByteSet.topInt) = true := by
  have hrefl : ∀ v : ByteSet, isIncluded v v = true := by
    intro v
    cases v <;> rfl
  have htrans : ∀ v1 v2 v3 : ByteSet, isIncluded v1 v2 = true → isIncluded v2 v3 = true → isIncluded v1 v3 = true := by
    intro v1 v2 v3
    cases v1 <;> cases v2 <;> cases v3 <;> decide
  have hle : (0 : ℤ) ≤ 15 := by omega
  have hbytes : isIsotropic ByteSet.allValues = true ∨ (0 : ℤ) ≤ 0 ∧ (0 : ℤ) < 8 := .inr (by omega)
  have htop : isIsotropic ByteSet.topInt = true ∨ (0 : ℤ) ≤ 0 ∧ (0 : ℤ) < 1 := .inl rfl
  have h1 : Spanning 0 15 (0,intervalAux 15 0 8 ByteSet.allValues) := spanning_iff_canon.mpr (intervalAux_spec hle hbytes).1
  have h2 : Spanning 0 15 (0,intervalAux 15 0 1 ByteSet.topInt) := spanning_iff_canon.mpr (intervalAux_spec hle htop).1
  have h12 : isIncludedMap (intervalAux 15 0 8 ByteSet.allValues) (intervalAux 15 0 1 ByteSet.topInt) = true :=
    (isIncludedMap_intervalAux hrefl hle hbytes htop).mpr (by decide)
  obtain ⟨hsound,hself,htransmap⟩ := isIncludedMap_sound_refl_trans ByteSet Bool ByteSet.concretization hrefl htrans
  exact ⟨hsound.mpr ByteSet.mixes 0 15 _ _ h1 h2 h12,hself _,
    htransmap.mpr ByteSet.noIsotropicBetween 0 15 _ _ _ h1 h1 h2 (hself _) h12⟩

/-- Values of bits, which may be indeterminate (`none`). The words of `uniform` are all zeros or all ones, those of
`bitsOrUninit` are determinate or wholly indeterminate. -/
inductive Pattern
  | bottom
  | zeros
  | ones
  | uniform
  | bits
  | bitsOrUninit
  | top
  deriving DecidableEq, Repr

namespace Pattern

def rank : Pattern → ℕ
  | bottom => 0
  | zeros => 1
  | ones => 1
  | uniform => 2
  | bits => 3
  | bitsOrUninit => 4
  | top => 5

instance : OffsetmapLattice Pattern where
  bottom := bottom
  join v1 v2 := if v1.rank < v2.rank then v2 else if v2.rank < v1.rank ∨ v1 = v2 then v1 else uniform
  isIncluded v1 v2 := decide (v1 = v2) || decide (v1.rank < v2.rank)
  cardinalZeroOrOne v := decide (v.rank ≤ 1)
  isIsotropic v := decide (v ≠ uniform) && decide (v ≠ bitsOrUninit)
  topifyWithOrigin _ v := if v = bottom then bottom else top
  extractBits _ _ _ _ v := (false,v)
  shiftBits _ _ _ v := if v = uniform ∨ v = bitsOrUninit then top else v
  mergeDistinctBits _ _ v acc := if v = zeros then acc else if acc = zeros then v else top
  mergeNeutralElement := zeros
  anisotropicCast _ v := v

def Holds : Pattern → List (Option Bool) → Prop
  | bottom,_ => False
  | zeros,w => ∀ x ∈ w, x = some false
  | ones,w => ∀ x ∈ w, x = some true
  | uniform,w => (∀ x ∈ w, x = some false) ∨ ∀ x ∈ w, x = some true
  | bits,w => ∀ x ∈ w, x ≠ none
  | bitsOrUninit,w => (∀ x ∈ w, x ≠ none) ∨ ∀ x ∈ w, x = none
  | top,_ => True

theorem Holds.mono {v1 v2 : Pattern} {w : List (Option Bool)} (hle : isIncluded v1 v2 = true) (h : v1.Holds w) :
    v2.Holds w := by
  cases v1 <;> cases v2 <;> first | exact absurd hle (by decide) | grind [Holds]

def words (m : ℤ) (v : Pattern) : Set (List (Option Bool)) := {w | (w.length : ℤ) = m ∧ v.Holds w}

theorem holds_of_isotropic {v : Pattern} {w : List (Option Bool)} (hv : isIsotropic v = true) (hne : w ≠ [])
    (hw : ∀ x ∈ w, x ∈ bitsOf words v) : v.Holds w := by
  have hbit : ∀ x ∈ w, ∃ w', v.Holds w' ∧ x ∈ w' := by
    intro x hx
    obtain ⟨m,w',hw',hx'⟩ := hw x hx
    exact ⟨w',hw'.2,hx'⟩
  obtain ⟨x,hx⟩ := List.exists_mem_of_ne_nil w hne
  cases v <;> first | exact absurd hv (by decide) | grind [Holds]

def concretization : Concretization Pattern (Option Bool) where
  words := words
  length_words h := h.1
  sound hle _ _ h := ⟨h.1,h.2.mono hle⟩
  isotropic hv hne hw := ⟨rfl,holds_of_isotropic hv hne hw⟩

def zeroOne : Offsetmap Pattern := .node 0 0 .empty 1 (.node 0 0 .empty 1 .empty 0 1 ones) 0 1 zeros

theorem spanning_zeroOne : Spanning 0 1 (0,zeroOne) := by
  have hzero : Spanning 0 0 ((0 : ℤ),intervalAux (0 - 0) 0 1 zeros) :=
    spanning_iff_canon.mpr (intervalAux_spec le_rfl (.inl rfl)).1
  exact show Spanning 0 1 (addNode 1 1 0 1 ones 0 (intervalAux (0 - 0) 0 1 zeros)) from
    spanning_addNode_right hzero le_rfl (.inl rfl)

theorem spanning_pair {rem modu : ℤ} {v : Pattern} (hv : isIsotropic v = true ∨ 0 ≤ rem ∧ rem < modu) :
    Spanning 0 1 (0,intervalAux 1 rem modu v) :=
  spanning_iff_canon.mpr (intervalAux_spec (show (0 : ℤ) ≤ 1 by omega) hv).1

end Pattern

/-- A zero and a one are included in `uniform`, which does not hold their sequence, and an isotropic value relates two
values that are not aligned. -/
theorem isIncludedMap_mixed_bits :
    (∀ v : Pattern, isIncluded v v = true) ∧
    (∀ v1 v2 v3 : Pattern, isIncluded v1 v2 = true → isIncluded v2 v3 = true → isIncluded v1 v3 = true) ∧
    (Spanning 0 1 (0,Pattern.zeroOne) ∧ Spanning 0 1 (0,intervalAux 1 0 2 Pattern.uniform) ∧
      isIncludedMap Pattern.zeroOne (intervalAux 1 0 2 Pattern.uniform) = true ∧
      (fun b => some (decide (b = 1))) ∈ Pattern.concretization.bitSequences 0 Pattern.zeroOne ∧
      (fun b => some (decide (b = 1))) ∉ Pattern.concretization.bitSequences 0 (intervalAux 1 0 2 Pattern.uniform)) ∧
    (Spanning 0 1 (0,intervalAux 1 0 2 Pattern.uniform) ∧ Spanning 0 1 (0,intervalAux 1 0 1 Pattern.bits) ∧
      Spanning 0 1 (0,intervalAux 1 1 2 Pattern.bitsOrUninit) ∧
      isIncludedMap (intervalAux 1 0 2 Pattern.uniform) (intervalAux 1 0 1 Pattern.bits) = true ∧
      isIncludedMap (intervalAux 1 0 1 Pattern.bits) (intervalAux 1 1 2 Pattern.bitsOrUninit) = true ∧
      isIncludedMap (intervalAux 1 0 2 Pattern.uniform) (intervalAux 1 1 2 Pattern.bitsOrUninit) = false) := by
  have hrefl : ∀ v : Pattern, isIncluded v v = true := by
    intro v
    cases v <;> rfl
  have huniform : Spanning 0 1 (0,intervalAux 1 0 2 Pattern.uniform) := Pattern.spanning_pair (.inr (by omega))
  refine ⟨hrefl,?_,⟨Pattern.spanning_zeroOne,huniform,?_,?_,?_⟩,?_⟩
  · intro v1 v2 v3
    cases v1 <;> cases v2 <;> cases v3 <;> decide
  · have hnodes : ∀ s1 ∈ segs 0 Pattern.zeroOne, ∀ s2 ∈ segs 0 (intervalAux 1 0 2 Pattern.uniform), s1.isIncluded s2 = true := by
      decide
    apply (isIncludedAux_iff_nodes hrefl (spanning_iff_canon.mp Pattern.spanning_zeroOne).1 (spanning_iff_canon.mp huniform).1).mpr
    intro b _ s1 s2 h1 h2
    exact hnodes s1 h1.1 s2 h2.1
  · apply Concretization.mem_bitSequences_of_isotropic (spanning_iff_canon.mp Pattern.spanning_zeroOne)
    rintro b v ⟨s,hs,h1,h2,rfl⟩
    have hsegs : ∀ s ∈ segs 0 Pattern.zeroOne, (s.lo = 0 ∧ s.hi = 0 ∧ s.v = .zeros) ∨ (s.lo = 1 ∧ s.hi = 1 ∧ s.v = .ones) := by
      decide
    rcases hsegs s hs with ⟨hlo,hhi,hv⟩ | ⟨hlo,hhi,hv⟩
    · obtain rfl : b = 0 := by omega
      rw [hv]
      exact ⟨rfl,1,[some false],⟨rfl,by simp [Pattern.Holds]⟩,by simp⟩
    · obtain rfl : b = 1 := by omega
      rw [hv]
      exact ⟨rfl,1,[some true],⟨rfl,by simp [Pattern.Holds]⟩,by simp⟩
  · intro h
    obtain ⟨w,⟨-,hw⟩,hf⟩ := h ⟨0,1,0,2,.uniform⟩ (by decide) 0 le_rfl (by decide)
    have h0 := List.mem_of_getElem? (hf 0 (by decide) (by decide) rfl)
    have h1 := List.mem_of_getElem? (hf 1 (by decide) (by decide) rfl)
    rcases hw with hw | hw
    · exact absurd (hw _ h1) (by decide)
    · exact absurd (hw _ h0) (by decide)
  · have hle : (0 : ℤ) ≤ 1 := by omega
    refine ⟨huniform,Pattern.spanning_pair (.inl rfl),Pattern.spanning_pair (.inr (by omega)),?_,?_,?_⟩
    · exact (isIncludedMap_intervalAux hrefl hle (.inr (by omega)) (.inl rfl)).mpr (by decide)
    · exact (isIncludedMap_intervalAux hrefl hle (.inl rfl) (.inr (by omega))).mpr (by decide)
    · apply Bool.eq_false_iff.mpr
      intro h
      exact absurd ((isIncludedMap_intervalAux hrefl hle (.inr (by omega)) (.inr (by omega))).mp h) (by decide)

end FramaC.Offsetmap
