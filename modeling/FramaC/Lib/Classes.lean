import Mathlib.Data.Finset.Card
import Mathlib.Data.Finset.Union

/-! # Classes stored by their members

An equivalence relation given by a function from each element to its class, empty when the element is only related to
itself. The operations rewrite the classes of all the members at once.
-/
namespace FramaC.Classes

set_option linter.unusedSectionVars false

variable {α : Type} [DecidableEq α]

/-- A class that is not empty has its owner and another member, and is the class of each of its members. -/
structure Partition (c : α → Finset α) : Prop where
  mem_self : ∀ x, c x ≠ ∅ → x ∈ c x
  two_le : ∀ x, c x ≠ ∅ → 2 ≤ (c x).card
  eq_of_mem : ∀ {x y}, y ∈ c x → c y = c x

def Related (c : α → Finset α) (x y : α) : Prop := x = y ∨ y ∈ c x

def proper (s : Finset α) : Finset α := if s.card ≤ 1 then ∅ else s

def merge (c : α → Finset α) (a b : α) (x : α) : Finset α :=
  if x ∈ {a,b} ∪ c a ∪ c b then {a,b} ∪ c a ∪ c b else c x

def shrink (c : α → Finset α) (e : α) (x : α) : Finset α :=
  if x = e then ∅ else if x ∈ c e then proper ((c e).erase e) else c x

def meet (c d : α → Finset α) (x : α) : Finset α := proper (c x ∩ d x)

theorem ne_empty_of_mem {s : Finset α} {x : α} (h : x ∈ s) : s ≠ ∅ := Finset.ne_empty_of_mem h

theorem mem_proper {s : Finset α} {x : α} (h : x ∈ proper s) : proper s = s := by
  unfold proper at *
  split at h
  · cases h
  · rename_i hcard
    rw [if_neg hcard]

theorem proper_ne_empty {s : Finset α} (h : proper s ≠ ∅) : proper s = s ∧ 2 ≤ s.card := by
  unfold proper at *
  split at h
  · exact absurd rfl h
  · rename_i hcard
    exact ⟨if_neg hcard,by omega⟩

theorem proper_eq {s : Finset α} {x y : α} (hx : x ∈ s) (hy : y ∈ s) (hne : x ≠ y) : proper s = s := by
  have hcard : 1 < s.card := Finset.one_lt_card.2 ⟨x,hx,y,hy,hne⟩
  unfold proper
  rw [if_neg (by omega)]

theorem partition_empty : Partition (fun _ : α => ∅) where
  mem_self _ h := absurd rfl h
  two_le _ h := absurd rfl h
  eq_of_mem _ := rfl

theorem Partition.mem_comm {c : α → Finset α} (h : Partition c) {x y : α} (hy : y ∈ c x) : x ∈ c y := by
  rw [h.eq_of_mem hy]
  exact h.mem_self x (ne_empty_of_mem hy)

theorem Partition.equivalence {c : α → Finset α} (h : Partition c) : Equivalence (Related c) where
  refl x := Or.inl rfl
  symm := by
    rintro x y (rfl | hy)
    · exact Or.inl rfl
    · exact Or.inr (h.mem_comm hy)
  trans := by
    rintro x y z (rfl | hy) (rfl | hz)
    · exact Or.inl rfl
    · exact Or.inr hz
    · exact Or.inr hy
    · rw [h.eq_of_mem hy] at hz
      exact Or.inr hz

theorem Partition.eqvGen_le {c : α → Finset α} (h : Partition c) {r : α → α → Prop}
    (hr : ∀ x y, r x y → Related c x y) {x y : α} (hxy : Relation.EqvGen r x y) : Related c x y := by
  induction hxy with
  | rel x y hxy => exact hr x y hxy
  | refl x => exact h.equivalence.refl x
  | symm x y _ ih => exact h.equivalence.symm ih
  | trans x y z _ _ ih1 ih2 => exact h.equivalence.trans ih1 ih2

theorem merge_of_mem {c : α → Finset α} {a b x : α} (h : x ∈ {a,b} ∪ c a ∪ c b) :
    merge c a b x = {a,b} ∪ c a ∪ c b := if_pos h

theorem merge_of_notMem {c : α → Finset α} {a b x : α} (h : x ∉ {a,b} ∪ c a ∪ c b) : merge c a b x = c x := if_neg h

theorem Partition.merge {c : α → Finset α} (h : Partition c) {a b : α} (hab : a ≠ b) : Partition (merge c a b) := by
  have hclosed : ∀ x, x ∉ {a,b} ∪ c a ∪ c b → ∀ y ∈ c x, y ∉ {a,b} ∪ c a ∪ c b := by
    intro x hx y hy hmem
    apply hx
    have hxy := h.mem_comm hy
    simp only [Finset.mem_union,Finset.mem_insert,Finset.mem_singleton] at hmem ⊢
    rcases hmem with ((rfl | rfl) | hya) | hyb
    · exact Or.inl (Or.inr hxy)
    · exact Or.inr hxy
    · exact Or.inl (Or.inr (by rwa [← h.eq_of_mem hya]))
    · exact Or.inr (by rwa [← h.eq_of_mem hyb])
  constructor
  · intro x hx
    by_cases hmem : x ∈ {a,b} ∪ c a ∪ c b
    · rw [merge_of_mem hmem]
      exact hmem
    · rw [merge_of_notMem hmem] at hx ⊢
      exact h.mem_self x hx
  · intro x hx
    by_cases hmem : x ∈ {a,b} ∪ c a ∪ c b
    · rw [merge_of_mem hmem]
      apply Finset.one_lt_card.2
      exact ⟨a,by simp,b,by simp,hab⟩
    · rw [merge_of_notMem hmem] at hx ⊢
      exact h.two_le x hx
  · intro x y hy
    by_cases hmem : x ∈ {a,b} ∪ c a ∪ c b
    · rw [merge_of_mem hmem] at hy ⊢
      exact merge_of_mem hy
    · rw [merge_of_notMem hmem] at hy ⊢
      rw [merge_of_notMem (hclosed x hmem y hy)]
      exact h.eq_of_mem hy

theorem related_merge {c : α → Finset α} (h : Partition c) {a b : α} (hab : a ≠ b) (x y : α) :
    Related (merge c a b) x y ↔ Relation.EqvGen (fun u v => Related c u v ∨ (u = a ∧ v = b)) x y := by
  constructor
  · have hto : ∀ z, z ∈ {a,b} ∪ c a ∪ c b → Relation.EqvGen (fun u v => Related c u v ∨ (u = a ∧ v = b)) a z := by
      intro z hz
      simp only [Finset.mem_union,Finset.mem_insert,Finset.mem_singleton] at hz
      have hb : Relation.EqvGen (fun u v => Related c u v ∨ (u = a ∧ v = b)) a b :=
        .rel _ _ (Or.inr ⟨rfl,rfl⟩)
      rcases hz with ((rfl | rfl) | hza) | hzb
      · exact .refl _
      · exact hb
      · exact .rel _ _ (Or.inl (Or.inr hza))
      · exact .trans _ _ _ hb (.rel _ _ (Or.inl (Or.inr hzb)))
    rintro (rfl | hy)
    · exact .refl _
    · by_cases hx : x ∈ {a,b} ∪ c a ∪ c b
      · rw [merge_of_mem hx] at hy
        exact .trans _ _ _ (.symm _ _ (hto x hx)) (hto y hy)
      · rw [merge_of_notMem hx] at hy
        exact .rel _ _ (Or.inl (Or.inr hy))
  · apply (h.merge hab).eqvGen_le
    intro u v huv
    rcases huv with (rfl | hv) | ⟨rfl,rfl⟩
    · exact Or.inl rfl
    · right
      by_cases hu : u ∈ {a,b} ∪ c a ∪ c b
      · rw [merge_of_mem hu]
        simp only [Finset.mem_union,Finset.mem_insert,Finset.mem_singleton] at hu ⊢
        rcases hu with ((rfl | rfl) | hua) | hub
        · exact Or.inl (Or.inr hv)
        · exact Or.inr hv
        · exact Or.inl (Or.inr (by rwa [← h.eq_of_mem hua]))
        · exact Or.inr (by rwa [← h.eq_of_mem hub])
      · rwa [merge_of_notMem hu]
    · right
      rw [merge_of_mem (by simp)]
      simp

theorem shrink_self (c : α → Finset α) (e : α) : shrink c e e = ∅ := if_pos rfl

theorem shrink_of_mem {c : α → Finset α} {e x : α} (hne : x ≠ e) (h : x ∈ c e) :
    shrink c e x = proper ((c e).erase e) := by
  unfold shrink
  rw [if_neg hne,if_pos h]

theorem shrink_of_notMem {c : α → Finset α} {e x : α} (hne : x ≠ e) (h : x ∉ c e) : shrink c e x = c x := by
  unfold shrink
  rw [if_neg hne,if_neg h]

theorem Partition.shrink {c : α → Finset α} (h : Partition c) (e : α) : Partition (shrink c e) := by
  constructor
  · intro x hx
    by_cases hxe : x = e
    · subst hxe
      exact absurd (shrink_self c x) hx
    · by_cases hmem : x ∈ c e
      · rw [shrink_of_mem hxe hmem] at hx ⊢
        rw [(proper_ne_empty hx).1]
        exact Finset.mem_erase.2 ⟨hxe,hmem⟩
      · rw [shrink_of_notMem hxe hmem] at hx ⊢
        exact h.mem_self x hx
  · intro x hx
    by_cases hxe : x = e
    · subst hxe
      exact absurd (shrink_self c x) hx
    · by_cases hmem : x ∈ c e
      · rw [shrink_of_mem hxe hmem] at hx ⊢
        rw [(proper_ne_empty hx).1]
        exact (proper_ne_empty hx).2
      · rw [shrink_of_notMem hxe hmem] at hx ⊢
        exact h.two_le x hx
  · intro x y hy
    by_cases hxe : x = e
    · subst hxe
      rw [shrink_self] at hy
      cases hy
    · by_cases hmem : x ∈ c e
      · rw [shrink_of_mem hxe hmem] at hy ⊢
        rw [mem_proper hy] at hy
        obtain ⟨hye,hyc⟩ := Finset.mem_erase.1 hy
        exact shrink_of_mem hye hyc
      · rw [shrink_of_notMem hxe hmem] at hy ⊢
        have hxy := h.mem_comm hy
        have hye : y ≠ e := by
          rintro rfl
          exact hmem hxy
        have hyc : y ∉ c e := by
          intro hyc
          rw [h.eq_of_mem hyc] at hxy
          exact hmem hxy
        rw [shrink_of_notMem hye hyc]
        exact h.eq_of_mem hy

theorem Partition.shrink_of_notMem {c : α → Finset α} (h : Partition c) {e x : α} (hx : e ∉ c x) :
    Classes.shrink c e x = c x := by
  by_cases hxe : x = e
  · subst hxe
    rw [shrink_self]
    by_contra hne
    exact hx (h.mem_self x (Ne.symm hne))
  · exact Classes.shrink_of_notMem hxe (fun hmem => hx (h.mem_comm hmem))

theorem Partition.meet {c d : α → Finset α} (hc : Partition c) (hd : Partition d) : Partition (meet c d) where
  mem_self := by
    intro x hx
    obtain ⟨heq,hcard⟩ := proper_ne_empty hx
    unfold Classes.meet
    rw [heq]
    obtain ⟨y,hy⟩ := Finset.card_pos.1 (Nat.lt_of_lt_of_le (by decide) hcard)
    obtain ⟨hyc,hyd⟩ := Finset.mem_inter.1 hy
    exact Finset.mem_inter.2 ⟨hc.mem_self x (ne_empty_of_mem hyc),hd.mem_self x (ne_empty_of_mem hyd)⟩
  two_le := by
    intro x hx
    obtain ⟨heq,hcard⟩ := proper_ne_empty hx
    unfold Classes.meet
    rwa [heq]
  eq_of_mem := by
    intro x y hy
    unfold Classes.meet at *
    rw [mem_proper hy] at hy
    obtain ⟨hyc,hyd⟩ := Finset.mem_inter.1 hy
    rw [hc.eq_of_mem hyc,hd.eq_of_mem hyd]

theorem related_meet {c d : α → Finset α} (hc : Partition c) (hd : Partition d) (x y : α) :
    Related (meet c d) x y ↔ Related c x y ∧ Related d x y := by
  constructor
  · rintro (rfl | hy)
    · exact ⟨Or.inl rfl,Or.inl rfl⟩
    · unfold meet at hy
      rw [mem_proper hy] at hy
      obtain ⟨hyc,hyd⟩ := Finset.mem_inter.1 hy
      exact ⟨Or.inr hyc,Or.inr hyd⟩
  · rintro ⟨rfl | hyc,hyd⟩
    · exact Or.inl rfl
    · rcases hyd with rfl | hyd
      · exact Or.inl rfl
      · by_cases hxy : x = y
        · exact Or.inl hxy
        · right
          have hx : x ∈ c x ∩ d x :=
            Finset.mem_inter.2 ⟨hc.mem_self x (ne_empty_of_mem hyc),hd.mem_self x (ne_empty_of_mem hyd)⟩
          have hy : y ∈ c x ∩ d x := Finset.mem_inter.2 ⟨hyc,hyd⟩
          unfold meet
          rw [proper_eq hx hy hxy]
          exact hy

section Join

variable {c d : α → Finset α} {K : Finset α}

def Overlap (c d : α → Finset α) (k : α) : Prop := c k ≠ ∅ ∧ d k ≠ ∅ ∧ c k ≠ d k

instance (k : α) : Decidable (Overlap c d k) := inferInstanceAs (Decidable (_ ∧ _ ∧ _))

/-- No chain of classes is longer than the class in its middle: overlaps reached through another one share a class. -/
def Short (c d : α → Finset α) : Prop := ∀ k1 k2 k3, Overlap c d k1 → Overlap c d k2 → Overlap c d k3 →
  k2 ∈ c k1 ∪ d k1 → k3 ∈ c k2 ∪ d k2 → k3 ∈ c k1 ∪ d k1

/-- The union of the classes of the overlaps that share a class with the given one. -/
def gather (c d : α → Finset α) (K : Finset α) (k : α) : Finset α :=
  (K.filter fun k' => k' ∈ c k ∪ d k).biUnion fun k' => c k' ∪ d k'

theorem mem_gather {k x : α} :
    x ∈ gather c d K k ↔ ∃ k' ∈ K, k' ∈ c k ∪ d k ∧ x ∈ c k' ∪ d k' := by
  simp only [gather,Finset.mem_biUnion,Finset.mem_filter]
  constructor
  · rintro ⟨k',⟨hK,hk'⟩,hx⟩
    exact ⟨k',hK,hk',hx⟩
  · rintro ⟨k',hK,hk',hx⟩
    exact ⟨k',⟨hK,hk'⟩,hx⟩

theorem near_comm (hc : Partition c) (hd : Partition d) {x y : α} (h : y ∈ c x ∪ d x) : x ∈ c y ∪ d y := by
  rcases Finset.mem_union.1 h with h | h
  · exact Finset.mem_union_left _ (hc.mem_comm h)
  · exact Finset.mem_union_right _ (hd.mem_comm h)

theorem near_self (hc : Partition c) {k : α} (h : Overlap c d k) : k ∈ c k ∪ d k :=
  Finset.mem_union_left _ (hc.mem_self k h.1)

theorem near_of_common (hc : Partition c) (hd : Partition d) (hs : Short c d) {k1 k2 x : α} (h1 : Overlap c d k1)
    (h2 : Overlap c d k2) (hx1 : x ∈ c k1 ∪ d k1) (hx2 : x ∈ c k2 ∪ d k2) : k2 ∈ c k1 ∪ d k1 := by
  have hk2c := hc.mem_self k2 h2.1
  have hk2d := hd.mem_self k2 h2.2.1
  -- an element of two different classes is an overlap itself, and the two others are reached through it
  have hvia : ∀ y ∈ c k1 ∪ d k1, k2 ∈ c y ∪ d y → c y ≠ ∅ → d y ≠ ∅ → c y ≠ d y → k2 ∈ c k1 ∪ d k1 :=
    fun y hy hk hcy hdy hne => hs k1 y k2 h1 ⟨hcy,hdy,hne⟩ h2 hy hk
  rcases Finset.mem_union.1 hx1 with hxc1 | hxd1 <;> rcases Finset.mem_union.1 hx2 with hxc2 | hxd2
  · rw [← hc.eq_of_mem hxc2,hc.eq_of_mem hxc1] at hk2c
    exact Finset.mem_union_left _ hk2c
  · have hcx := hc.eq_of_mem hxc1
    have hdx := hd.eq_of_mem hxd2
    rw [← hdx] at hk2d
    by_cases heq : c x = d x
    · rw [← heq,hcx] at hk2d
      exact Finset.mem_union_left _ hk2d
    · exact hvia x hx1 (Finset.mem_union_right _ hk2d) (hcx ▸ h1.1) (hdx ▸ h2.2.1) heq
  · have hcx := hc.eq_of_mem hxc2
    have hdx := hd.eq_of_mem hxd1
    rw [← hcx] at hk2c
    by_cases heq : c x = d x
    · rw [heq,hdx] at hk2c
      exact Finset.mem_union_right _ hk2c
    · exact hvia x hx1 (Finset.mem_union_left _ hk2c) (hcx ▸ h2.1) (hdx ▸ h1.2.1) heq
  · rw [← hd.eq_of_mem hxd2,hd.eq_of_mem hxd1] at hk2d
    exact Finset.mem_union_right _ hk2d

variable (hc : Partition c) (hd : Partition d) (hs : Short c d) (hK : ∀ k, k ∈ K → Overlap c d k)

include hc hd hs hK

theorem gather_eq_of_near {k1 k2 : α} (h1 : Overlap c d k1) (h2 : Overlap c d k2) (h : k2 ∈ c k1 ∪ d k1) :
    gather c d K k1 = gather c d K k2 := by
  ext x
  rw [mem_gather,mem_gather]
  constructor
  · rintro ⟨k,hk,hk1,hx⟩
    exact ⟨k,hk,hs k2 k1 k h2 h1 (hK k hk) (near_comm hc hd h) hk1,hx⟩
  · rintro ⟨k,hk,hk2,hx⟩
    exact ⟨k,hk,hs k1 k2 k h1 h2 (hK k hk) h hk2,hx⟩

theorem gather_eq_of_mem {k1 k2 x : α} (h1 : Overlap c d k1) (h2 : Overlap c d k2) (hx1 : x ∈ gather c d K k1)
    (hx2 : x ∈ gather c d K k2) : gather c d K k1 = gather c d K k2 := by
  obtain ⟨l1,hl1,hn1,hx1⟩ := (mem_gather).1 hx1
  obtain ⟨l2,hl2,hn2,hx2⟩ := (mem_gather).1 hx2
  have hnear := near_of_common hc hd hs (hK l1 hl1) (hK l2 hl2) hx1 hx2
  have h1l2 := hs k1 l1 l2 h1 (hK l1 hl1) (hK l2 hl2) hn1 hnear
  exact gather_eq_of_near hc hd hs hK h1 h2 (hs k1 l2 k2 h1 (hK l2 hl2) h2 h1l2 (near_comm hc hd hn2))

omit hs in
theorem subset_gather {k x : α} (hk : k ∈ K) (hx : x ∈ c k ∪ d k) : x ∈ gather c d K k :=
  (mem_gather).2 ⟨k,hk,near_self hc (hK k hk),hx⟩

end Join

/-- The classes of a join: the gathered ones, and outside these the classes of both sides. -/
structure Joined (c d : α → Finset α) (K : Finset α) (f : α → Finset α) : Prop where
  gathered : ∀ k ∈ K, ∀ x ∈ gather c d K k, f x = gather c d K k
  apart : ∀ x, (∀ k ∈ K, x ∉ gather c d K k) → f x = c x ∪ d x

section Joined

variable {c d f : α → Finset α} {K : Finset α}
variable (hc : Partition c) (hd : Partition d) (hs : Short c d) (hK : ∀ k, k ∈ K ↔ Overlap c d k)

include hc hd hs hK

theorem mem_gather_of_near {k x y : α} (hk : k ∈ K) (hyx : y ∈ c x ∪ d x) (hy : y ∈ gather c d K k) :
    x ∈ gather c d K k := by
  have hK' : ∀ k, k ∈ K → Overlap c d k := fun k h => (hK k).1 h
  obtain ⟨l,hl,hn,hyl⟩ := (mem_gather).1 hy
  -- through an overlap in the middle, the element is gathered with that one
  have hvia : x ∈ c y ∪ d y → c y ≠ ∅ → d y ≠ ∅ → c y ≠ d y → x ∈ gather c d K k := by
    intro hxy hcy hdy hne
    have hyK : y ∈ K := (hK y).2 ⟨hcy,hdy,hne⟩
    have hself := subset_gather hc hd hK' hyK (near_self hc (hK' y hyK))
    rw [gather_eq_of_mem hc hd hs hK' (hK' k hk) (hK' y hyK) hy hself]
    exact subset_gather hc hd hK' hyK hxy
  have hxy := near_comm hc hd hyx
  rcases Finset.mem_union.1 hyx with hyc | hyd <;> rcases Finset.mem_union.1 hyl with hlc | hld
  · have hxc := hc.mem_self x (ne_empty_of_mem hyc)
    rw [← hc.eq_of_mem hyc,hc.eq_of_mem hlc] at hxc
    exact (mem_gather).2 ⟨l,hl,hn,Finset.mem_union_left _ hxc⟩
  · have hxc := hc.mem_comm hyc
    have hdy := hd.eq_of_mem hld
    by_cases heq : c y = d y
    · rw [heq,hdy] at hxc
      exact (mem_gather).2 ⟨l,hl,hn,Finset.mem_union_right _ hxc⟩
    · exact hvia hxy (ne_empty_of_mem hxc) (hdy ▸ ne_empty_of_mem hld) heq
  · have hxd := hd.mem_comm hyd
    have hcy := hc.eq_of_mem hlc
    by_cases heq : c y = d y
    · rw [← heq,hcy] at hxd
      exact (mem_gather).2 ⟨l,hl,hn,Finset.mem_union_left _ hxd⟩
    · exact hvia hxy (hcy ▸ ne_empty_of_mem hlc) (ne_empty_of_mem hxd) heq
  · have hxd := hd.mem_self x (ne_empty_of_mem hyd)
    rw [← hd.eq_of_mem hyd,hd.eq_of_mem hld] at hxd
    exact (mem_gather).2 ⟨l,hl,hn,Finset.mem_union_right _ hxd⟩

omit hs hd in
theorem not_overlap_of_apart {x : α} (h : ∀ k ∈ K, x ∉ gather c d K k) : ¬ Overlap c d x := by
  intro hx
  have hxK := (hK x).2 hx
  exact h x hxK (mem_gather.2 ⟨x,hxK,near_self hc hx,near_self hc hx⟩)

theorem apart_of_near {x y : α} (h : ∀ k ∈ K, x ∉ gather c d K k) (hy : y ∈ c x ∪ d x) :
    ∀ k ∈ K, y ∉ gather c d K k :=
  fun k hk hmem => h k hk (mem_gather_of_near hc hd hs hK hk hy hmem)

omit hs hK in
theorem union_eq_of_not_overlap {x y : α} (hx : ¬ Overlap c d x) (hy : ¬ Overlap c d y) (h : y ∈ c x ∪ d x) :
    c y ∪ d y = c x ∪ d x := by
  have hside : ∀ z, ¬ Overlap c d z → c z = ∅ ∨ d z = ∅ ∨ c z = d z := by
    intro z hz
    unfold Overlap at hz
    tauto
  rcases Finset.mem_union.1 h with hyc | hyd
  · have heq := hc.eq_of_mem hyc
    have hxne := ne_empty_of_mem hyc
    rcases hside x hx with h0 | h0 | h0
    · exact absurd h0 hxne
    · rcases hside y hy with h1 | h1 | h1
      · exact absurd (heq ▸ h1) hxne
      · rw [h0,h1,heq]
      · rw [← h1,heq,h0,Finset.union_empty,Finset.union_self]
    · rcases hside y hy with h1 | h1 | h1
      · exact absurd (heq ▸ h1) hxne
      · rw [h1,heq,← h0,Finset.union_empty,Finset.union_self]
      · rw [← h1,← h0,heq]
  · have heq := hd.eq_of_mem hyd
    have hxne := ne_empty_of_mem hyd
    rcases hside x hx with h0 | h0 | h0
    · rcases hside y hy with h1 | h1 | h1
      · rw [h0,h1,heq]
      · exact absurd (heq ▸ h1) hxne
      · rw [h1,heq,h0,Finset.empty_union,Finset.union_self]
    · exact absurd h0 hxne
    · rcases hside y hy with h1 | h1 | h1
      · rw [h1,heq,h0,Finset.empty_union,Finset.union_self]
      · exact absurd (heq ▸ h1) hxne
      · rw [h1,h0,heq]

omit hd hs in
theorem gather_two_le {k : α} (hk : k ∈ K) : 2 ≤ (gather c d K k).card := by
  have hov := (hK k).1 hk
  calc 2 ≤ (c k).card := hc.two_le k hov.1
    _ ≤ (gather c d K k).card := by
      apply Finset.card_le_card
      intro x hx
      exact (mem_gather).2 ⟨k,hk,near_self hc hov,Finset.mem_union_left _ hx⟩

theorem Joined.partition (hf : Joined c d K f) : Partition f := by
  constructor
  · intro x hx
    by_cases hmem : ∃ k ∈ K, x ∈ gather c d K k
    · obtain ⟨k,hk,hxk⟩ := hmem
      rw [hf.gathered k hk x hxk]
      exact hxk
    · have hapart : ∀ k ∈ K, x ∉ gather c d K k := fun k hk hxk => hmem ⟨k,hk,hxk⟩
      rw [hf.apart x hapart] at hx ⊢
      by_cases hcx : c x = ∅
      · rw [hcx,Finset.empty_union] at hx ⊢
        exact hd.mem_self x hx
      · exact Finset.mem_union_left _ (hc.mem_self x hcx)
  · intro x hx
    by_cases hmem : ∃ k ∈ K, x ∈ gather c d K k
    · obtain ⟨k,hk,hxk⟩ := hmem
      rw [hf.gathered k hk x hxk]
      exact gather_two_le hc hK hk
    · have hapart : ∀ k ∈ K, x ∉ gather c d K k := fun k hk hxk => hmem ⟨k,hk,hxk⟩
      rw [hf.apart x hapart] at hx ⊢
      by_cases hcx : c x = ∅
      · rw [hcx,Finset.empty_union] at hx ⊢
        exact hd.two_le x hx
      · exact (hc.two_le x hcx).trans (Finset.card_le_card Finset.subset_union_left)
  · intro x y hy
    by_cases hmem : ∃ k ∈ K, x ∈ gather c d K k
    · obtain ⟨k,hk,hxk⟩ := hmem
      rw [hf.gathered k hk x hxk] at hy ⊢
      exact hf.gathered k hk y hy
    · have hapart : ∀ k ∈ K, x ∉ gather c d K k := fun k hk hxk => hmem ⟨k,hk,hxk⟩
      rw [hf.apart x hapart] at hy ⊢
      have hyapart := apart_of_near hc hd hs hK hapart hy
      rw [hf.apart y hyapart]
      exact union_eq_of_not_overlap hc hd (not_overlap_of_apart hc hK hapart) (not_overlap_of_apart hc hK hyapart) hy

theorem Joined.related (hf : Joined c d K f) (x y : α) :
    Related f x y ↔ Relation.EqvGen (fun u v => Related c u v ∨ Related d u v) x y := by
  have hside : ∀ u v, v ∈ c u ∪ d u → Relation.EqvGen (fun u v => Related c u v ∨ Related d u v) u v := by
    intro u v hv
    exact .rel _ _ ((Finset.mem_union.1 hv).imp Or.inr Or.inr)
  constructor
  · rintro (rfl | hy)
    · exact .refl _
    · by_cases hmem : ∃ k ∈ K, x ∈ gather c d K k
      · obtain ⟨k,hk,hxk⟩ := hmem
        rw [hf.gathered k hk x hxk] at hy
        have hto : ∀ z ∈ gather c d K k, Relation.EqvGen (fun u v => Related c u v ∨ Related d u v) k z := by
          intro z hz
          obtain ⟨l,_,hn,hzl⟩ := (mem_gather).1 hz
          exact .trans _ _ _ (hside k l hn) (hside l z hzl)
        exact .trans _ _ _ (.symm _ _ (hto x hxk)) (hto y hy)
      · rw [hf.apart x (fun k hk hxk => hmem ⟨k,hk,hxk⟩)] at hy
        exact hside x y hy
  · apply (hf.partition hc hd hs hK).eqvGen_le
    have hmono : ∀ u v, v ∈ c u ∪ d u → v ∈ f u := by
      intro u v hv
      by_cases hmem : ∃ k ∈ K, u ∈ gather c d K k
      · obtain ⟨k,hk,huk⟩ := hmem
        rw [hf.gathered k hk u huk]
        exact mem_gather_of_near hc hd hs hK hk (near_comm hc hd hv) huk
      · rwa [hf.apart u (fun k hk huk => hmem ⟨k,hk,huk⟩)]
    rintro u v ((rfl | hv) | (rfl | hv))
    · exact Or.inl rfl
    · exact Or.inr (hmono u v (Finset.mem_union_left _ hv))
    · exact Or.inl rfl
    · exact Or.inr (hmono u v (Finset.mem_union_right _ hv))

end Joined

end FramaC.Classes
