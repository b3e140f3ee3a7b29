import FramaC.Hptmap.Merge

/-! # Pairs of trees in parts

The functions that descend two trees at once split the pair in two, each key being bound in one part
only, as in the pair.
-/
set_option linter.unusedSectionVars false
namespace FramaC.Hptmap
open BigEndian Tree
variable {K V W : Type} [DecidableEq K] [DecidableEq V] [DecidableEq W] [Key K]

def find2 (a : Tree K V × Tree K W) (k : K) : Option V × Option W := (a.1.find k,a.2.find k)

def Parts (a b c : Tree K V × Tree K W) : Prop :=
  ∀ k, find2 a k = find2 b k ∧ find2 c k = (none,none) ∨ find2 a k = find2 c k ∧ find2 b k = (none,none)

namespace Parts
variable {a b c : Tree K V × Tree K W}

theorem comm (h : Parts a b c) : Parts a c b := fun k => (h k).symm

theorem swap (h : Parts a b c) : Parts a.swap b.swap c.swap := by
  intro k
  have hk := h k
  simp only [find2,Prod.fst_swap,Prod.snd_swap,Prod.mk.injEq] at hk ⊢
  tauto

end Parts

namespace Tree

def size : Tree K V → ℕ
  | empty => 0
  | leaf _ _ => 1
  | branch _ _ tree0 tree1 => size tree0 + size tree1 + 1

end Tree

theorem canonical_empty : (empty : Tree K V).Canonical := trivial

theorem canonical_leaf (k : K) (v : V) : (leaf k v).Canonical := trivial

/-- What a descent may call on: smaller canonical pairs that are not both empty. -/
structure Below (a b : Tree K V × Tree K W) : Prop where
  fst : b.1.Canonical
  snd : b.2.Canonical
  ne : b ≠ (empty,empty)
  lt : b.1.size + b.2.size < a.1.size + a.2.size

theorem Below.swap {a b : Tree K V × Tree K W} (h : Below a b) : Below a.swap b.swap where
  fst := h.snd
  snd := h.fst
  ne := fun he => h.ne (by rw [← b.swap_swap,he]; rfl)
  lt := by
    have := h.lt
    simp only [Prod.fst_swap,Prod.snd_swap]
    omega

structure Split (a b c : Tree K V × Tree K W) : Prop where
  parts : Parts a b c
  fst : Below a b
  snd : Below a c

namespace Split
variable {a b c : Tree K V × Tree K W}

theorem comm (h : Split a b c) : Split a c b := ⟨h.parts.comm,h.snd,h.fst⟩

theorem swap (h : Split a b c) : Split a.swap b.swap c.swap := ⟨h.parts.swap,h.fst.swap,h.snd.swap⟩

end Split

section Position
variable {p : NativeInt} {i : ℕ} {l r : Tree K V} {k : K}

theorem nonneg_iff {x : NativeInt} : x.getLsbD (intSize - 1) = false ↔ x.msb = false := by
  rw [BitVec.msb_eq_getLsbD_last]

theorem slt_iff_toNat {x y : NativeInt} (hx : x.getLsbD (intSize - 1) = false)
    (hy : y.getLsbD (intSize - 1) = false) : x.slt y = true ↔ x.toNat < y.toNat := by
  rw [BitVec.slt_iff_toInt_lt,BitVec.toInt_eq_toNat_of_msb (nonneg_iff.mp hx),
    BitVec.toInt_eq_toNat_of_msb (nonneg_iff.mp hy),Int.ofNat_lt]

theorem getLsbD_prefix_add (hi : i < intSize) (hp : mask p (BitVec.twoPow _ i) = p) (j : ℕ) :
    (p + BitVec.twoPow _ i).getLsbD j = (p.getLsbD j || decide (i = j)) := by
  have hlow : ∀ j, j ≤ i → p.getLsbD j = false := by
    intro j hj
    rw [← hp,getLsbD_mask hi]
    simp [show ¬ i < j by omega]
  have hand : p &&& BitVec.twoPow _ i = 0 := (and_eq_zero_iff hi).mpr (hlow i le_rfl)
  rw [BitVec.add_eq_or_of_and_eq_zero _ _ hand,BitVec.getLsbD_or,BitVec.getLsbD_twoPow]
  by_cases hij : i = j
  · subst hij
    simp [hi]
  · simp [hij]

theorem slt_prefix_add (hc : (branch p (BitVec.twoPow _ i) l r).Canonical) :
    if (Key.id k).slt (p + BitVec.twoPow _ i) then r.find k = none else l.find k = none := by
  obtain ⟨i',hi,hmask,hp,hl,_,hs0,hs1,hc0,_⟩ := canonical_branch_iff.mp hc
  obtain rfl : i' = i := twoPow_inj (by omega) hmask.symm
  have hbits := getLsbD_prefix_add (by omega) hp
  have hneg : (p + BitVec.twoPow _ i').getLsbD (intSize - 1) = false := by
    rw [hbits,prefix_nonneg hi hc0 hl hs0]
    have hne : i' ≠ intSize - 1 := by omega
    simp only [hne,decide_false,Bool.or_false]
  have hlt := slt_iff_toNat (Key.id_nonneg k) hneg
  split
  · next h =>
    refine find_eq_none fun hk => absurd (hlt.mp h) ?_
    -- the bits of the sum are bits of the key
    obtain ⟨ha,hb⟩ := hs1 k hk
    have hsub : (p + BitVec.twoPow _ i') &&& Key.id k = p + BitVec.twoPow _ i' := by
      apply BitVec.eq_of_getLsbD_eq
      intro j _
      rw [BitVec.getLsbD_and,hbits]
      by_cases hij : i' = j
      · subst hij
        simp [hb]
      · by_cases hj : i' < j
        · simp [hij,ha j hj]
        · have hlow : p.getLsbD j = false := by
            rw [← hp,getLsbD_mask (by omega)]
            simp [hj]
          simp [hij,hlow]
    rw [← hsub,BitVec.toNat_and]
    exact Nat.not_lt.mpr Nat.and_le_right
  · next h =>
    refine find_eq_none fun hk => absurd (hlt.mpr ?_) h
    obtain ⟨ha,hb⟩ := hs0 k hk
    refine Nat.lt_of_testBit i' ?_ ?_ fun j hj => ?_
    · rw [BitVec.testBit_toNat,hb]
    · rw [BitVec.testBit_toNat,hbits]
      simp
    · rw [BitVec.testBit_toNat,BitVec.testBit_toNat,hbits,ha j hj]
      simp [show i' ≠ j by omega]

end Position

section Cases
variable {p q : NativeInt} {i j : ℕ} {s0 s1 : Tree K V} {t0 t1 : Tree K W}

/-- The child of a branch on the side `b`. -/
def child (b : Bool) (t0 t1 : Tree K W) : Tree K W := if b then t1 else t0

theorem parts_child (hc : (branch q (BitVec.twoPow _ j) t0 t1).Canonical) {s : Tree K V} (b : Bool)
    (h : ∀ k, s.find k ≠ none → (child (!b) t0 t1).find k = none) :
    Parts (s,branch q (BitVec.twoPow _ j) t0 t1) (s,child b t0 t1) (empty,child (!b) t0 t1) := by
  obtain ⟨j',hj,hmask,_,_,_,hs0,hs1,_,_⟩ := canonical_branch_iff.mp hc
  obtain rfl : j' = j := twoPow_inj (by omega) hmask.symm
  intro k
  have hk := h k
  have hempty : (empty : Tree K V).find k = none := rfl
  simp only [find2,find_branch hj hs0 hs1,hempty]
  have hone : t0.find k = none ∨ t1.find k = none := by
    cases hb : (Key.id k).getLsbD j' with
    | false => exact .inr (hs1.find_eq_none (by simp [hb]))
    | true => exact .inl (hs0.find_eq_none (by simp [hb]))
  by_cases hs : s.find k = none
  · cases b <;> rcases hone with h0 | h0 <;> simp [child,hs,h0]
  · have hnone := hk hs
    cases b
    · simp only [child,Bool.not_false,if_true] at hnone
      simp [child,hnone]
    · simp only [child,Bool.not_true,Bool.false_eq_true,if_false] at hnone
      simp [child,hnone]

theorem parts_disjoint {s : Tree K V} {t : Tree K W} (h : ∀ k, s.find k = none ∨ t.find k = none) :
    Parts (s,t) (s,empty) (empty,t) := by
  intro k
  have hs : (empty : Tree K V).find k = none := rfl
  have ht : (empty : Tree K W).find k = none := rfl
  simp only [find2,hs,ht]
  rcases h k with hk | hk <;> simp [hk]

theorem size_pos {t : Tree K V} (h : t ≠ empty) : 0 < t.size := by
  cases t with
  | empty => exact absurd rfl h
  | leaf k v => exact Nat.one_pos
  | branch p m t0 t1 => exact Nat.succ_pos _

theorem split_disjoint {s : Tree K V} {t : Tree K W} (hs : s.Canonical) (ht : t.Canonical) (hs0 : s ≠ empty)
    (ht0 : t ≠ empty) (h : ∀ k, s.find k = none ∨ t.find k = none) : Split (s,t) (s,empty) (empty,t) where
  parts := parts_disjoint h
  fst := ⟨hs,trivial,by simp [hs0],Nat.add_lt_add_left (size_pos ht0) _⟩
  snd := ⟨trivial,ht,by simp [ht0],Nat.add_lt_add_right (size_pos hs0) _⟩

theorem split_leaves {k1 k2 : K} (h : k1 ≠ k2) (v : V) (w : W) :
    Split (leaf k1 v,leaf k2 w) (leaf k1 v,empty) (empty,leaf k2 w) := by
  refine split_disjoint trivial trivial (by simp) (by simp) fun k => ?_
  by_cases hk : k = k1
  · exact .inr (if_neg (hk ▸ h))
  · exact .inl (if_neg hk)

section Right
variable {n : NativeInt} (ht : (branch q n t0 t1).Canonical)
include ht

theorem split_child {s : Tree K V} (hs : s.Canonical) (b : Bool)
    (h : Parts (s,branch q n t0 t1) (s,child b t0 t1) (empty,child (!b) t0 t1)) :
    Split (s,branch q n t0 t1) (s,child b t0 t1) (empty,child (!b) t0 t1) := by
  obtain ⟨j,hj,rfl,_,h0,h1,_,_,hc0,hc1⟩ := canonical_branch_iff.mp ht
  have hbelow : ∀ u : Tree K W, u = t0 ∨ u = t1 → u.Canonical ∧ u ≠ empty ∧
      u.size < (branch q (BitVec.twoPow _ j) t0 t1).size := by
    rintro u (rfl | rfl)
    · exact ⟨hc0,h0,by rw [size]; omega⟩
    · exact ⟨hc1,h1,by rw [size]; omega⟩
  have hchild : ∀ b, child b t0 t1 = t0 ∨ child b t0 t1 = t1 := by
    intro b
    cases b
    · exact .inl rfl
    · exact .inr rfl
  obtain ⟨k1,k2,k3⟩ := hbelow _ (hchild b)
  obtain ⟨l1,l2,l3⟩ := hbelow _ (hchild !b)
  have hempty : (empty : Tree K V).size = 0 := rfl
  refine ⟨h,⟨hs,k1,by simp [k2],?_⟩,⟨trivial,l1,by simp [l2],?_⟩⟩
  · dsimp only
    omega
  · dsimp only
    omega

theorem split_empty : Split ((empty : Tree K V),branch q n t0 t1) (empty,t0) (empty,t1) := by
  obtain ⟨j,hj,rfl,-⟩ := canonical_branch_iff.mp ht
  exact split_child ht canonical_empty false (parts_child ht false fun _ h => absurd rfl h)

theorem split_leaf (key : K) (v : V) :
    if (Key.id key).slt (q + n) then Split (leaf key v,branch q n t0 t1) (leaf key v,t0) (empty,t1)
    else Split (leaf key v,branch q n t0 t1) (leaf key v,t1) (empty,t0) := by
  obtain ⟨j,hj,rfl,-⟩ := canonical_branch_iff.mp ht
  have hkey : ∀ k, (leaf key v : Tree K V).find k ≠ none → k = key := by
    intro k h
    by_contra hne
    exact h (by rw [find,if_neg hne])
  have hside := slt_prefix_add (k := key) ht
  split at hside
  · next h =>
    rw [if_pos h]
    refine split_child ht (canonical_leaf key v) false (parts_child ht false fun k hk => ?_)
    obtain rfl := hkey k hk
    exact hside
  · next h =>
    rw [if_neg h]
    refine split_child ht (canonical_leaf key v) true (parts_child ht true fun k hk => ?_)
    obtain rfl := hkey k hk
    exact hside

theorem split_side {s : Tree K V} (hs : s.Canonical) {j : ℕ} (hn : n = BitVec.twoPow _ j) {x : NativeInt}
    (hside : s.Side q j (x.getLsbD j)) :
    if x &&& n = 0 then Split (s,branch q n t0 t1) (s,t0) (empty,t1)
    else Split (s,branch q n t0 t1) (s,t1) (empty,t0) := by
  obtain ⟨j',hj,hmask,_,_,_,hs0,hs1,_,_⟩ := canonical_branch_iff.mp ht
  obtain rfl : j' = j := twoPow_inj (by omega) (hmask.symm.trans hn)
  subst hn
  have hbit : ∀ k, s.find k ≠ none → (Key.id k).getLsbD j' = x.getLsbD j' := by
    intro k hk
    by_contra hne
    exact hk (hside.find_eq_none hne)
  have hz := and_eq_zero_iff (x := x) (show j' < intSize by omega)
  cases hb : x.getLsbD j' with
  | false =>
    rw [if_pos (hz.mpr hb)]
    refine split_child ht hs false (parts_child ht false fun k hk => ?_)
    exact hs1.find_eq_none (by simp [hbit k hk,hb])
  | true =>
    rw [if_neg fun h0 => absurd (hz.mp h0) (by rw [hb]; decide)]
    refine split_child ht hs true (parts_child ht true fun k hk => ?_)
    exact hs0.find_eq_none (by simp [hbit k hk,hb])

theorem split_leafMatch (key : K) (v : V) :
    if matchPrefix (Key.id key) q n then
      if Key.id key &&& n = 0 then Split (leaf key v,branch q n t0 t1) (leaf key v,t0) (empty,t1)
      else Split (leaf key v,branch q n t0 t1) (leaf key v,t1) (empty,t0)
    else Split (leaf key v,branch q n t0 t1) (leaf key v,empty) (empty,branch q n t0 t1) := by
  obtain ⟨j,hj,rfl,hq,-⟩ := canonical_branch_iff.mp ht
  split
  · next h =>
    refine split_side ht (canonical_leaf key v) rfl fun k hk => ?_
    obtain rfl : k = key := by simpa [keys] using hk
    exact ⟨(matchPrefix_iff (by omega) hq).mp h,rfl⟩
  · next h => exact split_disjoint trivial ht (by simp) (by simp) (Merger.Apart.disjoint (apart_branch ht h v))

end Right

section Branches
variable {m n : NativeInt} (hs : (branch p m s0 s1).Canonical) (ht : (branch q n t0 t1).Canonical)
include hs ht

theorem split_same (h : p = q ∧ m = n) : Split (branch p m s0 s1,branch q n t0 t1) (s0,t0) (s1,t1) := by
  obtain ⟨rfl,rfl⟩ := h
  obtain ⟨i,hi,rfl,_,hse0,hse1,hs0,hs1,hcs0,hcs1⟩ := canonical_branch_iff.mp hs
  obtain ⟨j,_,hmask,_,hte0,hte1,ht0,ht1,hct0,hct1⟩ := canonical_branch_iff.mp ht
  obtain rfl : i = j := twoPow_inj (by omega) hmask
  refine ⟨fun k => ?_,⟨hcs0,hct0,by simp [hse0],by simp only [size]; omega⟩,
    ⟨hcs1,hct1,by simp [hse1],by simp only [size]; omega⟩⟩
  simp only [find2,find_branch hi hs0 hs1,find_branch hi ht0 ht1]
  cases hb : (Key.id k).getLsbD i with
  | false =>
    left
    rw [hs1.find_eq_none (by simp [hb]),ht1.find_eq_none (by simp [hb])]
    simp
  | true =>
    right
    rw [hs0.find_eq_none (by simp [hb]),ht0.find_eq_none (by simp [hb])]
    simp

theorem split_right (h : (shorter n m && matchPrefix p q n) = true) :
    if p &&& n = 0 then Split (branch p m s0 s1,branch q n t0 t1) (branch p m s0 s1,t0) (empty,t1)
    else Split (branch p m s0 s1,branch q n t0 t1) (branch p m s0 s1,t1) (empty,t0) := by
  obtain ⟨i,hi,rfl,-⟩ := canonical_branch_iff.mp hs
  obtain ⟨j,hj,rfl,hq,-⟩ := canonical_branch_iff.mp ht
  rw [Bool.and_eq_true,shorter_iff hj hi,matchPrefix_iff (by omega) hq] at h
  exact split_side ht hs rfl (Merger.side_of_contains hs h.1 h.2)

theorem split_branches :
    if p = q ∧ m = n then Split (branch p m s0 s1,branch q n t0 t1) (s0,t0) (s1,t1)
    else if shorter m n && matchPrefix q p m then
      if q &&& m = 0 then Split (branch p m s0 s1,branch q n t0 t1) (s0,branch q n t0 t1) (s1,empty)
      else Split (branch p m s0 s1,branch q n t0 t1) (s1,branch q n t0 t1) (s0,empty)
    else if shorter n m && matchPrefix p q n then
      if p &&& n = 0 then Split (branch p m s0 s1,branch q n t0 t1) (branch p m s0 s1,t0) (empty,t1)
      else Split (branch p m s0 s1,branch q n t0 t1) (branch p m s0 s1,t1) (empty,t0)
    else Split (branch p m s0 s1,branch q n t0 t1) (branch p m s0 s1,empty) (empty,branch q n t0 t1) := by
  split
  · next h => exact split_same hs ht h
  · next hne =>
    split
    · next h =>
      have hsplit := split_right ht hs h
      split at hsplit
      · next hz =>
        rw [if_pos hz]
        exact hsplit.swap
      · next hz =>
        rw [if_neg hz]
        exact hsplit.swap
    · next h1 =>
      split
      · next h => exact split_right hs ht h
      · next h2 =>
        obtain ⟨i,hi,rfl,hp,-⟩ := canonical_branch_iff.mp hs
        obtain ⟨j,hj,rfl,hq,-⟩ := canonical_branch_iff.mp ht
        rw [Bool.and_eq_true,shorter_iff hi hj,matchPrefix_iff (by omega) hp] at h1
        rw [Bool.and_eq_true,shorter_iff hj hi,matchPrefix_iff (by omega) hq] at h2
        refine split_disjoint hs ht (by simp) (by simp) (Merger.Apart.disjoint (Merger.apart_branches hs ht ?_ ?_ ?_))
        · rintro ⟨rfl,rfl⟩
          exact hne ⟨rfl,rfl⟩
        · exact fun hlt ha => h1 ⟨hlt,ha⟩
        · exact fun hlt ha => h2 ⟨hlt,ha⟩

end Branches
end Cases
end FramaC.Hptmap
