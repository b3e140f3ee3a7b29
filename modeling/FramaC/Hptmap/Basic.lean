import FramaC.Lib.BitMask

/-! # Patricia trees

The maps of `hptmap.ml` over the native integers. Trees are hash-consed, so physical equality of
trees is equality here. Keys are taken up to `Key.equal`.
-/
set_option linter.unusedSectionVars false
namespace FramaC.Hptmap

namespace BigEndian

abbrev intSize : ℕ := 63

abbrev NativeInt := BitVec intSize

def mask (i m : NativeInt) : NativeInt := i &&& ~~~(2 * m - 1)

def shorter (m n : NativeInt) : Bool := n.slt m

/-- A mask for the highest bit differing between `p0` and `p1`. -/
def branchingBit (p0 p1 : NativeInt) : NativeInt :=
  let v := p0 ^^^ p1
  let v := v ||| v >>> 1
  let v := v ||| v >>> 2
  let v := v ||| v >>> 4
  let v := v ||| v >>> 8
  let v := v ||| v >>> 16
  let v := if intSize > 32 then v ||| v >>> 32 else v
  (v + 1) >>> 1

/-- The same bits from the position `i` on. -/
def Agree (i : ℕ) (x y : NativeInt) : Prop := ∀ j, i ≤ j → x.getLsbD j = y.getLsbD j

theorem Agree.refl (i : ℕ) (x : NativeInt) : Agree i x x := fun _ _ => rfl

theorem Agree.symm {i : ℕ} {x y : NativeInt} (h : Agree i x y) : Agree i y x := fun j hj => (h j hj).symm

theorem Agree.trans {i : ℕ} {x y z : NativeInt} (h : Agree i x y) (h' : Agree i y z) : Agree i x z :=
  fun j hj => (h j hj).trans (h' j hj)

theorem Agree.mono {i j : ℕ} {x y : NativeInt} (h : Agree i x y) (hij : i ≤ j) : Agree j x y :=
  fun k hk => h k (by omega)

theorem getLsbD_mask {x : NativeInt} {i : ℕ} (hi : i < intSize) (j : ℕ) :
    (mask x (BitVec.twoPow _ i)).getLsbD j = (decide (i < j) && x.getLsbD j) :=
  BitMask.getLsbD_and_not hi j

theorem agree_mask {x : NativeInt} {i : ℕ} (hi : i < intSize) : Agree (i + 1) (mask x (BitVec.twoPow _ i)) x := by
  intro j hj
  have hij : i < j := hj
  simp [getLsbD_mask hi,hij]

theorem mask_eq_iff {x p : NativeInt} {i : ℕ} (hi : i < intSize) (hp : mask p (BitVec.twoPow _ i) = p) :
    mask x (BitVec.twoPow _ i) = p ↔ Agree (i + 1) x p := by
  constructor
  · intro h
    rw [← h]
    exact (agree_mask hi).symm
  · intro h
    rw [← hp]
    apply BitVec.eq_of_getLsbD_eq
    intro j _
    rw [getLsbD_mask hi,getLsbD_mask hi]
    by_cases hij : i < j
    · rw [h j hij]
    · simp [hij]

theorem mask_mask {x : NativeInt} {i : ℕ} (hi : i < intSize) :
    mask (mask x (BitVec.twoPow _ i)) (BitVec.twoPow _ i) = mask x (BitVec.twoPow _ i) := by
  apply BitVec.eq_of_getLsbD_eq
  intro j _
  simp [getLsbD_mask hi]

theorem twoPow_inj {i j : ℕ} (hi : i < intSize) (h : BitVec.twoPow intSize i = BitVec.twoPow intSize j) :
    i = j := by
  have hbit := congrArg (fun x => x.getLsbD i) h
  simp only [BitVec.getLsbD_twoPow] at hbit
  simp [hi] at hbit
  exact hbit.2.symm

theorem shorter_iff {i j : ℕ} (hi : i + 1 < intSize) (hj : j + 1 < intSize) :
    shorter (BitVec.twoPow _ i) (BitVec.twoPow _ j) = true ↔ j < i := by
  have hpos : ∀ k, k + 1 < intSize → (BitVec.twoPow intSize k).toInt = (2 ^ k : ℕ) := by
    intro k hk
    have hlt : 2 ^ (k + 1) < 2 ^ intSize := Nat.pow_lt_pow_right (by omega) hk
    have hnat : (BitVec.twoPow intSize k).toNat = 2 ^ k := BitVec.toNat_twoPow_of_lt (by omega)
    rw [BitVec.toInt_eq_toNat_of_lt (by rw [hnat]; rw [pow_succ] at hlt; omega),hnat]
  rw [shorter,BitVec.slt_iff_toInt_lt,hpos i hi,hpos j hj,Int.ofNat_lt]
  exact Nat.pow_lt_pow_iff_right (by omega)

theorem branchingBit_spec {p0 p1 : NativeInt} (h0 : p0.getLsbD (intSize - 1) = false)
    (h1 : p1.getLsbD (intSize - 1) = false) (hne : p0 ≠ p1) :
    ∃ i, i + 1 < intSize ∧ branchingBit p0 p1 = BitVec.twoPow _ i ∧ Agree (i + 1) p0 p1 ∧
      p0.getLsbD i ≠ p1.getLsbD i := by
  obtain ⟨i,hi,hbit,habove⟩ := BitMask.exists_high_bit (v := p0 ^^^ p1) (by simpa using hne)
  have hdiff : p0.getLsbD i ≠ p1.getLsbD i := by
    simpa [BitVec.getLsbD_xor] using hbit
  have hlast : i ≠ intSize - 1 := by
    rintro rfl
    rw [h0,h1] at hdiff
    exact hdiff rfl
  have hagree : Agree (i + 1) p0 p1 := by
    intro j hj
    simpa [BitVec.getLsbD_xor] using habove j hj
  refine ⟨i,by omega,?_,hagree,hdiff⟩
  -- each smear doubles the number of bits set below the highest one
  have s0 : ∀ j, (p0 ^^^ p1).getLsbD j = true ↔ ∃ d, d < 1 ∧ (p0 ^^^ p1).getLsbD (j + d) = true := by
    intro j
    constructor
    · intro h
      exact ⟨0,by omega,h⟩
    · rintro ⟨d,hd,h⟩
      obtain rfl : d = 0 := by omega
      exact h
  have s6 := BitMask.getLsbD_smear_double (BitMask.getLsbD_smear_double (BitMask.getLsbD_smear_double
    (BitMask.getLsbD_smear_double (BitMask.getLsbD_smear_double (BitMask.getLsbD_smear_double s0)))))
  refine BitMask.succ_ushiftRight_one (by omega) fun j => (s6 j).trans ?_
  constructor
  · rintro ⟨d,_,h⟩
    by_contra hlt
    rw [habove (j + d) (by omega)] at h
    exact absurd h (by decide)
  · intro hj
    have hsize : intSize = 63 := rfl
    refine ⟨i - j,by omega,?_⟩
    rw [Nat.add_sub_cancel' hj]
    exact hbit

end BigEndian
open BigEndian

/-- Keys are told apart by an identifier, which is not negative. -/
class Key (K : Type) where
  id : K → NativeInt
  id_injective : Function.Injective id
  id_nonneg : ∀ k, (id k).getLsbD (intSize - 1) = false

inductive Tree (K V : Type)
  | empty
  | leaf (key : K) (data : V)
  | branch (p m : NativeInt) (tree0 tree1 : Tree K V)
  deriving DecidableEq

namespace Tree
variable {K V W : Type} [DecidableEq K] [DecidableEq V] [DecidableEq W] [Key K]

def matchPrefix (k p m : NativeInt) : Bool := mask k m == p

@[grind =] def find (key : K) : Tree K V → Option V
  | empty => none
  | leaf key' data => if key = key' then some data else none
  | branch _ mask tree0 tree1 => if Key.id key &&& mask = 0 then find key tree0 else find key tree1

@[grind =] def findCheckMissing (key : K) : Tree K V → Option V
  | empty => none
  | leaf key' data => if key = key' then some data else none
  | branch prefix_ mask tree0 tree1 =>
    if matchPrefix (Key.id key) prefix_ mask then
      if Key.id key &&& mask = 0 then findCheckMissing key tree0 else findCheckMissing key tree1
    else none

def mem (key : K) : Tree K V → Bool
  | empty => false
  | leaf key' _ => key == key'
  | branch prefix_ mask tree0 tree1 =>
    if matchPrefix (Key.id key) prefix_ mask then
      if Key.id key &&& mask = 0 then mem key tree0 else mem key tree1
    else false

def join (p0 : NativeInt) (t0 : Tree K V) (p1 : NativeInt) (t1 : Tree K V) : Tree K V :=
  let m := branchingBit p0 p1
  let p := mask p0 m
  if p0 &&& m = 0 then branch p m t0 t1 else branch p m t1 t0

def keys : Tree K V → List K
  | empty => []
  | leaf key _ => [key]
  | branch _ _ tree0 tree1 => keys tree0 ++ keys tree1

/-- No branch has an empty child, each mask is a power of two, prefixes are masked, and the keys
below a branch agree with its prefix and are told apart by its mask. -/
def Canonical : Tree K V → Prop
  | empty => True
  | leaf _ _ => True
  | branch p m tree0 tree1 => tree0 ≠ empty ∧ tree1 ≠ empty ∧ (∃ i, i < intSize ∧ m = BitVec.twoPow _ i) ∧
      mask p m = p ∧ (∀ k ∈ tree0.keys, matchPrefix (Key.id k) p m = true ∧ Key.id k &&& m = 0) ∧
      (∀ k ∈ tree1.keys, matchPrefix (Key.id k) p m = true ∧ Key.id k &&& m ≠ 0) ∧
      tree0.Canonical ∧ tree1.Canonical

/-- The keys of a tree agree with `p` above the position `i`, where they have the bit `b`. -/
def Side (p : NativeInt) (i : ℕ) (b : Bool) (t : Tree K V) : Prop :=
  ∀ k ∈ t.keys, Agree (i + 1) (Key.id k) p ∧ (Key.id k).getLsbD i = b

theorem and_eq_zero_iff {x : NativeInt} {i : ℕ} (hi : i < intSize) :
    x &&& BitVec.twoPow _ i = 0 ↔ x.getLsbD i = false :=
  BitMask.and_twoPow_eq_zero_iff x hi

theorem and_ne_zero_iff {x : NativeInt} {i : ℕ} (hi : i < intSize) :
    x &&& BitVec.twoPow _ i ≠ 0 ↔ x.getLsbD i = true := by
  rw [ne_eq,and_eq_zero_iff hi]
  simp

theorem matchPrefix_iff {x p : NativeInt} {i : ℕ} (hi : i < intSize) (hp : mask p (BitVec.twoPow _ i) = p) :
    matchPrefix x p (BitVec.twoPow _ i) = true ↔ Agree (i + 1) x p := by
  rw [matchPrefix,beq_iff_eq]
  exact mask_eq_iff hi hp

theorem exists_key {t : Tree K V} (hc : t.Canonical) (h : t ≠ empty) : ∃ k, k ∈ t.keys := by
  induction t with
  | empty => exact absurd rfl h
  | leaf key data => exact ⟨key,by simp [keys]⟩
  | branch p m tree0 tree1 ih0 _ =>
    obtain ⟨h0,_,_,_,_,_,hc0,_⟩ := hc
    obtain ⟨k,hk⟩ := ih0 hc0 h0
    exact ⟨k,by simp [keys,hk]⟩

theorem canonical_branch_iff {p m : NativeInt} {tree0 tree1 : Tree K V} :
    (branch p m tree0 tree1).Canonical ↔ ∃ i, i + 1 < intSize ∧ m = BitVec.twoPow _ i ∧
      mask p (BitVec.twoPow _ i) = p ∧ tree0 ≠ empty ∧ tree1 ≠ empty ∧ tree0.Side p i false ∧
      tree1.Side p i true ∧ tree0.Canonical ∧ tree1.Canonical := by
  constructor
  · rintro ⟨h0,h1,⟨i,hi,rfl⟩,hp,hk0,hk1,hc0,hc1⟩
    have hs0 : tree0.Side p i false := by
      intro k hk
      obtain ⟨hm,hz⟩ := hk0 k hk
      exact ⟨(matchPrefix_iff hi hp).mp hm,(and_eq_zero_iff hi).mp hz⟩
    have hs1 : tree1.Side p i true := by
      intro k hk
      obtain ⟨hm,hz⟩ := hk1 k hk
      exact ⟨(matchPrefix_iff hi hp).mp hm,(and_ne_zero_iff hi).mp hz⟩
    -- some key has the bit of the mask, and keys are not negative
    have hlast : i ≠ intSize - 1 := by
      rintro rfl
      obtain ⟨k,hk⟩ := exists_key hc1 h1
      have hbit := (hs1 k hk).2
      rw [Key.id_nonneg] at hbit
      exact absurd hbit (by decide)
    exact ⟨i,by omega,rfl,hp,h0,h1,hs0,hs1,hc0,hc1⟩
  · rintro ⟨i,hi,rfl,hp,h0,h1,hs0,hs1,hc0,hc1⟩
    have hi' : i < intSize := by omega
    refine ⟨h0,h1,⟨i,hi',rfl⟩,hp,fun k hk => ?_,fun k hk => ?_,hc0,hc1⟩
    · obtain ⟨ha,hb⟩ := hs0 k hk
      exact ⟨(matchPrefix_iff hi' hp).mpr ha,(and_eq_zero_iff hi').mpr hb⟩
    · obtain ⟨ha,hb⟩ := hs1 k hk
      exact ⟨(matchPrefix_iff hi' hp).mpr ha,(and_ne_zero_iff hi').mpr hb⟩

theorem find_mem_keys {t : Tree K V} {k : K} {v : V} (h : t.find k = some v) : k ∈ t.keys := by
  induction t with
  | empty => simp [find] at h
  | leaf key data =>
    simp only [find] at h
    split at h
    · next hk => simp [keys,hk]
    · exact absurd h (by simp)
  | branch p m tree0 tree1 ih0 ih1 =>
    simp only [find] at h
    split at h
    · exact List.mem_append_left _ (ih0 h)
    · exact List.mem_append_right _ (ih1 h)

theorem find_eq_none {t : Tree K V} {k : K} (h : k ∉ t.keys) : t.find k = none := by
  cases hf : t.find k with
  | none => rfl
  | some v => exact absurd (find_mem_keys hf) h

theorem Side.find_eq_none {p : NativeInt} {i : ℕ} {b : Bool} {t : Tree K V} (hs : t.Side p i b) {k : K}
    (h : (Key.id k).getLsbD i ≠ b) : t.find k = none :=
  Tree.find_eq_none fun hk => h (hs k hk).2

section Branch
variable {p : NativeInt} {i : ℕ} {tree0 tree1 : Tree K V} {k : K}

theorem find_branch_twoPow (hi : i + 1 < intSize) : (branch p (BitVec.twoPow _ i) tree0 tree1).find k =
    if (Key.id k).getLsbD i = true then tree1.find k else tree0.find k := by
  have hz := and_eq_zero_iff (x := Key.id k) (show i < intSize by omega)
  rw [find]
  cases hb : (Key.id k).getLsbD i with
  | false => rw [if_pos (hz.mpr hb),if_neg (by decide)]
  | true =>
    rw [if_neg fun h => absurd (hz.mp h) (by rw [hb]; decide),if_pos rfl]

theorem find_branch (hi : i + 1 < intSize) (h0 : tree0.Side p i false) (h1 : tree1.Side p i true) :
    (branch p (BitVec.twoPow _ i) tree0 tree1).find k = (tree0.find k).or (tree1.find k) := by
  rw [find_branch_twoPow hi]
  cases hb : (Key.id k).getLsbD i with
  | false =>
    rw [h1.find_eq_none (by rw [hb]; decide),if_neg (by decide),Option.or_none]
  | true =>
    rw [h0.find_eq_none (by rw [hb]; decide),if_pos rfl,Option.none_or]

end Branch

theorem find_isSome {t : Tree K V} (hc : t.Canonical) {k : K} (hk : k ∈ t.keys) : (t.find k).isSome := by
  induction t with
  | empty => simp [keys] at hk
  | leaf key data =>
    obtain rfl : k = key := by simpa [keys] using hk
    simp [find]
  | branch p m tree0 tree1 ih0 ih1 =>
    obtain ⟨i,hi,rfl,_,_,_,hs0,hs1,hc0,hc1⟩ := (canonical_branch_iff).mp hc
    rw [find_branch hi hs0 hs1,Option.isSome_or,Bool.or_eq_true]
    rcases List.mem_append.mp hk with h | h
    · exact Or.inl (ih0 hc0 h)
    · exact Or.inr (ih1 hc1 h)

theorem mem_keys_iff {t : Tree K V} (hc : t.Canonical) {k : K} : k ∈ t.keys ↔ (t.find k).isSome := by
  refine ⟨find_isSome hc,fun h => ?_⟩
  obtain ⟨v,hv⟩ := Option.isSome_iff_exists.mp h
  exact find_mem_keys hv

theorem findCheckMissing_eq {t : Tree K V} (hc : t.Canonical) (k : K) : t.findCheckMissing k = t.find k := by
  induction t with
  | empty => rfl
  | leaf key data => rfl
  | branch p m tree0 tree1 ih0 ih1 =>
    obtain ⟨i,hi,rfl,hp,_,_,hs0,hs1,hc0,hc1⟩ := (canonical_branch_iff).mp hc
    rw [findCheckMissing,ih0 hc0,ih1 hc1]
    split
    · rfl
    · next hm =>
      rw [matchPrefix_iff (by omega) hp] at hm
      rw [find_branch hi hs0 hs1,find_eq_none fun hk => hm (hs0 k hk).1,find_eq_none fun hk => hm (hs1 k hk).1]
      rfl

theorem mem_eq {t : Tree K V} (hc : t.Canonical) (k : K) : t.mem k = (t.find k).isSome := by
  rw [← findCheckMissing_eq hc]
  induction t with
  | empty => rfl
  | leaf key data =>
    rw [mem,findCheckMissing]
    by_cases h : k = key
    · simp [h]
    · simp [h]
  | branch p m tree0 tree1 ih0 ih1 =>
    obtain ⟨_,_,_,_,_,_,_,_,hc0,hc1⟩ := (canonical_branch_iff).mp hc
    rw [mem,findCheckMissing,ih0 hc0,ih1 hc1]
    split
    · split <;> rfl
    · rfl

theorem agree_above {p : NativeInt} {i : ℕ} {tree0 tree1 : Tree K V} (hs0 : tree0.Side p i false)
    (hs1 : tree1.Side p i true) {m : NativeInt} {k : K} (hk : k ∈ (branch p m tree0 tree1).keys) :
    Agree (i + 1) (Key.id k) p := by
  rcases List.mem_append.mp hk with h | h
  · exact (hs0 k h).1
  · exact (hs1 k h).1

theorem position_le {p q : NativeInt} {i j : ℕ} {s0 s1 t0 t1 : Tree K V} {m n : NativeInt} (hc0 : s0.Canonical)
    (hc1 : s1.Canonical) (h0 : s0 ≠ empty) (h1 : s1 ≠ empty) (hs0 : s0.Side p i false) (hs1 : s1.Side p i true)
    (ht0 : t0.Side q j false) (ht1 : t1.Side q j true)
    (h : ∀ k, k ∈ (branch p m s0 s1).keys → k ∈ (branch q n t0 t1).keys) : i ≤ j := by
  obtain ⟨k0,hk0⟩ := exists_key hc0 h0
  obtain ⟨k1,hk1⟩ := exists_key hc1 h1
  by_contra hlt
  have ha0 := agree_above ht0 ht1 (h k0 (List.mem_append_left _ hk0))
  have ha1 := agree_above ht0 ht1 (h k1 (List.mem_append_right _ hk1))
  have hbit := (ha0.trans ha1.symm) i (by omega)
  rw [(hs0 k0 hk0).2,(hs1 k1 hk1).2] at hbit
  exact absurd hbit (by decide)

theorem ne_of_branch {p m : NativeInt} {tree0 tree1 : Tree K V} (hc : (branch p m tree0 tree1).Canonical) (k : K) :
    ∃ k' ∈ (branch p m tree0 tree1).keys, k' ≠ k := by
  obtain ⟨i,_,_,_,h0,h1,hs0,hs1,hc0,hc1⟩ := (canonical_branch_iff).mp hc
  obtain ⟨k0,hk0⟩ := exists_key hc0 h0
  obtain ⟨k1,hk1⟩ := exists_key hc1 h1
  by_cases hk : k0 = k
  · refine ⟨k1,List.mem_append_right _ hk1,?_⟩
    rintro rfl
    subst hk
    have hbit := (hs0 _ hk0).2
    rw [(hs1 _ hk1).2] at hbit
    exact absurd hbit (by decide)
  · exact ⟨k0,List.mem_append_left _ hk0,hk⟩

theorem eq_of_find_eq {s t : Tree K V} (hs : s.Canonical) (ht : t.Canonical) (h : ∀ k, s.find k = t.find k) :
    s = t := by
  have hkeys : ∀ k, k ∈ s.keys ↔ k ∈ t.keys := by
    intro k
    rw [mem_keys_iff hs,mem_keys_iff ht,h k]
  induction s generalizing t with
  | empty =>
    by_contra hne
    obtain ⟨k,hk⟩ := exists_key ht (Ne.symm hne)
    exact absurd ((hkeys k).mpr hk) (by simp [keys])
  | leaf key data =>
    cases t with
    | empty => exact absurd ((hkeys key).mp (by simp [keys])) (by simp [keys])
    | leaf key' data' =>
      obtain rfl : key = key' := by simpa [keys] using hkeys key
      have hd := h key
      simp only [find,if_true,Option.some.injEq] at hd
      rw [hd]
    | branch q n t0 t1 =>
      obtain ⟨k,hk,hne⟩ := ne_of_branch ht key
      exact absurd ((hkeys k).mpr hk) (by simpa [keys] using hne)
  | branch p m s0 s1 ih0 ih1 =>
    cases t with
    | empty =>
      obtain ⟨k,hk⟩ := exists_key hs (by simp)
      exact absurd ((hkeys k).mp hk) (by simp [keys])
    | leaf key data =>
      obtain ⟨k,hk,hne⟩ := ne_of_branch hs key
      exact absurd ((hkeys k).mp hk) (by simpa [keys] using hne)
    | branch q n t0 t1 =>
      obtain ⟨i,hi,rfl,hp,hs0,hs1,hss0,hss1,hcs0,hcs1⟩ := (canonical_branch_iff).mp hs
      obtain ⟨j,hj,rfl,hq,ht0,ht1,hst0,hst1,hct0,hct1⟩ := (canonical_branch_iff).mp ht
      obtain rfl : i = j := le_antisymm
        (position_le hcs0 hcs1 hs0 hs1 hss0 hss1 hst0 hst1 fun k hk => (hkeys k).mp hk)
        (position_le hct0 hct1 ht0 ht1 hst0 hst1 hss0 hss1 fun k hk => (hkeys k).mpr hk)
      obtain ⟨k,hk⟩ := exists_key hs (by simp)
      have hpq : Agree (i + 1) p q :=
        (agree_above hss0 hss1 hk).symm.trans (agree_above hst0 hst1 ((hkeys k).mp hk))
      obtain rfl : p = q := by
        rw [← hp]
        exact (mask_eq_iff (by omega) hq).mpr hpq
      -- the bit of a key says in which child it is bound
      have hbranch : ∀ k, (if (Key.id k).getLsbD i = true then s1.find k else s0.find k) =
          if (Key.id k).getLsbD i = true then t1.find k else t0.find k := by
        intro k
        have hk := h k
        rwa [find_branch_twoPow hi,find_branch_twoPow hi] at hk
      have hf0 : ∀ k, s0.find k = t0.find k := by
        intro k
        cases hb : (Key.id k).getLsbD i with
        | false => simpa [hb] using hbranch k
        | true => rw [hss0.find_eq_none (by rw [hb]; decide),hst0.find_eq_none (by rw [hb]; decide)]
      have hf1 : ∀ k, s1.find k = t1.find k := by
        intro k
        cases hb : (Key.id k).getLsbD i with
        | false => rw [hss1.find_eq_none (by rw [hb]; decide),hst1.find_eq_none (by rw [hb]; decide)]
        | true => simpa [hb] using hbranch k
      have e0 := ih0 hcs0 hct0 hf0 fun k => by rw [mem_keys_iff hcs0,mem_keys_iff hct0,hf0 k]
      have e1 := ih1 hcs1 hct1 hf1 fun k => by rw [mem_keys_iff hcs1,mem_keys_iff hct1,hf1 k]
      rw [e0,e1]

end Tree
end FramaC.Hptmap
