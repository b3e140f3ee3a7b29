import FramaC.Hptmap.Basic

/-! # Insertion, deletion and mapping

The functions that rebuild one Patricia tree. An exception that returns the tree unchanged is
`none` here.
-/
set_option linter.unusedSectionVars false
namespace FramaC.Hptmap.Tree
open BigEndian
variable {K V W : Type} [DecidableEq K] [DecidableEq V] [DecidableEq W] [Key K]

def singleton (k : K) (d : V) : Tree K V := leaf k d

/-- The recursive part of `add`; `none` is `Unchanged`. -/
def addFrom (k : K) (d : V) : Tree K V → Option (Tree K V)
  | empty => some (leaf k d)
  | leaf k0 d0 =>
    if k = k0 then if d = d0 then none else some (leaf k d)
    else some (join (Key.id k) (leaf k d) (Key.id k0) (leaf k0 d0))
  | branch p m t0 t1 =>
    if matchPrefix (Key.id k) p m then
      if Key.id k &&& m = 0 then (addFrom k d t0).map fun t0' => branch p m t0' t1
      else (addFrom k d t1).map fun t1' => branch p m t0 t1'
    else some (join (Key.id k) (leaf k d) p (branch p m t0 t1))

def add (k : K) (d : V) (m : Tree K V) : Tree K V := (addFrom k d m).getD m

/-- The recursive part of `remove`; `none` is `Not_found`. -/
def removeFrom (key : K) : Tree K V → Option (Tree K V)
  | empty => none
  | leaf key' _ => if key = key' then some empty else none
  | branch prefix_ mask tree0 tree1 =>
    if matchPrefix (Key.id key) prefix_ mask then
      if Key.id key &&& mask = 0 then
        (removeFrom key tree0).map fun rtree0 =>
          if rtree0 = empty then tree1
          else if rtree0 = tree0 then branch prefix_ mask tree0 tree1
          else branch prefix_ mask rtree0 tree1
      else
        (removeFrom key tree1).map fun rtree1 =>
          if rtree1 = empty then tree0
          else if rtree1 = tree1 then branch prefix_ mask tree0 tree1
          else branch prefix_ mask tree0 rtree1
    else none

def remove (key : K) (m : Tree K V) : Tree K V := (removeFrom key m).getD m

def prune (p m : NativeInt) (u v : Tree K V) : Tree K V :=
  if u = empty then v else if v = empty then u else branch p m u v

def map (f : V → V) : Tree K V → Tree K V
  | empty => empty
  | leaf key data => if data = f data then leaf key data else leaf key (f data)
  | branch p m tree0 tree1 =>
    if map f tree0 = tree0 ∧ map f tree1 = tree1 then branch p m tree0 tree1
    else branch p m (map f tree0) (map f tree1)

/-- The function `map'` of the source. -/
@[grind =] def mapOpt (f : K → V → Option V) : Tree K V → Tree K V
  | empty => empty
  | leaf key data =>
    match f key data with
    | some data' => if data = data' then leaf key data else leaf key data'
    | none => empty
  | branch p m tree0 tree1 =>
    if mapOpt f tree0 = tree0 ∧ mapOpt f tree1 = tree1 then branch p m tree0 tree1
    else prune p m (mapOpt f tree0) (mapOpt f tree1)

def filter (f : K → Bool) : Tree K V → Tree K V
  | empty => empty
  | leaf key data => if f key then leaf key data else empty
  | branch p m tree0 tree1 =>
    if filter f tree0 = tree0 ∧ filter f tree1 = tree1 then branch p m tree0 tree1
    else prune p m (filter f tree0) (filter f tree1)

def endoMap (f : K → V → V) : Tree K V → Tree K V
  | empty => empty
  | leaf key data => if data = f key data then leaf key data else leaf key (f key data)
  | branch p m tree0 tree1 =>
    if endoMap f tree0 = tree0 ∧ endoMap f tree1 = tree1 then branch p m tree0 tree1
    else branch p m (endoMap f tree0) (endoMap f tree1)

@[grind =] def fromShape (f : K → W → V) : Tree K W → Tree K V
  | empty => empty
  | leaf key value => leaf key (f key value)
  | branch p m t1 t2 => branch p m (fromShape f t1) (fromShape f t2)

theorem Side.mono {p : NativeInt} {i : ℕ} {b : Bool} {t : Tree K W} {u : Tree K V} (h : t.Side p i b)
    (hk : ∀ k ∈ u.keys, k ∈ t.keys) : u.Side p i b :=
  fun k hu => h k (hk k hu)

theorem Side.of_find {p : NativeInt} {i : ℕ} {b : Bool} {t : Tree K W} {u : Tree K V} (h : t.Side p i b)
    (hk : ∀ k, t.find k = none → u.find k = none) (hu : u.Canonical) : u.Side p i b := by
  refine h.mono fun k hku => ?_
  by_contra hkt
  have hnone := hk k (Tree.find_eq_none hkt)
  rw [mem_keys_iff hu,hnone] at hku
  exact absurd hku (by simp)

section Branches
variable {p : NativeInt} {i : ℕ} {u v : Tree K V}

theorem branch_canonical (hi : i + 1 < intSize) (hp : mask p (BitVec.twoPow _ i) = p) (hu : u.Canonical)
    (hv : v.Canonical) (hsu : u.Side p i false) (hsv : v.Side p i true) (hu0 : u ≠ empty) (hv0 : v ≠ empty) :
    (branch p (BitVec.twoPow _ i) u v).Canonical :=
  canonical_branch_iff.mpr ⟨i,hi,rfl,hp,hu0,hv0,hsu,hsv,hu,hv⟩

theorem prune_spec (hi : i + 1 < intSize) (hp : mask p (BitVec.twoPow _ i) = p) (hu : u.Canonical)
    (hv : v.Canonical) (hsu : u.Side p i false) (hsv : v.Side p i true) :
    (prune p (BitVec.twoPow _ i) u v).Canonical ∧
      ∀ k, (prune p (BitVec.twoPow _ i) u v).find k = (u.find k).or (v.find k) := by
  unfold prune
  split
  · next h =>
    subst h
    exact ⟨hv,fun k => by simp [find]⟩
  · next hu0 =>
    split
    · next h =>
      subst h
      exact ⟨hu,fun k => by simp [find]⟩
    · next hv0 => exact ⟨branch_canonical hi hp hu hv hsu hsv hu0 hv0,fun k => find_branch hi hsu hsv⟩

theorem prune_eq_branch {m : NativeInt} (hu : u ≠ empty) (hv : v ≠ empty) : prune p m u v = branch p m u v := by
  rw [prune,if_neg hu,if_neg hv]

end Branches

/-- The keys of a tree agree with a prefix from the position `j` on. -/
def Under (j : ℕ) (p : NativeInt) (t : Tree K V) : Prop := ∀ k ∈ t.keys, Agree j (Key.id k) p

/-- The prefixes of two trees disagree: neither is contained in the other. -/
def Apart (p0 : NativeInt) (t0 : Tree K V) (p1 : NativeInt) (t1 : Tree K W) : Prop :=
  p0.getLsbD (intSize - 1) = false ∧ p1.getLsbD (intSize - 1) = false ∧
    ∃ j, p0.getLsbD j ≠ p1.getLsbD j ∧ t0.Under j p0 ∧ t1.Under j p1

theorem Apart.of_find {p0 p1 : NativeInt} {t0 t1 u0 u1 : Tree K V} (h : Apart p0 t0 p1 t1) (hu0 : u0.Canonical)
    (hu1 : u1.Canonical) (h0 : ∀ k, t0.find k = none → u0.find k = none)
    (h1 : ∀ k, t1.find k = none → u1.find k = none) : Apart p0 u0 p1 u1 := by
  obtain ⟨hn0,hn1,j,hj,hk0,hk1⟩ := h
  have hsub : ∀ {t u : Tree K V}, u.Canonical → (∀ k, t.find k = none → u.find k = none) →
      ∀ k ∈ u.keys, k ∈ t.keys := by
    intro t u hu hf k hk
    by_contra hkt
    rw [mem_keys_iff hu,hf k (find_eq_none hkt)] at hk
    exact absurd hk (by simp)
  exact ⟨hn0,hn1,j,hj,fun k hk => hk0 k (hsub hu0 h0 k hk),fun k hk => hk1 k (hsub hu1 h1 k hk)⟩

theorem join_spec {p0 p1 : NativeInt} {t0 t1 : Tree K V} (hc0 : t0.Canonical) (hc1 : t1.Canonical)
    (hne0 : t0 ≠ empty) (hne1 : t1 ≠ empty) (h : Apart p0 t0 p1 t1) :
    (join p0 t0 p1 t1).Canonical ∧ join p0 t0 p1 t1 ≠ empty ∧
      ∀ k, (join p0 t0 p1 t1).find k = (t0.find k).or (t1.find k) := by
  obtain ⟨hn0,hn1,j,hj,hk0,hk1⟩ := h
  obtain ⟨i,hi,hbit,habove,hdiff⟩ := branchingBit_spec hn0 hn1 (by rintro rfl; exact hj rfl)
  have hi' : i < intSize := by omega
  have hji : j ≤ i := by
    by_contra hlt
    exact hj (habove j (by omega))
  have hp : mask (mask p0 (BitVec.twoPow _ i)) (BitVec.twoPow _ i) = mask p0 (BitVec.twoPow _ i) := mask_mask hi'
  have hs0 : t0.Side (mask p0 (BitVec.twoPow _ i)) i (p0.getLsbD i) := by
    intro k hk
    have ha := (hk0 k hk).mono hji
    exact ⟨(ha.mono (by omega)).trans (agree_mask hi').symm,ha i le_rfl⟩
  have hs1 : t1.Side (mask p0 (BitVec.twoPow _ i)) i (p1.getLsbD i) := by
    intro k hk
    have ha := (hk1 k hk).mono hji
    exact ⟨((ha.mono (by omega)).trans habove.symm).trans (agree_mask hi').symm,ha i le_rfl⟩
  simp only [join,hbit]
  split
  · next hz =>
    have hb0 := (and_eq_zero_iff hi').mp hz
    have hb1 : p1.getLsbD i = true := by
      rw [hb0] at hdiff
      simpa using Ne.symm hdiff
    rw [hb0] at hs0
    rw [hb1] at hs1
    exact ⟨branch_canonical hi hp hc0 hc1 hs0 hs1 hne0 hne1,by simp,fun k => find_branch hi hs0 hs1⟩
  · next hz =>
    have hb0 := (and_ne_zero_iff hi').mp hz
    have hb1 : p1.getLsbD i = false := by
      rw [hb0] at hdiff
      simpa using Ne.symm hdiff
    rw [hb0] at hs0
    rw [hb1] at hs1
    refine ⟨branch_canonical hi hp hc1 hc0 hs1 hs0 hne1 hne0,by simp,fun k => ?_⟩
    rw [find_branch hi hs1 hs0]
    -- a key is bound on one side only
    cases hb : (Key.id k).getLsbD i with
    | false => rw [hs0.find_eq_none (by rw [hb]; decide),Option.or_none,Option.none_or]
    | true => rw [hs1.find_eq_none (by rw [hb]; decide),Option.or_none,Option.none_or]

theorem exists_bit_ne {x y : NativeInt} (h : x ≠ y) : ∃ j, x.getLsbD j ≠ y.getLsbD j := by
  by_contra hno
  push Not at hno
  exact h (BitVec.eq_of_getLsbD_eq fun i _ => hno i)

theorem apart_leaf {k k0 : K} (h : k ≠ k0) (d d0 : V) :
    Apart (Key.id k) (leaf k d) (Key.id k0) (leaf k0 d0) := by
  obtain ⟨j,hj⟩ := exists_bit_ne fun hid => h (Key.id_injective hid)
  refine ⟨Key.id_nonneg k,Key.id_nonneg k0,j,hj,fun k' hk => ?_,fun k' hk => ?_⟩
  · obtain rfl : k' = k := by simpa [keys] using hk
    exact Agree.refl j _
  · obtain rfl : k' = k0 := by simpa [keys] using hk
    exact Agree.refl j _

theorem prefix_nonneg {p : NativeInt} {i : ℕ} (hi : i + 1 < intSize) {tree0 : Tree K V} (hc0 : tree0.Canonical)
    (h0 : tree0 ≠ empty) (hs0 : tree0.Side p i false) : p.getLsbD (intSize - 1) = false := by
  obtain ⟨k,hk⟩ := exists_key hc0 h0
  rw [← (hs0 k hk).1 (intSize - 1) (by omega)]
  exact Key.id_nonneg k

theorem apart_branch {k : K} {p : NativeInt} {i : ℕ} {t0 t1 : Tree K V}
    (hc : (branch p (BitVec.twoPow _ i) t0 t1).Canonical) (h : ¬ matchPrefix (Key.id k) p (BitVec.twoPow _ i) = true)
    (d : W) : Apart (Key.id k) (leaf k d) p (branch p (BitVec.twoPow _ i) t0 t1) := by
  obtain ⟨i',hi,hm,hp,h0,_,hs0,hs1,hc0,_⟩ := canonical_branch_iff.mp hc
  obtain rfl : i' = i := twoPow_inj (by omega) hm.symm
  rw [matchPrefix_iff (by omega) hp] at h
  unfold Agree at h
  push Not at h
  obtain ⟨j,hj,hbit⟩ := h
  refine ⟨Key.id_nonneg k,prefix_nonneg hi hc0 h0 hs0,j,hbit,fun k' hk => ?_,fun k' hk => ?_⟩
  · obtain rfl : k' = k := by simpa [keys] using hk
    exact Agree.refl j _
  · exact (agree_above hs0 hs1 hk).mono hj

theorem addFrom_spec (k : K) (d : V) {t : Tree K V} (hc : t.Canonical) :
    match addFrom k d t with
    | none => t.find k = some d
    | some t' => t'.Canonical ∧ t' ≠ empty ∧ ∀ k', t'.find k' = if k' = k then some d else t.find k' := by
  induction t with
  | empty =>
    refine ⟨trivial,by simp,fun k' => ?_⟩
    by_cases h : k' = k
    · simp [find,h]
    · simp [find,h]
  | leaf k0 d0 =>
    simp only [addFrom]
    split_ifs with hk hd
    · subst hk hd
      simp [find]
    · subst hk
      refine ⟨trivial,by simp,fun k' => ?_⟩
      simp only [find]
      split <;> rfl
    · have hleaf : ∀ (k : K) (d : V), (leaf k d).Canonical := fun _ _ => trivial
      obtain ⟨hcan,hne,hfind⟩ := join_spec (hleaf k d) (hleaf k0 d0) (by simp) (by simp)
        (apart_leaf hk d d0)
      refine ⟨hcan,hne,fun k' => ?_⟩
      rw [hfind,find]
      split
      · rfl
      · rw [Option.none_or]
  | branch p m t0 t1 ih0 ih1 =>
    obtain ⟨i,hi,rfl,hp,h0,h1,hs0,hs1,hc0,hc1⟩ := canonical_branch_iff.mp hc
    have hi' : i < intSize := by omega
    simp only [addFrom]
    split_ifs with hm hz
    · have hbit := (and_eq_zero_iff hi').mp hz
      have hagree := (matchPrefix_iff hi' hp).mp hm
      have ih := ih0 hc0
      cases ha : addFrom k d t0 with
      | none =>
        rw [ha] at ih
        simp only [Option.map_none]
        rw [find_branch_twoPow hi,hbit]
        exact ih
      | some t0' =>
        rw [ha] at ih
        obtain ⟨hcan,hne,hfind⟩ := ih
        have hside : t0'.Side p i false := by
          intro k' hk'
          by_cases hkk : k' = k
          · subst hkk
            exact ⟨hagree,hbit⟩
          · rw [mem_keys_iff hcan,hfind,if_neg hkk,← mem_keys_iff hc0] at hk'
            exact hs0 k' hk'
        refine ⟨branch_canonical hi hp hcan hc1 hside hs1 hne h1,by simp,fun k' => ?_⟩
        rw [find_branch_twoPow hi,find_branch_twoPow hi]
        by_cases hkk : k' = k
        · subst hkk
          simp [hbit,hfind]
        · simp [hfind,hkk]
    · have hbit := (and_ne_zero_iff hi').mp hz
      have hagree := (matchPrefix_iff hi' hp).mp hm
      have ih := ih1 hc1
      cases ha : addFrom k d t1 with
      | none =>
        rw [ha] at ih
        simp only [Option.map_none]
        rw [find_branch_twoPow hi,hbit]
        exact ih
      | some t1' =>
        rw [ha] at ih
        obtain ⟨hcan,hne,hfind⟩ := ih
        have hside : t1'.Side p i true := by
          intro k' hk'
          by_cases hkk : k' = k
          · subst hkk
            exact ⟨hagree,hbit⟩
          · rw [mem_keys_iff hcan,hfind,if_neg hkk,← mem_keys_iff hc1] at hk'
            exact hs1 k' hk'
        refine ⟨branch_canonical hi hp hc0 hcan hs0 hside h0 hne,by simp,fun k' => ?_⟩
        rw [find_branch_twoPow hi,find_branch_twoPow hi]
        by_cases hkk : k' = k
        · subst hkk
          simp [hbit,hfind]
        · simp [hfind,hkk]
    · have hleaf : (leaf k d).Canonical := trivial
      obtain ⟨hcan,hne,hfind⟩ := join_spec hleaf hc (by simp) (by simp) (apart_branch hc hm d)
      refine ⟨hcan,hne,fun k' => ?_⟩
      rw [hfind]
      by_cases hkk : k' = k
      · subst hkk
        simp [find]
      · rw [find.eq_2,if_neg hkk,if_neg hkk,Option.none_or]

theorem add_spec (k : K) (d : V) {t : Tree K V} (hc : t.Canonical) :
    (add k d t).Canonical ∧ ∀ k', (add k d t).find k' = if k' = k then some d else t.find k' := by
  have h := addFrom_spec k d hc
  unfold add
  cases ha : addFrom k d t with
  | none =>
    rw [ha] at h
    refine ⟨hc,fun k' => ?_⟩
    simp only [Option.getD_none]
    split
    · next hk => rw [hk]; exact h
    · rfl
  | some t' =>
    rw [ha] at h
    exact ⟨h.1,h.2.2⟩

theorem removeFrom_spec (k : K) {t : Tree K V} (hc : t.Canonical) :
    match removeFrom k t with
    | none => t.find k = none
    | some t' => t'.Canonical ∧ ∀ k', t'.find k' = if k' = k then none else t.find k' := by
  induction t with
  | empty => rfl
  | leaf key data =>
    simp only [removeFrom]
    split
    · next t' h =>
      split_ifs at h with hk
      simp only [find,if_neg hk]
    · next t' h =>
      split_ifs at h with hk
      obtain rfl := Option.some.inj h
      subst hk
      refine ⟨trivial,fun k' => ?_⟩
      simp only [find]
      split <;> simp_all
  | branch p m t0 t1 ih0 ih1 =>
    obtain ⟨i,hi,rfl,hp,h0,h1,hs0,hs1,hc0,hc1⟩ := canonical_branch_iff.mp hc
    have hi' : i < intSize := by omega
    simp only [removeFrom]
    split_ifs with hm hz
    · have hbit := (and_eq_zero_iff hi').mp hz
      have ih := ih0 hc0
      cases hr : removeFrom k t0 with
      | none =>
        rw [hr] at ih
        simp only [Option.map_none]
        rw [find_branch_twoPow hi,hbit]
        exact ih
      | some u =>
        rw [hr] at ih
        obtain ⟨hcan,hfind⟩ := ih
        have hshape : (if u = empty then t1 else if u = t0 then branch p (BitVec.twoPow _ i) t0 t1
            else branch p (BitVec.twoPow _ i) u t1) = prune p (BitVec.twoPow _ i) u t1 := by
          unfold prune
          split_ifs with he hu
          · rfl
          · rw [hu]
          · rfl
        have hside : u.Side p i false := hs0.of_find (fun k' hk' => by rw [hfind,hk',ite_self]) hcan
        simp only [Option.map_some,hshape]
        obtain ⟨hpc,hpf⟩ := prune_spec hi hp hcan hc1 hside hs1
        refine ⟨hpc,fun k' => ?_⟩
        rw [hpf,find_branch hi hs0 hs1,hfind]
        by_cases hkk : k' = k
        · subst hkk
          rw [if_pos rfl,if_pos rfl,hs1.find_eq_none (by rw [hbit]; decide)]
          rfl
        · rw [if_neg hkk,if_neg hkk]
    · have hbit := (and_ne_zero_iff hi').mp hz
      have ih := ih1 hc1
      cases hr : removeFrom k t1 with
      | none =>
        rw [hr] at ih
        simp only [Option.map_none]
        rw [find_branch_twoPow hi,hbit]
        exact ih
      | some u =>
        rw [hr] at ih
        obtain ⟨hcan,hfind⟩ := ih
        have hshape : (if u = empty then t0 else if u = t1 then branch p (BitVec.twoPow _ i) t0 t1
            else branch p (BitVec.twoPow _ i) t0 u) = prune p (BitVec.twoPow _ i) t0 u := by
          unfold prune
          split_ifs with he hu
          · rfl
          · rw [hu]
          · rfl
        have hside : u.Side p i true := hs1.of_find (fun k' hk' => by rw [hfind,hk',ite_self]) hcan
        simp only [Option.map_some,hshape]
        obtain ⟨hpc,hpf⟩ := prune_spec hi hp hc0 hcan hs0 hside
        refine ⟨hpc,fun k' => ?_⟩
        rw [hpf,find_branch hi hs0 hs1,hfind]
        by_cases hkk : k' = k
        · subst hkk
          rw [if_pos rfl,if_pos rfl,hs0.find_eq_none (by rw [hbit]; decide)]
          rfl
        · rw [if_neg hkk,if_neg hkk]
    · rw [← findCheckMissing_eq hc,findCheckMissing,if_neg hm]

theorem remove_spec (k : K) {t : Tree K V} (hc : t.Canonical) :
    (remove k t).Canonical ∧ ∀ k', (remove k t).find k' = if k' = k then none else t.find k' := by
  have h := removeFrom_spec k hc
  unfold remove
  cases hr : removeFrom k t with
  | none =>
    rw [hr] at h
    refine ⟨hc,fun k' => ?_⟩
    simp only [Option.getD_none]
    split
    · next hk => rw [hk]; exact h
    · rfl
  | some t' =>
    rw [hr] at h
    exact h

theorem keys_fromShape (f : K → W → V) (t : Tree K W) : (fromShape f t).keys = t.keys := by
  induction t with
  | empty => rfl
  | leaf key data => rfl
  | branch p m t0 t1 ih0 ih1 => rw [fromShape,keys,ih0,ih1,keys]

theorem fromShape_eq_empty {f : K → W → V} {t : Tree K W} : fromShape f t = empty ↔ t = empty := by
  cases t <;> simp [fromShape]

theorem fromShape_spec (f : K → W → V) {t : Tree K W} (hc : t.Canonical) :
    (fromShape f t).Canonical ∧ ∀ k, (fromShape f t).find k = (t.find k).map (f k) := by
  induction t with
  | empty => exact ⟨trivial,fun _ => rfl⟩
  | leaf key data =>
    refine ⟨trivial,fun k => ?_⟩
    simp only [fromShape,find]
    split
    · next h => rw [h]; rfl
    · rfl
  | branch p m t0 t1 ih0 ih1 =>
    obtain ⟨i,hi,rfl,hp,h0,h1,hs0,hs1,hc0,hc1⟩ := canonical_branch_iff.mp hc
    obtain ⟨hcan0,hf0⟩ := ih0 hc0
    obtain ⟨hcan1,hf1⟩ := ih1 hc1
    have hk0 : (fromShape f t0).Side p i false := hs0.mono fun k hk => by rwa [keys_fromShape] at hk
    have hk1 : (fromShape f t1).Side p i true := hs1.mono fun k hk => by rwa [keys_fromShape] at hk
    refine ⟨branch_canonical hi hp hcan0 hcan1 hk0 hk1 ?_ ?_,fun k => ?_⟩
    · rwa [ne_eq,fromShape_eq_empty]
    · rwa [ne_eq,fromShape_eq_empty]
    · rw [fromShape,find_branch_twoPow hi,find_branch_twoPow hi,hf0,hf1]
      split <;> rfl

theorem endoMap_eq_fromShape (f : K → V → V) (t : Tree K V) : endoMap f t = fromShape f t := by
  induction t with
  | empty => rfl
  | leaf key data =>
    rw [endoMap,fromShape]
    split
    · next h => rw [← h]
    · rfl
  | branch p m t0 t1 ih0 ih1 =>
    rw [endoMap,fromShape,ih0,ih1]
    split
    · next h => rw [h.1,h.2]
    · rfl

theorem map_eq_fromShape (f : V → V) (t : Tree K V) : map f t = fromShape (fun _ => f) t := by
  rw [← endoMap_eq_fromShape]
  induction t with
  | empty => rfl
  | leaf key data => rfl
  | branch p m t0 t1 ih0 ih1 => rw [map,endoMap,ih0,ih1]

theorem filter_eq_mapOpt (f : K → Bool) (t : Tree K V) :
    filter f t = mapOpt (fun k v => if f k then some v else none) t := by
  induction t with
  | empty => rfl
  | leaf key data =>
    rw [filter,mapOpt]
    cases f key with
    | false => rfl
    | true => simp
  | branch p m t0 t1 ih0 ih1 => rw [filter,mapOpt,ih0,ih1]

theorem mapOpt_spec (f : K → V → Option V) {t : Tree K V} (hc : t.Canonical) :
    (mapOpt f t).Canonical ∧ ∀ k, (mapOpt f t).find k = (t.find k).bind (f k) := by
  induction t with
  | empty => exact ⟨trivial,fun _ => rfl⟩
  | leaf key data =>
    have hleaf : mapOpt f (leaf key data) = ((f key data).map (leaf key)).getD empty := by
      rw [mapOpt]
      cases f key data with
      | none => rfl
      | some data' =>
        simp only [Option.map_some,Option.getD_some]
        split
        · next h => rw [h]
        · rfl
    rw [hleaf]
    cases hf : f key data with
    | none =>
      refine ⟨trivial,fun k => ?_⟩
      simp only [Option.map_none,Option.getD_none,find]
      split
      · next h => rw [h,Option.bind_some,hf]
      · rfl
    | some data' =>
      refine ⟨trivial,fun k => ?_⟩
      simp only [Option.map_some,Option.getD_some,find]
      split
      · next h => rw [h,Option.bind_some,hf]
      · rfl
  | branch p m t0 t1 ih0 ih1 =>
    obtain ⟨i,hi,rfl,hp,h0,h1,hs0,hs1,hc0,hc1⟩ := canonical_branch_iff.mp hc
    obtain ⟨hcan0,hf0⟩ := ih0 hc0
    obtain ⟨hcan1,hf1⟩ := ih1 hc1
    have hside0 := hs0.of_find (fun k hk => by rw [hf0,hk,Option.bind_none]) hcan0
    have hside1 := hs1.of_find (fun k hk => by rw [hf1,hk,Option.bind_none]) hcan1
    have hshape : mapOpt f (branch p (BitVec.twoPow _ i) t0 t1) =
        prune p (BitVec.twoPow _ i) (mapOpt f t0) (mapOpt f t1) := by
      rw [mapOpt]
      split
      · next h => rw [h.1,h.2,prune_eq_branch h0 h1]
      · rfl
    obtain ⟨hpc,hpf⟩ := prune_spec hi hp hcan0 hcan1 hside0 hside1
    rw [hshape]
    refine ⟨hpc,fun k => ?_⟩
    rw [hpf,find_branch hi hs0 hs1,hf0,hf1]
    cases hb : (Key.id k).getLsbD i with
    | false => simp [hs1.find_eq_none (k := k) (by rw [hb]; decide)]
    | true => simp [hs0.find_eq_none (k := k) (by rw [hb]; decide)]

end FramaC.Hptmap.Tree
