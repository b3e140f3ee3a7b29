import FramaC.Qed.Intmap.Union

/-! # Tests and enumerations

Inclusion, overlap and equality of canonical trees, and the order in which the bindings are visited.
-/
namespace FramaC.Qed.Intmap

open CommonPrefix

def Overlap {α β : Type} (phi : Key → α → β → Bool) (m : Key → Option α) (n : Key → Option β) : Prop :=
  ∃ k x y, m k = some x ∧ n k = some y ∧ phi k x y = true

def Included {α β : Type} (phi : Key → α → β → Bool) (m : Key → Option α) (n : Key → Option β) : Prop :=
  ∀ k x, m k = some x → ∃ y, n k = some y ∧ phi k x y = true

def SameBindings {α : Type} (eq : α → α → Bool) (m n : Key → Option α) : Prop :=
  ∀ k, (m k = none ∧ n k = none) ∨ ∃ x y, m k = some x ∧ n k = some y ∧ eq x y = true

section maps

variable {α β : Type} (phi : Key → α → β → Bool) {m0 m1 : Key → Option α} {n0 n1 : Key → Option β}
  (h : ∀ k, (m0 k = none ∧ n0 k = none) ∨ (m1 k = none ∧ n1 k = none))

include h

theorem overlap_or : Overlap phi (fun k => (m0 k).or (m1 k)) (fun k => (n0 k).or (n1 k)) ↔
    Overlap phi m0 n0 ∨ Overlap phi m1 n1 := by
  constructor
  · rintro ⟨k,x,y,hx,hy,hphi⟩
    obtain ⟨hm,hn⟩ | ⟨hm,hn⟩ := h k
    · simp only [hm,Option.none_or] at hx
      simp only [hn,Option.none_or] at hy
      exact Or.inr ⟨k,x,y,hx,hy,hphi⟩
    · simp only [hm,Option.or_none] at hx
      simp only [hn,Option.or_none] at hy
      exact Or.inl ⟨k,x,y,hx,hy,hphi⟩
  · rintro (⟨k,x,y,hx,hy,hphi⟩ | ⟨k,x,y,hx,hy,hphi⟩)
    · exact ⟨k,x,y,by simp [hx],by simp [hy],hphi⟩
    · obtain ⟨hm,hn⟩ | ⟨hm,hn⟩ := h k
      · exact ⟨k,x,y,by simp [hm,hx],by simp [hn,hy],hphi⟩
      · rw [hm] at hx
        cases hx

theorem included_or : Included phi (fun k => (m0 k).or (m1 k)) (fun k => (n0 k).or (n1 k)) ↔
    Included phi m0 n0 ∧ Included phi m1 n1 := by
  constructor
  · intro hinc
    constructor
    · intro k x hx
      obtain ⟨hm,hn⟩ | ⟨hm,hn⟩ := h k
      · rw [hm] at hx
        cases hx
      · obtain ⟨y,hy,hphi⟩ := hinc k x (by simp [hx])
        simp only [hn,Option.or_none] at hy
        exact ⟨y,hy,hphi⟩
    · intro k x hx
      obtain ⟨hm,hn⟩ | ⟨hm,hn⟩ := h k
      · obtain ⟨y,hy,hphi⟩ := hinc k x (by simp [hm,hx])
        simp only [hn,Option.none_or] at hy
        exact ⟨y,hy,hphi⟩
      · rw [hm] at hx
        cases hx
  · rintro ⟨h0,h1⟩ k x hx
    obtain ⟨hm,hn⟩ | ⟨hm,hn⟩ := h k
    · simp only [hm,Option.none_or] at hx
      obtain ⟨y,hy,hphi⟩ := h1 k x hx
      exact ⟨y,by simp [hn,hy],hphi⟩
    · simp only [hm,Option.or_none] at hx
      obtain ⟨y,hy,hphi⟩ := h0 k x hx
      exact ⟨y,by simp [hy],hphi⟩

end maps

theorem not_overlap_none {α β : Type} (phi : Key → α → β → Bool) (m : Key → Option α) :
    ¬ Overlap phi m fun _ => none := by
  rintro ⟨k,x,y,hx,hy,hphi⟩
  cases hy

theorem not_overlap_none_left {α β : Type} (phi : Key → α → β → Bool) (n : Key → Option β) :
    ¬ Overlap phi (fun _ => none) n := by
  rintro ⟨k,x,y,hx,hy,hphi⟩
  cases hx

theorem included_none_left {α β : Type} (phi : Key → α → β → Bool) (n : Key → Option β) :
    Included phi (fun _ => none) n := by
  intro k x hx
  cases hx

theorem SameBindings.bound {α : Type} {eq : α → α → Bool} {m n : Key → Option α} (h : SameBindings eq m n) {k : Key} {x : α}
    (hx : m k = some x) : ∃ y, n k = some y ∧ eq x y = true := by
  obtain ⟨hm,hn⟩ | ⟨x',y,hm,hn,heq⟩ := h k
  · rw [hm] at hx
    cases hx
  · rw [hm] at hx
    cases hx
    exact ⟨y,hn,heq⟩

theorem SameBindings.bound_left {α : Type} {eq : α → α → Bool} {m n : Key → Option α} (h : SameBindings eq m n) {k : Key} {y : α}
    (hy : n k = some y) : ∃ x, m k = some x := by
  obtain ⟨hm,hn⟩ | ⟨x,y',hm,hn,heq⟩ := h k
  · rw [hn] at hy
    cases hy
  · exact ⟨x,hm⟩

namespace Tree

variable {α β : Type}

theorem mem_eq (k : Key) (t : Tree α) : mem k t = (find k t).isSome := by
  induction t with
  | empty => rfl
  | lf i x =>
    rw [mem,find_lf]
    by_cases hk : k = i
    · simp [hk]
    · simp [hk,Ne.symm hk]
  | br p t0 t1 ih0 ih1 =>
    rw [mem,find_br,ih0,ih1]
    by_cases hm : matchPrefix k p = true
    · rw [hm,Bool.true_and,if_pos rfl]
      split <;> rfl
    · simp [hm]

theorem not_included_empty (phi : Key → α → β → Bool) {s : Tree α} (hs : s.Canonical) (hne : s ≠ empty) :
    ¬ Included phi (find · s) fun _ => none := by
  intro hinc
  obtain ⟨k,x,hk⟩ := exists_find hs hne
  obtain ⟨y,hy,hphi⟩ := hinc k x hk
  cases hy

theorem Children.two_keys {p : Key} {i : ℕ} {t0 t1 : Tree α} (h : Children p i t0 t1) :
    ∃ k0 x0 k1 x1, find k0 (br p t0 t1) = some x0 ∧ find k1 (br p t0 t1) = some x1 ∧ k0 ≠ k1 := by
  obtain ⟨k0,x0,hk0⟩ := exists_find h.canonical0 h.ne0
  obtain ⟨k1,x1,hk1⟩ := exists_find h.canonical1 h.ne1
  have hr0 := h.region0 k0 x0 hk0
  have hr1 := h.region1 k1 x1 hk1
  refine ⟨k0,x0,k1,x1,?_,?_,?_⟩
  · rw [h.find_eq,hk0]
    rfl
  · rw [h.find_eq,h.region0.eq_none (by omega),hk1]
    rfl
  · rintro rfl
    omega

section pairs

variable {p : Key} {i : ℕ} {s0 s1 : Tree α} {q : Key} {j : ℕ} {t0 t1 : Tree β} (hs : Children p i s0 s1)
  (ht : Children q j t0 t1)

theorem Children.find_fun (hs : Children p i s0 s1) : (find · (br p s0 s1)) = fun k => (find k s0).or (find k s1) := by
  funext k
  exact hs.find_eq k

include hs ht

theorem inside_left_split (hinc : includedPrefix p q = true) (hz : zeroBit q p = true) (k : Key) :
    (find k s0 = none ∧ find k (br q t0 t1) = none) ∨ (find k s1 = none ∧ (none : Option β) = none) :=
  none_of_regions (by omega) hs.region0 hs.region1 ((hs.included ht hinc).1 hz) (region_none i _) k

theorem inside_right_split (hinc : includedPrefix p q = true) (hz : ¬ zeroBit q p = true) (k : Key) :
    (find k s0 = none ∧ (none : Option β) = none) ∨ (find k s1 = none ∧ find k (br q t0 t1) = none) :=
  none_of_regions (by omega) hs.region0 hs.region1 (region_none i _) ((hs.included ht hinc).2 hz) k

end pairs

theorem intersectf_empty_right (phi : Key → α → β → Bool) (s : Tree α) : intersectf phi s empty = false := by
  cases s with
  | empty => rw [intersectf]
  | lf i x => rw [intersectf]; simp
  | br p s0 s1 => rw [intersectf]; simp

theorem elim_iff (f : α → Bool) (o : Option α) : o.elim false f = true ↔ ∃ y, o = some y ∧ f y = true := by
  cases o with
  | none => simp
  | some y => simp

theorem overlap_lf_left (phi : Key → α → β → Bool) (i : Key) (x : α) (n : Key → Option β) :
    Overlap phi (find · (lf i x)) n ↔ ∃ y, n i = some y ∧ phi i x y = true := by
  constructor
  · rintro ⟨k,x',y,hx,hy,hphi⟩
    simp only [find_lf] at hx
    split at hx
    · rename_i hk
      cases hx
      subst hk
      exact ⟨y,hy,hphi⟩
    · cases hx
  · rintro ⟨y,hy,hphi⟩
    exact ⟨i,x,y,find_lf_self i x,hy,hphi⟩

theorem overlap_lf_right (phi : Key → α → β → Bool) (j : Key) (y : β) (m : Key → Option α) :
    Overlap phi m (find · (lf j y)) ↔ ∃ x, m j = some x ∧ phi j x y = true := by
  constructor
  · rintro ⟨k,x,y',hx,hy,hphi⟩
    simp only [find_lf] at hy
    split at hy
    · rename_i hk
      cases hy
      subst hk
      exact ⟨x,hx,hphi⟩
    · cases hy
  · rintro ⟨x,hx,hphi⟩
    exact ⟨j,x,y,hx,find_lf_self j y,hphi⟩

theorem intersectf_iff (phi : Key → α → β → Bool) {s : Tree α} {t : Tree β} (hs : s.Canonical) (ht : t.Canonical) :
    intersectf phi s t = true ↔ Overlap phi (find · s) (find · t) := by
  refine pair_induction (motive := fun s t => intersectf phi s t = true ↔ Overlap phi (find · s) (find · t))
    ?emptyLeft ?emptyRight ?leaves ?leafLeft ?leafRight ?same ?insideLeft ?insideRight ?outside s t hs ht
  case emptyLeft =>
    intro t ht
    rw [intersectf]
    exact iff_of_false (by simp) (not_overlap_none_left phi _)
  case emptyRight =>
    intro s hs
    rw [intersectf_empty_right]
    exact iff_of_false (by simp) (not_overlap_none phi _)
  case leaves =>
    intro i x j y
    rw [intersectf,overlap_lf_left]
    by_cases hij : i = j
    · subst hij
      rw [if_pos rfl,find_lf_self]
      simp
    · rw [if_neg hij,find_lf_ne _ hij]
      simp
  case leafLeft =>
    intro i x q j t0 t1 ht ih0 ih1
    rw [intersectf,overlap_lf_left,elim_iff]
  case leafRight =>
    intro j y p i s0 s1 hs ih0 ih1
    rw [intersectf,overlap_lf_right,elim_iff]
  case same =>
    intro p i s0 s1 t0 t1 hs ht ih0 ih1
    rw [intersectf,if_pos rfl,Bool.or_eq_true,ih0,ih1,hs.find_fun,ht.find_fun]
    exact (overlap_or phi (none_of_regions (by omega) hs.region0 hs.region1 ht.region0 ht.region1)).symm
  case insideLeft =>
    intro p i s0 s1 q j t0 t1 hs ht hne hinc ih0 ih1
    rw [intersectf,if_neg hne,if_pos hinc,hs.find_fun]
    by_cases hz : zeroBit q p = true
    · have hor := overlap_or phi (inside_left_split hs ht hinc hz)
      simp only [Option.or_none] at hor
      rw [if_pos hz,ih0,hor,or_iff_left (not_overlap_none phi _)]
    · have hor := overlap_or phi (inside_right_split hs ht hinc hz)
      simp only [Option.none_or] at hor
      rw [if_neg hz,ih1,hor,or_iff_right (not_overlap_none phi _)]
  case insideRight =>
    intro p i s0 s1 q j t0 t1 hs ht hne hinc hinc' ih0 ih1
    rw [intersectf,if_neg hne,if_neg hinc,if_pos hinc',ht.find_fun]
    by_cases hz : zeroBit p q = true
    · have hor := overlap_or phi (fun k => (inside_left_split ht hs hinc' hz k).imp And.symm And.symm)
      simp only [Option.or_none] at hor
      rw [if_pos hz,ih0,hor,or_iff_left (not_overlap_none_left phi _)]
    · have hor := overlap_or phi (fun k => (inside_right_split ht hs hinc' hz k).imp And.symm And.symm)
      simp only [Option.none_or] at hor
      rw [if_neg hz,ih1,hor,or_iff_right (not_overlap_none_left phi _)]
  case outside =>
    intro p i s0 s1 q j t0 t1 hs ht hne hinc hinc'
    rw [intersectf,if_neg hne,if_neg hinc,if_neg hinc']
    refine iff_of_false (by simp) ?_
    rintro ⟨k,x,y,hx,hy,hphi⟩
    obtain h | h := (hs.apart_of_not_included ht hne hinc hinc').none_or k
    · exact absurd (h.symm.trans hx) (Option.some_ne_none x).symm
    · exact absurd (h.symm.trans hy) (Option.some_ne_none y).symm

theorem included_lf_left (phi : Key → α → β → Bool) (i : Key) (x : α) (n : Key → Option β) :
    Included phi (find · (lf i x)) n ↔ ∃ y, n i = some y ∧ phi i x y = true := by
  constructor
  · intro h
    exact h i x (find_lf_self i x)
  · intro h k x' hx
    simp only [find_lf] at hx
    split at hx
    · rename_i hk
      cases hx
      subst hk
      exact h
    · cases hx

theorem subsetf_empty_right (phi : Key → α → β → Bool) {s : Tree α} (hne : s ≠ empty) : subsetf phi s empty = false := by
  cases s with
  | empty => exact absurd rfl hne
  | lf i x => rw [subsetf]; simp
  | br p s0 s1 => rw [subsetf]; simp

theorem subsetf_iff (phi : Key → α → β → Bool) {s : Tree α} {t : Tree β} (hs : s.Canonical) (ht : t.Canonical) :
    subsetf phi s t = true ↔ Included phi (find · s) (find · t) := by
  refine pair_induction (motive := fun s t => subsetf phi s t = true ↔ Included phi (find · s) (find · t))
    ?emptyLeft ?emptyRight ?leaves ?leafLeft ?leafRight ?same ?insideLeft ?insideRight ?outside s t hs ht
  case emptyLeft =>
    intro t ht
    rw [subsetf]
    exact iff_of_true rfl (included_none_left phi _)
  case emptyRight =>
    intro s hs
    by_cases hne : s = empty
    · subst hne
      rw [subsetf]
      exact iff_of_true rfl (included_none_left phi _)
    · rw [subsetf_empty_right phi hne]
      exact iff_of_false (by simp) (not_included_empty phi hs hne)
  case leaves =>
    intro i x j y
    rw [subsetf,included_lf_left]
    by_cases hij : i = j
    · subst hij
      rw [if_pos rfl,find_lf_self]
      simp
    · rw [if_neg hij,find_lf_ne _ hij]
      simp
  case leafLeft =>
    intro i x q j t0 t1 ht ih0 ih1
    rw [subsetf,included_lf_left,elim_iff]
  case leafRight =>
    intro j y p i s0 s1 hs ih0 ih1
    rw [subsetf]
    refine iff_of_false (by simp) ?_
    intro hinc
    obtain ⟨k0,x0,k1,x1,hk0,hk1,hne⟩ := hs.two_keys
    obtain ⟨y0,hy0,_⟩ := hinc k0 x0 hk0
    obtain ⟨y1,hy1,_⟩ := hinc k1 x1 hk1
    simp only [find_lf,Option.ite_none_right_eq_some] at hy0 hy1
    exact hne (hy0.1.trans hy1.1.symm)
  case same =>
    intro p i s0 s1 t0 t1 hs ht ih0 ih1
    rw [subsetf,if_pos rfl,Bool.and_eq_true,ih0,ih1,hs.find_fun,ht.find_fun]
    exact (included_or phi (none_of_regions (by omega) hs.region0 hs.region1 ht.region0 ht.region1)).symm
  case insideLeft =>
    intro p i s0 s1 q j t0 t1 hs ht hne hinc ih0 ih1
    rw [subsetf,if_neg hne,if_pos hinc,hs.find_fun]
    refine iff_of_false (by simp) ?_
    intro h
    by_cases hz : zeroBit q p = true
    · have hor := included_or phi (inside_left_split hs ht hinc hz)
      simp only [Option.or_none] at hor
      exact not_included_empty phi hs.canonical1 hs.ne1 (hor.1 h).2
    · have hor := included_or phi (inside_right_split hs ht hinc hz)
      simp only [Option.none_or] at hor
      exact not_included_empty phi hs.canonical0 hs.ne0 (hor.1 h).1
  case insideRight =>
    intro p i s0 s1 q j t0 t1 hs ht hne hinc hinc' ih0 ih1
    rw [subsetf,if_neg hne,if_neg hinc,if_pos hinc',ht.find_fun]
    by_cases hz : zeroBit p q = true
    · have hor := included_or phi (fun k => (inside_left_split ht hs hinc' hz k).imp And.symm And.symm)
      simp only [Option.or_none] at hor
      rw [if_pos hz,ih0,hor,and_iff_left (included_none_left phi _)]
    · have hor := included_or phi (fun k => (inside_right_split ht hs hinc' hz k).imp And.symm And.symm)
      simp only [Option.none_or] at hor
      rw [if_neg hz,ih1,hor,and_iff_right (included_none_left phi _)]
  case outside =>
    intro p i s0 s1 q j t0 t1 hs ht hne hinc hinc'
    rw [subsetf,if_neg hne,if_neg hinc,if_neg hinc']
    refine iff_of_false (by simp) ?_
    intro h
    obtain ⟨k,x,hk⟩ := exists_find hs.canonical (by simp)
    obtain ⟨y,hy,_⟩ := h k x hk
    obtain hn | hn := (hs.apart_of_not_included ht hne hinc hinc').none_or k
    · exact absurd (hn.symm.trans hk) (Option.some_ne_none x).symm
    · exact absurd (hn.symm.trans hy) (Option.some_ne_none y).symm

theorem Children.exists_outside {p : Key} {i u : ℕ} {t0 t1 : Tree α} (h : Children p i t0 t1) {n : Key → Option β}
    (hn : InRegion i u n) : ∃ k x, find k (br p t0 t1) = some x ∧ n k = none := by
  obtain ⟨k0,x0,hk0⟩ := exists_find h.canonical0 h.ne0
  obtain ⟨k1,x1,hk1⟩ := exists_find h.canonical1 h.ne1
  have hr0 := h.region0 k0 x0 hk0
  have hr1 := h.region1 k1 x1 hk1
  by_cases hu : k0.toNat / 2 ^ i = u
  · refine ⟨k1,x1,?_,hn.eq_none (by omega)⟩
    rw [h.find_eq,h.region0.eq_none (by omega),hk1]
    rfl
  · refine ⟨k0,x0,?_,hn.eq_none hu⟩
    rw [h.find_eq,hk0]
    rfl

theorem Children.exists_region {p : Key} {i : ℕ} {s0 s1 : Tree α} {q : Key} {j : ℕ} {t0 t1 : Tree β}
    (hs : Children p i s0 s1) (ht : Children q j t0 t1) (hinc : includedPrefix p q = true) :
    ∃ u, InRegion i u (find · (br q t0 t1)) := by
  obtain ⟨hzero,hone⟩ := hs.included ht hinc
  by_cases hz : zeroBit q p = true
  · exact ⟨_,hzero hz⟩
  · exact ⟨_,hone hz⟩

theorem equal_of_sameBindings (sh : Sharing α) (eq : α → α → Bool) {s t : Tree α} (hs : s.Canonical) (ht : t.Canonical)
    (h : SameBindings eq (find · s) (find · t)) : equal sh eq s t = true := by
  revert h
  refine pair_induction (motive := fun s t => SameBindings eq (find · s) (find · t) → equal sh eq s t = true)
    ?emptyLeft ?emptyRight ?leaves ?leafLeft ?leafRight ?same ?insideLeft ?insideRight ?outside s t hs ht
  case emptyLeft =>
    intro t ht h
    have hempty : t = empty := by
      by_contra hne
      obtain ⟨k,y,hk⟩ := exists_find ht hne
      obtain ⟨x,hx⟩ := h.bound_left hk
      cases hx
    rw [hempty,equal]
  case emptyRight =>
    intro s hs h
    have hempty : s = empty := by
      by_contra hne
      obtain ⟨k,x,hk⟩ := exists_find hs hne
      obtain ⟨y,hy,_⟩ := h.bound hk
      cases hy
    rw [hempty,equal]
  case leaves =>
    intro i x j y h
    obtain ⟨y',hy,heq⟩ := h.bound (find_lf_self i x)
    simp only [find_lf,Option.ite_none_right_eq_some] at hy
    obtain ⟨hij,hyy⟩ := hy
    cases hyy
    rw [equal]
    simp [hij,heq]
  case leafLeft =>
    intro i x q j t0 t1 ht ih0 ih1 h
    obtain ⟨k0,x0,k1,x1,hk0,hk1,hne⟩ := ht.two_keys
    obtain ⟨y0,hy0⟩ := h.bound_left hk0
    obtain ⟨y1,hy1⟩ := h.bound_left hk1
    simp only [find_lf,Option.ite_none_right_eq_some] at hy0 hy1
    exact absurd (hy0.1.trans hy1.1.symm) hne
  case leafRight =>
    intro j y p i s0 s1 hs ih0 ih1 h
    obtain ⟨k0,x0,k1,x1,hk0,hk1,hne⟩ := hs.two_keys
    obtain ⟨y0,hy0,_⟩ := h.bound hk0
    obtain ⟨y1,hy1,_⟩ := h.bound hk1
    simp only [find_lf,Option.ite_none_right_eq_some] at hy0 hy1
    exact absurd (hy0.1.trans hy1.1.symm) hne
  case same =>
    intro p i s0 s1 t0 t1 hs ht ih0 ih1 h
    have hsplit := none_of_regions (by omega) hs.region0 hs.region1 ht.region0 ht.region1
    rw [hs.find_fun,ht.find_fun] at h
    have h0 : SameBindings eq (find · s0) (find · t0) := by
      intro k
      obtain hn | ⟨hm,hn⟩ := hsplit k
      · exact Or.inl hn
      · simpa only [hm,hn,Option.or_none] using h k
    have h1 : SameBindings eq (find · s1) (find · t1) := by
      intro k
      obtain ⟨hm,hn⟩ | hn := hsplit k
      · simpa only [hm,hn,Option.none_or] using h k
      · exact Or.inl hn
    rw [equal,ih0 h0,ih1 h1]
    simp
  case insideLeft =>
    intro p i s0 s1 q j t0 t1 hs ht hne hinc ih0 ih1 h
    obtain ⟨u,hu⟩ := hs.exists_region ht hinc
    obtain ⟨k,x,hk,hn⟩ := hs.exists_outside hu
    obtain ⟨y,hy,_⟩ := h.bound hk
    exact absurd (hn.symm.trans hy) (Option.some_ne_none y).symm
  case insideRight =>
    intro p i s0 s1 q j t0 t1 hs ht hne hinc hinc' ih0 ih1 h
    obtain ⟨u,hu⟩ := ht.exists_region hs hinc'
    obtain ⟨k,y,hk,hn⟩ := ht.exists_outside hu
    obtain ⟨x,hx⟩ := h.bound_left hk
    exact absurd (hn.symm.trans hx) (Option.some_ne_none x).symm
  case outside =>
    intro p i s0 s1 q j t0 t1 hs ht hne hinc hinc' h
    obtain ⟨k,x,hk⟩ := exists_find hs.canonical (by simp)
    obtain ⟨y,hy,_⟩ := h.bound hk
    obtain hn | hn := (hs.apart_of_not_included ht hne hinc hinc').none_or k
    · exact absurd (hn.symm.trans hk) (Option.some_ne_none x).symm
    · exact absurd (hn.symm.trans hy) (Option.some_ne_none y).symm

section order

variable {σ : Type}

def increasing : Tree α → List (Key × α)
  | br p t0 t1 => if p = maxInt then t1.bindings ++ t0.bindings else t0.bindings ++ t1.bindings
  | t => t.bindings

theorem foldAux_eq (phi : Key → α → σ → σ) (t : Tree α) (e : σ) :
    foldAux phi t e = t.bindings.foldl (fun e b => phi b.1 b.2 e) e := by
  induction t generalizing e with
  | empty => rfl
  | lf k x => rfl
  | br p t0 t1 ih0 ih1 => rw [foldAux,ih0,ih1,bindings,List.foldl_append]

theorem foldi_eq (phi : Key → α → σ → σ) (t : Tree α) (e : σ) :
    foldi phi t e = t.increasing.foldl (fun e b => phi b.1 b.2 e) e := by
  cases t with
  | empty => rfl
  | lf k x => rfl
  | br p t0 t1 =>
    rw [foldi,increasing]
    split
    · rw [foldAux_eq,foldAux_eq,List.foldl_append]
    · rw [foldAux_eq,foldAux_eq,List.foldl_append]

theorem iterAux_eq (phi : Key → α → σ → σ) (t : Tree α) : iterAux phi t = foldAux phi t := by
  induction t with
  | empty => rfl
  | lf k x => rfl
  | br p t0 t1 ih0 ih1 =>
    funext e
    rw [iterAux,ih0,ih1]
    rfl

theorem iteri_eq (phi : Key → α → σ → σ) (t : Tree α) : iteri phi t = foldi phi t := by
  cases t with
  | empty => rfl
  | lf k x => rfl
  | br p t0 t1 =>
    funext e
    rw [iteri,foldi,iterAux_eq,iterAux_eq]
    split
    · rfl
    · rfl

theorem mem_increasing (t : Tree α) (b : Key × α) : b ∈ t.increasing ↔ b ∈ t.bindings := by
  cases t with
  | empty => rfl
  | lf k x => rfl
  | br p t0 t1 =>
    rw [increasing,bindings]
    split
    · rw [List.mem_append,List.mem_append,or_comm]
    · rfl

theorem bindings_region {t : Tree α} (ht : t.Canonical) {i u : ℕ} (h : InRegion i u (find · t)) {b : Key × α}
    (hb : b ∈ t.bindings) : b.1.toNat / 2 ^ i = u := h b.1 b.2 (find_of_mem_bindings ht hb)

theorem bindings_pairwise {t : Tree α} (ht : t.Canonical) :
    t.bindings.Pairwise fun a b => a.1.toNat < b.1.toNat := by
  induction t with
  | empty => exact List.Pairwise.nil
  | lf k x => exact List.pairwise_singleton _ _
  | br p t0 t1 ih0 ih1 =>
    obtain ⟨i,hc⟩ := children_of_canonical ht
    rw [bindings,List.pairwise_append]
    refine ⟨ih0 hc.canonical0,ih1 hc.canonical1,?_⟩
    intro a ha b hb
    have hra := bindings_region hc.canonical0 hc.region0 ha
    have hrb := bindings_region hc.canonical1 hc.region1 hb
    apply lt_of_div_lt (k := i)
    omega

theorem toInt_lt_of_same_sign {a b : Key} (h : a.toNat / 2 ^ 62 = b.toNat / 2 ^ 62) (hlt : a.toNat < b.toNat) :
    a.toInt < b.toInt := by
  rw [BitVec.toInt_eq_toNat_cond,BitVec.toInt_eq_toNat_cond]
  split <;> split <;> omega

theorem toInt_lt_of_signs {a b : Key} (ha : a.toNat / 2 ^ 62 = 1) (hb : b.toNat / 2 ^ 62 = 0) : a.toInt < b.toInt := by
  have hlt := a.isLt
  rw [BitVec.toInt_eq_toNat_cond,BitVec.toInt_eq_toNat_cond]
  split <;> split <;> omega

theorem lowestZero_maxInt : LowestZero maxInt 62 := by
  refine ⟨by decide,by decide,?_⟩
  have hall : ∀ j : Fin 62, maxInt.getLsbD j = true := by decide
  intro j hj
  exact hall ⟨j,hj⟩

theorem increasing_pairwise {t : Tree α} (ht : t.Canonical) : t.increasing.Pairwise fun a b => a.1.toInt < b.1.toInt := by
  cases t with
  | empty => exact List.Pairwise.nil
  | lf k x => exact List.pairwise_singleton _ _
  | br p t0 t1 =>
    obtain ⟨i,hc⟩ := children_of_canonical ht
    have hnat := bindings_pairwise ht
    rw [bindings] at hnat
    rw [increasing]
    by_cases hp : p = maxInt
    · -- the branch splits on the sign: the negative keys are on the right
      subst hp
      have hi := hc.lowest.unique lowestZero_maxInt
      subst hi
      have hzero : maxInt.toNat / 2 ^ (62 + 1) = 0 := by decide
      have h0 : ∀ b ∈ t0.bindings, b.1.toNat / 2 ^ 62 = 0 := by
        intro b hb
        have hr := bindings_region hc.canonical0 hc.region0 hb
        rw [hzero] at hr
        exact hr
      have h1 : ∀ b ∈ t1.bindings, b.1.toNat / 2 ^ 62 = 1 := by
        intro b hb
        have hr := bindings_region hc.canonical1 hc.region1 hb
        rw [hzero] at hr
        exact hr
      obtain ⟨hp0,hp1,_⟩ := List.pairwise_append.1 hnat
      rw [if_pos rfl,List.pairwise_append]
      refine ⟨?_,?_,?_⟩
      · apply hp1.imp_of_mem
        intro a b ha hb hlt
        exact toInt_lt_of_same_sign ((h1 a ha).trans (h1 b hb).symm) hlt
      · apply hp0.imp_of_mem
        intro a b ha hb hlt
        exact toInt_lt_of_same_sign ((h0 a ha).trans (h0 b hb).symm) hlt
      · intro a ha b hb
        exact toInt_lt_of_signs (h1 a ha) (h0 b hb)
    · have hi : i + 1 ≤ 62 := by
        by_contra hle
        have hi63 := hc.lowest.1
        have hi : i = 62 := by omega
        subst hi
        apply hp
        apply hc.lowest.ext lowestZero_maxInt
        have hlt := p.isLt
        rw [Nat.div_eq_of_lt (by omega),Nat.div_eq_of_lt (maxInt.isLt)]
      have hsign : ∀ b ∈ t0.bindings ++ t1.bindings, b.1.toNat / 2 ^ 62 = p.toNat / 2 ^ 62 := by
        intro b hb
        exact bindings_region ht (hc.region.mono hi rfl) hb
      rw [if_neg hp]
      apply hnat.imp_of_mem
      intro a b ha hb hlt
      exact toInt_lt_of_same_sign ((hsign a ha).trans (hsign b hb).symm) hlt

end order

end Tree

end FramaC.Qed.Intmap
