import FramaC.Offsetmap.Canonical

/-! # Tilings and clipped segments

The segments of a tree tile its range. Clipping a list of segments to a range realigns the
segment that the lower bound cuts; it does not see how segments were glued outside the range.
-/
namespace FramaC.Offsetmap
open OffsetmapLattice Pivot
variable {V : Type}

/-- The segments are not empty, contiguous, in order, and cover `[lo..hi]`. -/
def Tiles (lo hi : ℤ) : List (Seg V) → Prop
  | [] => hi = lo - 1
  | s :: l => s.lo = lo ∧ s.lo ≤ s.hi ∧ Tiles (s.hi + 1) hi l

section Tilings
variable {lo m hi : ℤ} {l l' : List (Seg V)}

theorem Tiles.append (h : Tiles lo m l) (h' : Tiles (m + 1) hi l') : Tiles lo hi (l ++ l') := by
  induction l generalizing lo with
  | nil =>
    obtain rfl : lo = m + 1 := by
      have : m = lo - 1 := h
      omega
    exact h'
  | cons s l ih =>
    obtain ⟨h1,h2,h3⟩ := h
    exact ⟨h1,h2,ih h3⟩

theorem Tiles.le (h : Tiles lo hi l) : lo ≤ hi + 1 := by
  induction l generalizing lo with
  | nil =>
    have : hi = lo - 1 := h
    omega
  | cons s l ih =>
    obtain ⟨h1,h2,h3⟩ := h
    have := ih h3
    omega

theorem Tiles.mem (h : Tiles lo hi l) {s : Seg V} (hs : s ∈ l) : lo ≤ s.lo ∧ s.lo ≤ s.hi ∧ s.hi ≤ hi := by
  induction l generalizing lo with
  | nil => simp at hs
  | cons t l ih =>
    obtain ⟨h1,h2,h3⟩ := h
    have hle := h3.le
    rcases List.mem_cons.mp hs with rfl | hs
    · omega
    · have := ih h3 hs
      omega

theorem Tiles.split (h : Tiles lo hi (l ++ l')) : ∃ m, Tiles lo m l ∧ Tiles (m + 1) hi l' := by
  induction l generalizing lo with
  | nil => exact ⟨lo - 1,rfl,by rwa [sub_add_cancel]⟩
  | cons s l ih =>
    obtain ⟨h1,h2,h3⟩ := h
    obtain ⟨m,h4,h5⟩ := ih h3
    exact ⟨m,⟨h1,h2,h4⟩,h5⟩

theorem Tiles.unique {lo' hi' : ℤ} (h : Tiles lo hi l) (h' : Tiles lo' hi' l) (hne : l ≠ []) :
    lo = lo' ∧ hi = hi' := by
  induction l generalizing lo lo' with
  | nil => exact absurd rfl hne
  | cons s l ih =>
    obtain ⟨rfl,h2,h3⟩ := h
    obtain ⟨rfl,h2',h3'⟩ := h'
    refine ⟨rfl,?_⟩
    cases l with
    | nil => exact h3.trans h3'.symm
    | cons t l => exact (ih h3 h3' (by simp)).2

theorem tiles_newSeg [OffsetmapLattice V] (h : lo ≤ hi) (rem modu : ℤ) (v : V) :
    Tiles lo hi [newSeg lo hi rem modu v] := by
  refine ⟨newSeg_lo ..,by simpa using h,?_⟩
  show hi = (newSeg lo hi rem modu v).hi + 1 - 1
  simp

theorem Shape.tiles {o : ℤ} {t : Offsetmap V} (h : Shape lo hi o t) : Tiles lo hi (segs o t) := by
  induction t generalizing lo hi o with
  | empty => exact h.2
  | node max offl subl offr subr rem modu v ihl ihr =>
    obtain ⟨hmax,hl,hr,_⟩ := h
    refine (ihl hl).append ⟨?_,?_,ihr hr⟩
    · show o = o - 1 + 1
      omega
    · show o ≤ o + max
      omega

end Tilings

theorem realign_self {o rem modu : ℤ} (h : 0 ≤ rem) (h' : rem < modu) : realign o o rem modu = rem := by
  rw [realign,sub_self,zero_add,Int.emod_eq_of_lt h h']

theorem realign_realign (a b c rem modu : ℤ) : realign b c (realign a b rem modu) modu = realign a c rem modu := by
  rw [realign,realign,realign,Int.add_emod_emod]
  congr 1
  ring

theorem realign_congr {a b c rem rem' modu : ℤ} (h : modu ∣ b + rem' - (a + rem)) :
    realign a c rem modu = realign b c rem' modu := by
  rw [realign,realign]
  apply Int.emod_eq_emod_iff_emod_sub_eq_zero.mpr
  apply Int.emod_eq_zero_of_dvd
  have : a - c + rem - (b - c + rem') = -(b + rem' - (a + rem)) := by ring
  rw [this]
  exact h.neg_right

/-- The part of a segment that lies in `[a..b]`. -/
def Seg.clip (a b : ℤ) (s : Seg V) : Option (Seg V) :=
  if max a s.lo ≤ min b s.hi then
    some ⟨max a s.lo,min b s.hi,realign s.lo (max a s.lo) s.rem s.modu,s.modu,s.v⟩
  else none

/-- The segments of `[a..b]`. -/
def clip (a b : ℤ) (l : List (Seg V)) : List (Seg V) := l.filterMap (Seg.clip a b)

section Clipping
variable {a b : ℤ} {l l' : List (Seg V)}

theorem clip_append (a b : ℤ) (l l' : List (Seg V)) : clip a b (l ++ l') = clip a b l ++ clip a b l' :=
  List.filterMap_append

theorem Seg.clip_none {s : Seg V} (h : s.hi < a ∨ b < s.lo) : s.clip a b = none := by
  apply if_neg
  omega

theorem clip_cons_none {s : Seg V} (h : s.hi < a ∨ b < s.lo) : clip a b (s :: l) = clip a b l := by
  rw [clip,List.filterMap_cons_none (Seg.clip_none h),clip]

theorem clip_cons_some {s : Seg V} (h1 : s.lo ≤ s.hi) (h2 : s.lo ≤ b) (h3 : a ≤ s.hi) (hab : a ≤ b) :
    clip a b (s :: l) =
      ⟨max a s.lo,min b s.hi,realign s.lo (max a s.lo) s.rem s.modu,s.modu,s.v⟩ :: clip a b l := by
  apply List.filterMap_cons_some
  apply if_pos
  omega

theorem clip_cons_congr {s s' : Seg V} (h : s.clip a b = s'.clip a b) : clip a b (s :: l) = clip a b (s' :: l) := by
  rw [clip,clip,List.filterMap_cons,List.filterMap_cons,h]

theorem clip_eq_nil (h : ∀ s ∈ l, s.hi < a ∨ b < s.lo) : clip a b l = [] := by
  apply List.filterMap_eq_nil_iff.mpr
  intro s hs
  exact Seg.clip_none (h s hs)

theorem clip_of_lt (h : b < a) : clip a b l = [] := by
  apply List.filterMap_eq_nil_iff.mpr
  intro s _
  apply if_neg
  omega

theorem mem_clip {s : Seg V} (hs : s ∈ clip a b l) : ∃ t ∈ l, max a t.lo ≤ min b t.hi ∧
    s = ⟨max a t.lo,min b t.hi,realign t.lo (max a t.lo) t.rem t.modu,t.modu,t.v⟩ := by
  obtain ⟨t,ht,he⟩ := List.mem_filterMap.mp hs
  rw [Seg.clip] at he
  split at he
  · rename_i hle
    exact ⟨t,ht,hle,(Option.some.inj he).symm⟩
  · exact absurd he (by simp)

theorem Tiles.clip_left {lo hi : ℤ} (h : Tiles lo hi l) (hb : b < lo) : clip a b l = [] := by
  apply clip_eq_nil
  intro s hs
  have := h.mem hs
  omega

theorem Tiles.clip_right {lo hi : ℤ} (h : Tiles lo hi l) (ha : hi < a) : clip a b l = [] := by
  apply clip_eq_nil
  intro s hs
  have := h.mem hs
  omega

theorem clip_clip {a' b' : ℤ} (l : List (Seg V)) (ha : a' ≤ a) (hb : b ≤ b') :
    clip a b (clip a' b' l) = clip a b l := by
  rw [clip,clip,clip,List.filterMap_filterMap]
  apply List.filterMap_congr
  intro s _
  rw [Seg.clip.eq_def a' b']
  split
  · rw [Option.bind_some,Seg.clip,Seg.clip,realign_realign,← max_assoc,max_eq_left ha,← min_assoc,min_eq_left hb]
  · rename_i hlt
    rw [Option.bind_none,Seg.clip,if_neg (by omega)]

theorem Tiles.clip_lower {lo hi a' : ℤ} (h : Tiles lo hi l) (ha : a ≤ lo) (ha' : a' ≤ lo) :
    clip a b l = clip a' b l := by
  apply List.filterMap_congr
  intro s hs
  have := h.mem hs
  rw [Seg.clip,Seg.clip,max_eq_right (by omega),max_eq_right (by omega)]

theorem Tiles.clip_upper {lo hi b' : ℤ} (h : Tiles lo hi l) (hb : hi ≤ b) (hb' : hi ≤ b') :
    clip a b l = clip a b' l := by
  apply List.filterMap_congr
  intro s hs
  have := h.mem hs
  rw [Seg.clip,Seg.clip,min_eq_right (by omega),min_eq_right (by omega)]

theorem Tiles.clip {lo hi : ℤ} (h : Tiles lo hi l) (hlo : lo ≤ a) (hhi : b ≤ hi) (hab : a ≤ b + 1) :
    Tiles a b (Offsetmap.clip a b l) := by
  induction l generalizing lo a with
  | nil =>
    have : hi = lo - 1 := h
    show b = a - 1
    omega
  | cons s l ih =>
    obtain ⟨h1,h2,h3⟩ := h
    by_cases hs : s.hi < a
    · rw [clip_cons_none (.inl hs)]
      exact ih h3 (by omega) hab
    · by_cases hb : b < a
      · rw [clip_of_lt hb]
        show b = a - 1
        omega
      · rw [clip_cons_some h2 (by omega) (by omega) (by omega)]
        refine ⟨by simp; omega,by simp; omega,?_⟩
        by_cases hsb : s.hi ≤ b
        · rw [h3.clip_lower (by omega) le_rfl]
          show Tiles (min b s.hi + 1) b _
          rw [min_eq_right hsb]
          exact ih h3 le_rfl (by omega)
        · rw [h3.clip_left (by omega)]
          show b = min b s.hi + 1 - 1
          omega

end Clipping

section Alignment
variable [OffsetmapLattice V] {a b : ℤ} {l l' : List (Seg V)}

theorem Seg.Ok.clip {s : Seg V} (h : s.Ok) (a' b' : ℤ) :
    (⟨a',b',realign s.lo a' s.rem s.modu,s.modu,s.v⟩ : Seg V).Ok := by
  obtain ⟨h1,h2,h3⟩ := h
  refine ⟨Int.emod_nonneg _ (by omega),Int.emod_lt_of_pos _ (by omega),?_⟩
  intro hv
  obtain ⟨-,hm⟩ := h3 hv
  simp only [hm]
  exact ⟨Int.emod_one _,trivial⟩

theorem clip_ok (h : ∀ s ∈ l, s.Ok) : ∀ s ∈ clip a b l, s.Ok := by
  intro s hs
  obtain ⟨t,ht,-,rfl⟩ := mem_clip hs
  exact (h t ht).clip _ _

theorem Seg.clip_self {s : Seg V} (h : s.Ok) (hs : s.lo ≤ s.hi) (ha : a ≤ s.lo) (hb : s.hi ≤ b) :
    s.clip a b = some s := by
  rw [Seg.clip,max_eq_right ha,min_eq_right hb,if_pos hs,realign_self h.1 h.2.1]

theorem clip_self {lo hi : ℤ} (h : ∀ s ∈ l, s.Ok) (ht : Tiles lo hi l) (ha : a ≤ lo) (hb : hi ≤ b) :
    clip a b l = l := by
  rw [clip]
  refine (List.filterMap_congr ?_).trans List.filterMap_some
  intro s hs
  have := ht.mem hs
  exact Seg.clip_self (h s hs) this.2.1 (by omega) (by omega)

theorem dvd_realign (a b rem modu : ℤ) : modu ∣ b + realign a b rem modu - (a + rem) := by
  have h := Int.mul_ediv_add_emod (a - b + rem) modu
  refine ⟨-((a - b + rem) / modu),?_⟩
  rw [realign]
  linarith

end Alignment

section Gluing
variable [DecidableEq V] [OffsetmapLattice V] {a b lo m hi : ℤ} {s : Seg V} {l l' : List (Seg V)}

theorem Good.clip (h : Good l) (ht : Tiles lo hi l) (a b : ℤ) : Good (clip a b l) := by
  refine ⟨clip_ok h.1,?_⟩
  by_cases hab : b < a
  · rw [clip_of_lt hab]
    exact Glue.canonical_nil
  induction l generalizing lo with
  | nil => exact Glue.canonical_nil
  | cons s l ih =>
    obtain ⟨h1,h2,h3⟩ := ht
    have ih' := ih (Good.right (l := [s]) h) h3
    by_cases hs : s.hi < a ∨ b < s.lo
    · rwa [clip_cons_none hs]
    · rw [clip_cons_some h2 (by omega) (by omega) (by omega)]
      cases l with
      | nil => exact Glue.canonical_singleton _
      | cons t l =>
        obtain ⟨h4,h5,h6⟩ := h3
        by_cases htb : b < t.lo
        · rw [clip_cons_none (.inr htb),h6.clip_left (by omega)]
          exact Glue.canonical_singleton _
        · rw [clip_cons_some h5 (by omega) (by omega) (by omega)] at ih' ⊢
          refine List.isChain_cons_cons.mpr ⟨?_,ih'⟩
          have hst : s.mergeable t = false := (List.isChain_cons_cons.mp h.2).1
          have hok := h.1 s (by simp)
          have htok := h.1 t (by simp)
          rw [max_eq_right (show a ≤ t.lo by omega),realign_self htok.1 htok.2.1]
          refine Eq.trans ?_ hst
          exact (Seg.mergeable_congr hok (hok.clip _ _) rfl rfl (dvd_realign _ _ _ _) t).symm

theorem Tiles.cons_glue (h : Tiles lo hi (s :: l)) : Tiles lo hi (Glue.cons Seg.mergeable Seg.glue s l) := by
  cases l with
  | nil => exact h
  | cons t l =>
    rw [Glue.cons]
    split
    · obtain ⟨h1,h2,h3,h4,h5⟩ := h
      refine ⟨h1,?_,h5⟩
      show s.lo ≤ t.hi
      omega
    · exact h

theorem Tiles.foldr_glue (h : Tiles lo m l) (h' : Tiles (m + 1) hi l') :
    Tiles lo hi (l.foldr (Glue.cons Seg.mergeable Seg.glue) l') := by
  induction l generalizing lo with
  | nil =>
    obtain rfl : lo = m + 1 := by
      have : m = lo - 1 := h
      omega
    exact h'
  | cons s l ih =>
    obtain ⟨h1,h2,h3⟩ := h
    exact Tiles.cons_glue ⟨h1,h2,ih h3⟩

theorem clip_cons_glue (h : Tiles lo hi (s :: l)) (hs : s.Ok) (ha : s.hi < a) :
    clip a b (Glue.cons Seg.mergeable Seg.glue s l) = clip a b l := by
  cases l with
  | nil => exact clip_cons_none (.inl ha)
  | cons t l =>
    rw [Glue.cons]
    split
    · rename_i hm
      obtain ⟨h1,h2,h3,h4,h5⟩ := h
      obtain ⟨hv,hmod,hd,-⟩ := (Seg.mergeable_iff hs).mp hm
      rw [hmod] at hd
      have hst : (s.glue t).clip a b = t.clip a b := by
        simp only [Seg.clip,Seg.glue,show max a s.lo = max a t.lo by omega,hmod,realign_congr hd,hv]
      exact clip_cons_congr hst
    · exact clip_cons_none (.inl ha)

theorem clip_foldr_right (h : Tiles lo m l) (hl : ∀ s ∈ l, s.Ok) (h' : Tiles (m + 1) hi l') (ha : m < a) :
    clip a b (l.foldr (Glue.cons Seg.mergeable Seg.glue) l') = clip a b l' := by
  induction l generalizing lo with
  | nil => rfl
  | cons s l ih =>
    obtain ⟨h1,h2,h3⟩ := h
    obtain ⟨hs,hl⟩ := List.forall_mem_cons.mp hl
    have hle := h3.le
    rw [List.foldr_cons,clip_cons_glue ⟨h1,h2,h3.foldr_glue h'⟩ hs (by omega),ih h3 hl]

theorem clip_foldr_left (h : Tiles lo m l) (hl : Good l) (h' : Tiles (m + 1) hi l') (hb : b ≤ m) :
    clip a b (l.foldr (Glue.cons Seg.mergeable Seg.glue) l') = clip a b l := by
  cases l' with
  | nil => rw [← Glue.list,← Glue.list_append,List.append_nil,← glueList,hl.glueList_eq]
  | cons t l' =>
    obtain ⟨h1,h2,h3⟩ := h'
    have hrest : clip a b (t :: l') = [] := (show Tiles (m + 1) hi (t :: l') from ⟨h1,h2,h3⟩).clip_left (by omega)
    rcases List.eq_nil_or_concat l with rfl | ⟨k,s,rfl⟩
    · exact hrest
    · rw [List.concat_eq_append] at *
      rw [glue_laws.foldr_append_singleton hl.2]
      obtain ⟨j,hk,hj⟩ := h.split
      obtain ⟨hs1,hs2,hs3⟩ := hj
      have hs3 : m = s.hi := by
        have : m = s.hi + 1 - 1 := hs3
        omega
      split
      · have hst : (s.glue t).clip a b = s.clip a b := by
          simp only [Seg.clip,Seg.glue,show min b t.hi = min b s.hi by omega]
        rw [clip_cons_none (.inr (by omega))] at hrest
        rw [clip_append,clip_append,List.append_cancel_left_eq,clip_cons_congr hst,← List.singleton_append,
          clip_append,hrest,List.append_nil]
      · rw [clip_append,clip_append,List.append_cancel_left_eq,← List.singleton_append,clip_append,hrest,
          List.append_nil]

end Gluing

def HasSeg (l : List (Seg V)) (b : ℤ) (s : Seg V) : Prop := s ∈ l ∧ s.lo ≤ b ∧ b ≤ s.hi

def HasVal (l : List (Seg V)) (b : ℤ) (v : V) : Prop := ∃ s ∈ l, s.lo ≤ b ∧ b ≤ s.hi ∧ s.v = v

section Values
variable {lo hi b : ℤ} {v : V} {s s' : Seg V} {l l' : List (Seg V)}

theorem HasSeg.mem (h : HasSeg l b s) (ht : Tiles lo hi l) : lo ≤ b ∧ b ≤ hi := by
  have := ht.mem h.1
  obtain ⟨-,h1,h2⟩ := h
  omega

theorem Tiles.hasSeg_unique (h : Tiles lo hi l) (h1 : HasSeg l b s) (h2 : HasSeg l b s') : s = s' := by
  induction l generalizing lo with
  | nil => exact absurd h1.1 (by simp)
  | cons t l ih =>
    obtain ⟨h3,h4,h5⟩ := h
    obtain ⟨hm1,hb1⟩ := h1
    obtain ⟨hm2,hb2⟩ := h2
    rcases List.mem_cons.mp hm1 with rfl | hm1
    · rcases List.mem_cons.mp hm2 with rfl | hm2
      · rfl
      · have := h5.mem hm2
        omega
    · have := h5.mem hm1
      rcases List.mem_cons.mp hm2 with rfl | hm2
      · omega
      · exact ih h5 ⟨hm1,hb1⟩ ⟨hm2,hb2⟩

theorem hasVal_iff : HasVal l b v ↔ ∃ s, HasSeg l b s ∧ s.v = v := by
  simp only [HasVal,HasSeg,and_assoc]

theorem hasVal_nil : ¬ HasVal ([] : List (Seg V)) b v := by simp [HasVal]

theorem hasVal_append : HasVal (l ++ l') b v ↔ HasVal l b v ∨ HasVal l' b v := by
  simp only [HasVal,List.mem_append,or_and_right,exists_or]

theorem hasVal_cons : HasVal (s :: l) b v ↔ (s.lo ≤ b ∧ b ≤ s.hi ∧ s.v = v) ∨ HasVal l b v := by
  simp [HasVal]

theorem HasVal.mem (h : HasVal l b v) (ht : Tiles lo hi l) : lo ≤ b ∧ b ≤ hi := by
  obtain ⟨s,hs,-⟩ := (hasVal_iff).mp h
  exact hs.mem ht

theorem Tiles.exists_hasVal (h : Tiles lo hi l) (h1 : lo ≤ b) (h2 : b ≤ hi) : ∃ v, HasVal l b v := by
  induction l generalizing lo with
  | nil =>
    have : hi = lo - 1 := h
    omega
  | cons s l ih =>
    obtain ⟨h3,h4,h5⟩ := h
    by_cases hb : b ≤ s.hi
    · exact ⟨s.v,s,by simp,by omega,hb,rfl⟩
    · obtain ⟨v,hv⟩ := ih h5 (by omega)
      exact ⟨v,(hasVal_cons).mpr (.inr hv)⟩

theorem Tiles.hasVal_unique {v' : V} (h : Tiles lo hi l) (h1 : HasVal l b v) (h2 : HasVal l b v') : v = v' := by
  obtain ⟨s,hs,rfl⟩ := (hasVal_iff).mp h1
  obtain ⟨s',hs',rfl⟩ := (hasVal_iff).mp h2
  rw [h.hasSeg_unique hs hs']

theorem hasVal_clip {a c : ℤ} : HasVal (clip a c l) b v ↔ a ≤ b ∧ b ≤ c ∧ HasVal l b v := by
  constructor
  · rintro ⟨s,hs,h1,h2,h3⟩
    obtain ⟨t,ht,hle,rfl⟩ := mem_clip hs
    simp only at h1 h2 h3
    exact ⟨by omega,by omega,t,ht,by omega,by omega,h3⟩
  · rintro ⟨h1,h2,t,ht,h3,h4,h5⟩
    refine ⟨_,List.mem_filterMap.mpr ⟨t,ht,if_pos (by omega)⟩,?_,?_,h5⟩
    · simp only
      omega
    · simp only
      omega

section Gluing
variable [DecidableEq V] [OffsetmapLattice V]

theorem HasVal.cons_glue (ht : Tiles lo hi (s :: l)) (hs : s.Ok) (h : HasVal (s :: l) b v) :
    HasVal (Glue.cons Seg.mergeable Seg.glue s l) b v := by
  cases l with
  | nil => exact h
  | cons t l =>
    rw [Glue.cons]
    split
    · rename_i hm
      obtain ⟨h1,h2,h3,h4,h5⟩ := ht
      obtain ⟨hv,-⟩ := (Seg.mergeable_iff hs).mp hm
      rw [hasVal_cons,hasVal_cons] at h
      rw [hasVal_cons]
      rcases h with h | h | h
      · exact .inl ⟨h.1,(by omega : b ≤ t.hi),h.2.2⟩
      · exact .inl ⟨(by omega : s.lo ≤ b),h.2.1,hv.trans h.2.2⟩
      · exact .inr h
    · exact h

theorem Tiles.glueList (ht : Tiles lo hi l) : Tiles lo hi (Offsetmap.glueList l) := by
  have h := ht.foldr_glue (show Tiles (hi + 1) hi [] from (by omega : hi = hi + 1 - 1))
  rwa [← Glue.list,← Glue.list_append,List.append_nil] at h

theorem HasVal.glueList (ht : Tiles lo hi l) (hl : ∀ s ∈ l, s.Ok) (h : HasVal l b v) :
    HasVal (glueList l) b v := by
  induction l generalizing lo with
  | nil => exact h
  | cons s l ih =>
    obtain ⟨h1,h2,h3⟩ := ht
    obtain ⟨hs,hl⟩ := List.forall_mem_cons.mp hl
    refine HasVal.cons_glue (show Tiles lo hi (s :: _) from ⟨h1,h2,h3.glueList⟩) hs ?_
    rw [hasVal_cons] at h ⊢
    exact h.imp_right (ih h3 hl)

theorem hasVal_glueList (ht : Tiles lo hi l) (hl : ∀ s ∈ l, s.Ok) : HasVal (glueList l) b v ↔ HasVal l b v := by
  constructor
  · intro h
    obtain ⟨h1,h2⟩ := h.mem ht.glueList
    obtain ⟨w,hw⟩ := ht.exists_hasVal h1 h2
    rwa [ht.glueList.hasVal_unique h (hw.glueList ht hl)]
  · exact HasVal.glueList ht hl

variable {o o' o1 o2 min max rem modu : ℤ} {w : V} {t t' t1 t2 : Offsetmap V}

theorem hasVal_addNode_right (h : Canon lo (min - 1) o t) (hle : min ≤ max)
    (hw : isIsotropic w = true ∨ 0 ≤ rem ∧ rem < modu) (he : addNode min max rem modu w o t = (o',t'))
    (hv : HasVal (segs o t) b v ∨ min ≤ b ∧ b ≤ max ∧ w = v) : HasVal (segs o' t') b v := by
  obtain ⟨o1,t1,g1,g2,g3⟩ := addNode_right h hle hw
  obtain ⟨rfl,rfl⟩ := Prod.mk.inj (he.symm.trans g1)
  rw [g3]
  have htiles : Tiles lo max (segs o t ++ [newSeg min max rem modu w]) :=
    h.1.tiles.append (by rw [sub_add_cancel]; exact tiles_newSeg hle rem modu w)
  refine HasVal.glueList htiles ?_ ?_
  · exact List.forall_mem_append.mpr ⟨h.2.1,List.forall_mem_singleton.mpr (newSeg_ok hw)⟩
  · rw [hasVal_append,hasVal_cons,newSeg_lo,newSeg_hi,newSeg_v]
    exact hv.imp_right .inl

theorem hasVal_addNode_left (h : Canon (max + 1) hi o t) (hle : min ≤ max)
    (hw : isIsotropic w = true ∨ 0 ≤ rem ∧ rem < modu) (he : addNode min max rem modu w o t = (o',t'))
    (hv : HasVal (segs o t) b v ∨ min ≤ b ∧ b ≤ max ∧ w = v) : HasVal (segs o' t') b v := by
  obtain ⟨o1,t1,g1,g2,g3⟩ := addNode_left h hle hw
  obtain ⟨rfl,rfl⟩ := Prod.mk.inj (he.symm.trans g1)
  rw [g3]
  have htiles : Tiles min hi ([newSeg min max rem modu w] ++ segs o t) :=
    (tiles_newSeg hle rem modu w).append h.1.tiles
  refine HasVal.glueList htiles ?_ ?_
  · exact List.forall_mem_cons.mpr ⟨newSeg_ok hw,h.2.1⟩
  · rw [hasVal_cons,newSeg_lo,newSeg_hi,newSeg_v]
    exact hv.symm

theorem hasVal_union {m : ℤ} (h1 : Canon lo m o1 t1) (h2 : Canon (m + 1) hi o2 t2) (he : union o1 t1 o2 t2 = (o,t))
    (hv : HasVal (segs o1 t1) b v ∨ HasVal (segs o2 t2) b v) : HasVal (segs o t) b v := by
  obtain ⟨o',t',g1,g2,g3⟩ := union_spec h1 h2
  obtain ⟨rfl,rfl⟩ := Prod.mk.inj (he.symm.trans g1)
  rw [g3]
  refine HasVal.glueList (h1.1.tiles.append h2.1.tiles) ?_ ?_
  · exact List.forall_mem_append.mpr ⟨h1.2.1,h2.2.1⟩
  · exact hasVal_append.mpr hv

end Gluing

end Values

end FramaC.Offsetmap
