import FramaC.Offsetmap.WellFormed

/-! # The bits of an offsetmap

Each bit is bound to a value, the size of this value and the position of the bit inside it. Gluing and clipping do not change
the bindings, and an update rewrites those of its interval one by one.
-/
namespace FramaC.Offsetmap
open OffsetmapLattice
variable {V : Type}

structure Binding (V : Type) where
  value : V
  size : ℤ
  position : ℤ
  deriving DecidableEq, Repr

/-- The binding of a bit by a segment: the values begin at the alignment of the segment. -/
def Seg.bind (s : Seg V) (b : ℤ) : Binding V := ⟨s.v,s.modu,(b - (s.lo + s.rem)) % s.modu⟩

@[grind =] def bindings : List (Seg V) → ℤ → Option (Binding V)
  | [],_ => none
  | s :: l,b => if s.lo ≤ b ∧ b ≤ s.hi then some (s.bind b) else bindings l b

/-- The binding of a bit by the tree rooted at `o`. -/
def bindingAt (o : ℤ) (t : Offsetmap V) (b : ℤ) : Option (Binding V) := bindings (segs o t) b

section Bits
variable {lo hi b : ℤ} {s : Seg V} {l l' : List (Seg V)}

theorem Seg.bind_congr {s t : Seg V} (hv : s.v = t.v) (hm : s.modu = t.modu) (hd : s.modu ∣ t.lo + t.rem - (s.lo + s.rem))
    (b : ℤ) : t.bind b = s.bind b := by
  have hpos : (b - (t.lo + t.rem)) % s.modu = (b - (s.lo + s.rem)) % s.modu := by
    rw [Int.emod_eq_emod_iff_emod_sub_eq_zero,← Int.dvd_iff_emod_eq_zero]
    rw [show b - (t.lo + t.rem) - (b - (s.lo + s.rem)) = -(t.lo + t.rem - (s.lo + s.rem)) by ring]
    exact hd.neg_right
  rw [Seg.bind,Seg.bind,← hm,← hv,hpos]

theorem bindings_append (l l' : List (Seg V)) (b : ℤ) : bindings (l ++ l') b = (bindings l b).or (bindings l' b) := by
  induction l with
  | nil => rfl
  | cons s l ih =>
    rw [List.cons_append,bindings,bindings]
    split
    · rfl
    · exact ih

theorem bindings_eq_none (h : ∀ s ∈ l, ¬ (s.lo ≤ b ∧ b ≤ s.hi)) : bindings l b = none := by
  induction l with
  | nil => rfl
  | cons s l ih =>
    obtain ⟨hs,hl⟩ := List.forall_mem_cons.mp h
    rw [bindings,if_neg hs]
    exact ih hl

theorem exists_of_bindings {x : Binding V} (h : bindings l b = some x) : ∃ s ∈ l, s.lo ≤ b ∧ b ≤ s.hi ∧ s.bind b = x := by
  induction l with
  | nil => cases h
  | cons s l ih =>
    rw [bindings] at h
    split at h
    · rename_i hb
      exact ⟨s,by simp,hb.1,hb.2,Option.some.inj h⟩
    · obtain ⟨t,ht,hb⟩ := ih h
      exact ⟨t,by simp [ht],hb⟩

theorem Tiles.bindings_none (h : Tiles lo hi l) (hb : b < lo ∨ hi < b) : bindings l b = none := by
  apply bindings_eq_none
  intro s hs
  have := h.mem hs
  omega

theorem Tiles.bindings_mem (h : Tiles lo hi l) (hs : s ∈ l) (h1 : s.lo ≤ b) (h2 : b ≤ s.hi) : bindings l b = some (s.bind b) := by
  induction l generalizing lo with
  | nil => simp at hs
  | cons t l ih =>
    obtain ⟨h3,h4,h5⟩ := h
    rw [bindings]
    rcases List.mem_cons.mp hs with rfl | hs
    · rw [if_pos ⟨h1,h2⟩]
    · have := h5.mem hs
      rw [if_neg (by omega)]
      exact ih h5 hs

theorem Tiles.exists_seg (h : Tiles lo hi l) (h1 : lo ≤ b) (h2 : b ≤ hi) : ∃ s ∈ l, s.lo ≤ b ∧ b ≤ s.hi := by
  obtain ⟨v,s,hs,h3,h4,-⟩ := h.exists_hasVal h1 h2
  exact ⟨s,hs,h3,h4⟩

theorem Tiles.bindings_isSome (h : Tiles lo hi l) (h1 : lo ≤ b) (h2 : b ≤ hi) : ∃ x, bindings l b = some x := by
  obtain ⟨s,hs,h3,h4⟩ := h.exists_seg h1 h2
  exact ⟨_,h.bindings_mem hs h3 h4⟩

theorem hasVal_of_bindings {x : Binding V} (h : bindings l b = some x) : HasVal l b x.value := by
  obtain ⟨s,hs,h1,h2,rfl⟩ := exists_of_bindings h
  exact ⟨s,hs,h1,h2,rfl⟩

theorem bindings_clip (a c : ℤ) (l : List (Seg V)) (b : ℤ) :
    bindings (clip a c l) b = if a ≤ b ∧ b ≤ c then bindings l b else none := by
  induction l with
  | nil => simp [clip,bindings]
  | cons s l ih =>
    rw [clip,List.filterMap_cons,Seg.clip]
    by_cases hs : max a s.lo ≤ min c s.hi
    · simp only [if_pos hs,bindings]
      by_cases hb : s.lo ≤ b ∧ b ≤ s.hi
      · rw [if_pos hb]
        by_cases hac : a ≤ b ∧ b ≤ c
        · rw [if_pos hac,if_pos (by omega)]
          have hd := dvd_realign s.lo (max a s.lo) s.rem s.modu
          exact congrArg some (Seg.bind_congr (s := s) (t := ⟨_,min c s.hi,_,_,s.v⟩) rfl rfl hd b)
        · rw [if_neg hac,if_neg (by omega)]
          exact ih.trans (if_neg hac)
      · rw [if_neg hb,if_neg (by omega)]
        exact ih
    · simp only [if_neg hs]
      refine ih.trans ?_
      rw [bindings]
      split
      · rw [if_neg (by omega)]
      · rfl

theorem bindings_map {f : Seg V → Seg V} {g : Binding V → Binding V} (hf : ∀ s ∈ l, (f s).lo = s.lo ∧ (f s).hi = s.hi)
    (hg : ∀ s ∈ l, s.lo ≤ b → b ≤ s.hi → (f s).bind b = g (s.bind b)) : bindings (l.map f) b = (bindings l b).map g := by
  induction l with
  | nil => rfl
  | cons s l ih =>
    obtain ⟨hs,hl⟩ := List.forall_mem_cons.mp hf
    obtain ⟨gs,gl⟩ := List.forall_mem_cons.mp hg
    rw [List.map_cons,bindings,bindings,hs.1,hs.2]
    split
    · rename_i hb
      rw [gs hb.1 hb.2,Option.map_some]
    · exact ih hl gl

theorem Tiles.map {f : Seg V → Seg V} (h : Tiles lo hi l) (hf : ∀ s ∈ l, (f s).lo = s.lo ∧ (f s).hi = s.hi) :
    Tiles lo hi (l.map f) := by
  induction l generalizing lo with
  | nil => exact h
  | cons s l ih =>
    obtain ⟨hs,hl⟩ := List.forall_mem_cons.mp hf
    obtain ⟨h1,h2,h3⟩ := h
    refine ⟨hs.1.trans h1,?_,?_⟩
    · rw [hs.1,hs.2]
      exact h2
    · rw [hs.2]
      exact ih h3 hl

end Bits

section Gluing
variable [DecidableEq V] [OffsetmapLattice V] {lo hi b : ℤ} {s : Seg V} {l : List (Seg V)}

theorem bindings_cons_glue (ht : Tiles lo hi (s :: l)) (hs : s.Ok) :
    bindings (Glue.cons Seg.mergeable Seg.glue s l) b = bindings (s :: l) b := by
  cases l with
  | nil => rfl
  | cons t l =>
    rw [Glue.cons]
    split
    · rename_i hm
      obtain ⟨h1,h2,h3,h4,-⟩ := ht
      obtain ⟨hv,hmod,hd,-⟩ := (Seg.mergeable_iff hs).mp hm
      have hbind : (s.glue t).bind b = s.bind b := rfl
      have hlo : (s.glue t).lo = s.lo := rfl
      have hhi : (s.glue t).hi = t.hi := rfl
      simp only [bindings,hlo,hhi,hbind]
      by_cases hb : s.lo ≤ b ∧ b ≤ s.hi
      · rw [if_pos hb,if_pos (by omega)]
      · rw [if_neg hb]
        by_cases hb' : t.lo ≤ b ∧ b ≤ t.hi
        · rw [if_pos hb',if_pos (by omega),Seg.bind_congr hv hmod hd]
        · rw [if_neg hb',if_neg (by omega)]
    · rfl

theorem bindings_glueList (ht : Tiles lo hi l) (hl : ∀ s ∈ l, s.Ok) : bindings (glueList l) b = bindings l b := by
  induction l generalizing lo with
  | nil => rfl
  | cons s l ih =>
    obtain ⟨h1,h2,h3⟩ := ht
    obtain ⟨hs,hl⟩ := List.forall_mem_cons.mp hl
    have hglue := bindings_cons_glue (b := b) (show Tiles lo hi (s :: glueList l) from ⟨h1,h2,h3.glueList⟩) hs
    refine hglue.trans ?_
    rw [bindings,bindings,ih h3 hl]

end Gluing

section Writes
variable [OffsetmapLattice V]

def Binding.normalize (x : Binding V) : Binding V := if isIsotropic x.value then ⟨x.value,1,0⟩ else x

/-- What a write of `v` binds to a bit, at the given position of `v`, that was bound to `x`. -/
def Binding.write (exact : Bool) (v : V) (size position : ℤ) (x : Binding V) : Binding V :=
  if exact then Binding.normalize ⟨v,size,position⟩
  else if isIsotropic v || (decide (position = x.position) && decide (x.size = size)) then
    Binding.normalize ⟨anisotropicCast x.size (OffsetmapLattice.join x.value v),x.size,x.position⟩
  else if isIsotropic x.value then Binding.normalize ⟨anisotropicCast size (OffsetmapLattice.join x.value v),size,position⟩
  else ⟨topifyWithOrigin .merge (OffsetmapLattice.join x.value v),1,0⟩

@[simp] theorem Binding.normalize_unit (v : V) : Binding.normalize ⟨v,1,0⟩ = ⟨v,1,0⟩ := by
  rw [Binding.normalize]
  split
  · rfl
  · rfl

theorem newSeg_bind (lo hi rem modu : ℤ) (v : V) (b : ℤ) :
    (newSeg lo hi rem modu v).bind b = Binding.normalize ⟨v,modu,(b - (lo + rem)) % modu⟩ := by
  rw [newSeg,Binding.normalize]
  split
  · simp only [Seg.bind,Int.emod_one]
  · rfl

theorem joinedSeg_bind {offset size rem : ℤ} {v : V} {s : Seg V} (hs : s.Ok) (b : ℤ) :
    (joinedSeg offset size rem v s).bind b = (s.bind b).write false v size ((b - (offset + rem)) % size) := by
  have hpos : s.modu = size → (realign offset s.lo rem size = s.rem ↔
      (b - (offset + rem)) % size = (b - (s.lo + s.rem)) % s.modu) := by
    rintro rfl
    rw [realign]
    nth_rw 1 [← Int.emod_eq_of_lt hs.1 hs.2.1]
    rw [Int.emod_eq_emod_iff_emod_sub_eq_zero,Int.emod_eq_emod_iff_emod_sub_eq_zero,← Int.dvd_iff_emod_eq_zero,
      ← Int.dvd_iff_emod_eq_zero,← dvd_neg]
    rw [show -(offset - s.lo + rem - s.rem) = b - (offset + rem) - (b - (s.lo + s.rem)) by ring]
  have hsame : (decide (realign offset s.lo rem size = s.rem) && decide (s.modu = size)) =
      (decide ((b - (offset + rem)) % size = (s.bind b).position) && decide ((s.bind b).size = size)) := by
    by_cases hm : s.modu = size
    · simp [hpos hm,hm,Seg.bind]
    · simp [hm,Seg.bind]
  have hval : (s.bind b).value = s.v := rfl
  have halign : (b - (s.lo + realign offset s.lo rem size)) % size = (b - (offset + rem)) % size := by
    have h := Seg.bind_congr (s := ⟨offset,0,rem,size,v⟩) (t := ⟨s.lo,0,realign offset s.lo rem size,size,v⟩) rfl rfl
      (dvd_realign offset s.lo rem size) b
    exact congrArg Binding.position h
  rw [joinedSeg,newSeg_bind,joinedNode,hsame,Binding.write,if_neg Bool.false_ne_true,hval]
  split
  · rfl
  · split
    · exact congrArg (fun p => Binding.normalize ⟨_,size,p⟩) halign
    · simp only [Int.emod_one,Binding.normalize_unit]

end Writes

section Operations
variable [DecidableEq V] [OffsetmapLattice V] {lo m hi o o1 o2 offset absMax size rem min max modu : ℤ} {v : V}
  {t t1 t2 : Offsetmap V}

theorem bindingAt_isSome {b : ℤ} (h : Canon lo hi o t) (h1 : lo ≤ b) (h2 : b ≤ hi) : ∃ x, bindingAt o t b = some x :=
  h.1.tiles.bindings_isSome h1 h2

theorem bindingAt_none {b : ℤ} (h : Canon lo hi o t) (hb : b < lo ∨ hi < b) : bindingAt o t b = none :=
  h.1.tiles.bindings_none hb

theorem addNode_right_bindings (h : Canon lo (min - 1) o t) (hle : min ≤ max)
    (hv : isIsotropic v = true ∨ 0 ≤ rem ∧ rem < modu) :
    ∃ o' t', addNode min max rem modu v o t = (o',t') ∧ Canon lo max o' t' ∧ ∀ b, bindingAt o' t' b =
      if min ≤ b ∧ b ≤ max then some (Binding.normalize ⟨v,modu,(b - (min + rem)) % modu⟩) else bindingAt o t b := by
  obtain ⟨o',t',h1,h2,h3⟩ := addNode_right h hle hv
  refine ⟨o',t',h1,h2,fun b => ?_⟩
  have htiles : Tiles lo max (segs o t ++ [newSeg min max rem modu v]) :=
    h.1.tiles.append (by rw [sub_add_cancel]; exact tiles_newSeg hle rem modu v)
  have hok : ∀ s ∈ segs o t ++ [newSeg min max rem modu v], s.Ok :=
    List.forall_mem_append.mpr ⟨h.2.1,List.forall_mem_singleton.mpr (newSeg_ok hv)⟩
  rw [bindingAt,h3,bindings_glueList htiles hok,bindings_append]
  simp only [bindings,newSeg_lo,newSeg_hi,newSeg_bind]
  split
  · rw [h.1.tiles.bindings_none (by omega),Option.none_or]
  · rw [Option.or_none,bindingAt]

theorem union_bindings (h1 : Canon lo m o1 t1) (h2 : Canon (m + 1) hi o2 t2) :
    ∃ o' t', union o1 t1 o2 t2 = (o',t') ∧ Canon lo hi o' t' ∧
      ∀ b, bindingAt o' t' b = if b ≤ m then bindingAt o1 t1 b else bindingAt o2 t2 b := by
  obtain ⟨o',t',g1,g2,g3⟩ := union_spec h1 h2
  refine ⟨o',t',g1,g2,fun b => ?_⟩
  rw [bindingAt,g3,bindings_glueList (h1.1.tiles.append h2.1.tiles) (List.forall_mem_append.mpr ⟨h1.2.1,h2.2.1⟩),
    bindings_append]
  split
  · rw [h2.1.tiles.bindings_none (by omega),Option.or_none,bindingAt]
  · rw [h1.1.tiles.bindings_none (by omega),Option.none_or,bindingAt]

theorem updateItvWithRem_bindings (h : Canon lo hi o t) (hlo : lo ≤ offset) (hle : offset ≤ absMax) (hhi : absMax ≤ hi)
    (hsize : size ≠ 0) (hv : isIsotropic v = true ∨ 0 ≤ rem ∧ rem < size) (exact : Bool) :
    ∃ o' t', updateItvWithRem exact offset absMax size rem v o t = some (o',t') ∧ Canon lo hi o' t' ∧
      ∀ b, bindingAt o' t' b = (bindingAt o t b).map fun x =>
        if offset ≤ b ∧ b ≤ absMax then x.write exact v size ((b - (offset + rem)) % size) else x := by
  obtain ⟨o',t',h1,h2,h3⟩ := updateItvWithRem_spec h hlo hle hhi hsize hv exact
  refine ⟨o',t',h1,h2,fun b => ?_⟩
  have hok := updatedSegs_ok offset absMax hv exact h.2.1
  have hsame : ∀ s ∈ clip offset absMax (segs o t), (joinedSeg offset size rem v s).lo = s.lo ∧
      (joinedSeg offset size rem v s).hi = s.hi := fun s _ => ⟨by simp [joinedSeg],by simp [joinedSeg]⟩
  have htiles : Tiles (offset - 1 + 1) absMax (updatedSegs exact offset absMax size rem v (segs o t)) := by
    rw [sub_add_cancel,updatedSegs]
    split
    · exact tiles_newSeg hle rem size v
    · exact (h.1.tiles.clip hlo hhi (by omega)).map hsame
  have hleft : Tiles lo (offset - 1) (clip lo (offset - 1) (segs o t)) := h.1.tiles.clip le_rfl (by omega) (by omega)
  have hright : Tiles (absMax + 1) hi (clip (absMax + 1) hi (segs o t)) := h.1.tiles.clip (by omega) le_rfl (by omega)
  rw [bindingAt,h3,bindings_glueList ((hleft.append htiles).append hright) (List.forall_mem_append.mpr
    ⟨List.forall_mem_append.mpr ⟨clip_ok h.2.1,hok⟩,clip_ok h.2.1⟩),bindings_append,bindings_append,bindings_clip,bindings_clip]
  by_cases hin : offset ≤ b ∧ b ≤ absMax
  · obtain ⟨x,hx⟩ := bindingAt_isSome h (by omega) (by omega : b ≤ hi)
    rw [if_neg (by omega),if_neg (by omega),Option.none_or,Option.or_none]
    simp only [if_pos hin]
    rw [hx,Option.map_some,updatedSegs]
    rw [bindingAt] at hx
    split
    · rename_i he
      rw [bindings,newSeg_lo,newSeg_hi,if_pos hin,newSeg_bind,Binding.write,if_pos he]
    · rename_i he
      rw [Bool.not_eq_true] at he
      rw [he,bindings_map (g := fun x => x.write false v size ((b - (offset + rem)) % size)) hsame
        fun s hs _ _ => joinedSeg_bind (clip_ok h.2.1 s hs) b,bindings_clip,if_pos hin,hx]
      rfl
  · simp only [if_neg hin]
    rw [Option.map_id',bindingAt,htiles.bindings_none (by omega),Option.or_none]
    rcases lt_or_ge b offset with hlt | hge
    · rw [if_neg (by omega : ¬ (absMax + 1 ≤ b ∧ b ≤ hi)),Option.or_none]
      split
      · rfl
      · exact (h.1.tiles.bindings_none (by omega)).symm
    · rw [if_neg (by omega),Option.none_or]
      split
      · rfl
      · exact (h.1.tiles.bindings_none (by omega)).symm

end Operations

section Runs
variable [DecidableEq V] [OffsetmapLattice V] {lo hi : ℤ}

/-- A write inside the range of a map. -/
structure Write (V : Type) [DecidableEq V] [OffsetmapLattice V] (lo hi : ℤ) where
  exact : Bool
  offset : ℤ
  absMax : ℤ
  size : ℤ
  rem : ℤ
  v : V
  lo_le : lo ≤ offset
  le_absMax : offset ≤ absMax
  absMax_le : absMax ≤ hi
  size_ne : size ≠ 0
  aligned : isIsotropic v = true ∨ 0 ≤ rem ∧ rem < size

/-- What a write does to the binding of a bit. -/
def Write.at (b : ℤ) (x : Binding V) (w : Write V lo hi) : Binding V :=
  if w.offset ≤ b ∧ b ≤ w.absMax then x.write w.exact w.v w.size ((b - (w.offset + w.rem)) % w.size) else x

def Write.run (t : ℤ × Offsetmap V) (w : Write V lo hi) : Option (ℤ × Offsetmap V) :=
  updateItvWithRem w.exact w.offset w.absMax w.size w.rem w.v t.1 t.2

theorem foldl_not_covering {b : ℤ} {ws : List (Write V lo hi)} (h : ∀ w ∈ ws, ¬ (w.offset ≤ b ∧ b ≤ w.absMax)) (x : Binding V) :
    ws.foldl (Write.at b) x = x := by
  induction ws with
  | nil => rfl
  | cons w ws ih =>
    rw [List.foldl_cons,Write.at,if_neg (h w List.mem_cons_self)]
    exact ih fun w' hw => h w' (List.mem_cons_of_mem _ hw)

end Runs
end FramaC.Offsetmap
