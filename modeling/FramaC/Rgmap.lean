import FramaC.Lib.BalancedMap
import Mathlib.Data.Int.Order.Basic
import Mathlib.Algebra.Group.Int.Defs

/-! # Maps of ranges

Entries are stored in slices of increasing width. Inside a slice the comparison makes included ranges
equal. Insertion removes the entries that overlap the new one, except for entries of two positions.
-/
namespace FramaC.Rgmap
open BalancedMap Cut

abbrev NativeInt := BitVec 63

/-- The value `value` on the positions from `first` to `last`. -/
structure Entry (V : Type) where
  first : NativeInt
  last : NativeInt
  value : V
  deriving DecidableEq,Repr

abbrev Range := NativeInt × NativeInt

def Wmap.compare (a b : NativeInt) : Ordering := Ord.compare a.toInt b.toInt

def Rmap.compare : Range → Range → Ordering
  | (a,b),(c,d) =>
    if a.slt c then if b.slt d then .lt else .eq
    else if c.slt a then if d.slt b then .gt else .eq
    else .eq

variable {V : Type}

abbrev Offsets (V : Type) := Tree Range (Entry V)

abbrev Slices (V : Type) := Tree NativeInt (Offsets V)

def range (e : Entry V) : Range := (e.first,e.last)

def width (e : Entry V) : NativeInt := e.last - e.first

def empty : Slices V := .empty

/-- The data of a slice or of the map are replaced when the key is present. -/
def replaced {D : Type} : D → D → Bool := fun _ _ => false

def add (overlap : Bool) (entry : Entry V) (rmap : Slices V) : Slices V :=
  let w := width entry
  if (0 : NativeInt).sle w then
    let rg := range entry
    let offsets := match rmap.find Wmap.compare w with
      | some m =>
        -- slices of two positions keep their overlapping entries
        if overlap && (1 : NativeInt).slt w then
          let (a,b) := rg
          (m.remove Rmap.compare (b,b)).remove Rmap.compare (a,a)
        else m
      | none => .empty
    rmap.add Wmap.compare w replaced (offsets.add Rmap.compare rg replaced entry)
  else rmap

/-- `none` is `Not_found`. -/
def find (a b : NativeInt) (rmap : Slices V) : Option (Entry V) :=
  let rg := (a,b)
  let width := b - a
  rmap.bindings.findSome? fun (w,offsets) => if width.sle w then offsets.find Rmap.compare rg else none

def findAll (a b : NativeInt) (rmap : Slices V) : List (Entry V) :=
  let rg := (a,b)
  let width := b - a
  (rmap.bindings.foldl (fun found (w,offsets) =>
    if width.sle w then
      match offsets.find Rmap.compare rg with
      | some e => e :: found
      | none => found
    else found) []).reverse

/-- The entries in the order of `iter`. -/
def entries (rmap : Slices V) : List (Entry V) :=
  rmap.bindings.flatMap fun (_,ofs) => ofs.bindings.map Prod.snd

instance : Std.TransCmp Wmap.compare := inferInstanceAs (Std.TransCmp (compareOn BitVec.toInt))

instance : Std.LawfulEqCmp Wmap.compare where
  eq_of_compare h := BitVec.eq_of_toInt_eq (compare_eq_iff_eq.mp h)

theorem zero_sle {w : NativeInt} : (0 : NativeInt).sle w = true ↔ 0 ≤ w.toInt := by
  rw [BitVec.sle_iff_toInt_le]
  rfl

theorem one_slt {w : NativeInt} : (1 : NativeInt).slt w = true ↔ 1 < w.toInt := by
  rw [BitVec.slt_iff_toInt_lt]
  rfl

theorem Wmap.compare_eq_lt {a b : NativeInt} : Wmap.compare a b = .lt ↔ a.toInt < b.toInt := compare_lt_iff_lt

theorem Rmap.compare_eq_lt {a b c d : NativeInt} :
    Rmap.compare (a,b) (c,d) = .lt ↔ a.toInt < c.toInt ∧ b.toInt < d.toInt := by
  simp only [Rmap.compare,BitVec.slt_iff_toInt_lt]
  split_ifs <;> simp <;> omega

theorem Rmap.compare_eq_gt {a b c d : NativeInt} :
    Rmap.compare (a,b) (c,d) = .gt ↔ c.toInt < a.toInt ∧ d.toInt < b.toInt := by
  simp only [Rmap.compare,BitVec.slt_iff_toInt_lt]
  split_ifs <;> simp <;> omega

theorem Rmap.compare_eq_eq {a b c d : NativeInt} : Rmap.compare (a,b) (c,d) = .eq ↔
    (a.toInt ≤ c.toInt ∨ b.toInt ≤ d.toInt) ∧ (c.toInt ≤ a.toInt ∨ d.toInt ≤ b.toInt) := by
  simp only [Rmap.compare,BitVec.slt_iff_toInt_lt]
  split_ifs <;> simp <;> omega

abbrev Binding (V : Type) := Range × Entry V

/-- The entries of width `w`, by increasing first position. -/
structure Slice (w : NativeInt) (l : List (Binding V)) : Prop where
  key : ∀ b ∈ l, b.1 = (b.2.first,b.2.last)
  width : ∀ b ∈ l, b.2.last.toInt = b.2.first.toInt + w.toInt
  starts : l.Pairwise fun a b => a.2.first.toInt < b.2.first.toInt

def Apart (l : List (Binding V)) : Prop := l.Pairwise fun a b => a.2.last.toInt < b.2.first.toInt

variable {w : NativeInt} {l : List (Binding V)}

theorem Slice.compare_lt (h : Slice w l) {x : Binding V} (hx : x ∈ l) {a b : NativeInt} :
    Rmap.compare (a,b) x.1 = .lt ↔ a.toInt < x.2.first.toInt ∧ b.toInt < x.2.last.toInt := by
  rw [h.key x hx,Rmap.compare_eq_lt]

theorem Slice.compare_gt (h : Slice w l) {x : Binding V} (hx : x ∈ l) {a b : NativeInt} :
    Rmap.compare (a,b) x.1 = .gt ↔ x.2.first.toInt < a.toInt ∧ x.2.last.toInt < b.toInt := by
  rw [h.key x hx,Rmap.compare_eq_gt]

theorem Slice.compare_eq (h : Slice w l) {x : Binding V} (hx : x ∈ l) {a b : NativeInt} :
    Rmap.compare (a,b) x.1 = .eq ↔ (a.toInt ≤ x.2.first.toInt ∨ b.toInt ≤ x.2.last.toInt) ∧
      (x.2.first.toInt ≤ a.toInt ∨ x.2.last.toInt ≤ b.toInt) := by
  rw [h.key x hx,Rmap.compare_eq_eq]

theorem Slice.cut (h : Slice w l) (rg : Range) : Monotone (Tree.cutAt Rmap.compare rg) l := by
  refine List.Pairwise.imp_of_mem (fun {x y} hx hy hxy => ?_) h.starts
  obtain ⟨a,b⟩ := rg
  have hwx := h.width x hx
  have hwy := h.width y hy
  rw [h.compare_gt hx,h.compare_gt hy,h.compare_lt hx,h.compare_lt hy]
  omega

theorem Slice.strictCut_of_width (h : Slice w l) {a b : NativeInt} (hab : b.toInt = a.toInt + w.toInt) :
    Strict (Tree.cutAt Rmap.compare (a,b)) l := by
  refine List.Pairwise.imp_of_mem (fun {x y} hx hy hxy => ?_) h.starts
  have hwx := h.width x hx
  have hwy := h.width y hy
  rw [ne_eq,ne_eq,h.compare_gt hx,h.compare_lt hy]
  omega

theorem Slice.strictCut_of_apart (h : Slice w l) (hd : Apart l) (hw : 0 ≤ w.toInt) (p : NativeInt) :
    Strict (Tree.cutAt Rmap.compare (p,p)) l := by
  refine List.Pairwise.imp_of_mem (fun {x y} hx hy hxy => ?_) hd
  have hwx := h.width x hx
  have hwy := h.width y hy
  rw [ne_eq,ne_eq,h.compare_gt hx,h.compare_lt hy]
  omega

theorem Slice.filter (h : Slice w l) (p : Binding V → Bool) : Slice w (l.filter p) :=
  ⟨fun b hb => h.key b (List.mem_filter.mp hb).1,fun b hb => h.width b (List.mem_filter.mp hb).1,h.starts.filter p⟩

def Overlap (e e' : Entry V) : Prop := e.first.toInt ≤ e'.last.toInt ∧ e'.first.toInt ≤ e.last.toInt

theorem Slice.apart_iff (h : Slice w l) (hw : 0 ≤ w.toInt) :
    Apart l ↔ ∀ x ∈ l, ∀ y ∈ l, Overlap x.2 y.2 → x.2.first = y.2.first := by
  refine ⟨fun hd => ?_,fun hf => ?_⟩
  · refine List.Pairwise.forall_of_forall_of_flip (fun x _ _ => rfl) (hd.imp fun hxy ho => ?_) (hd.imp fun hxy ho => ?_)
    · exact absurd ho.2 (not_le.mpr hxy)
    · exact absurd ho.1 (not_le.mpr hxy)
  · refine List.Pairwise.imp_of_mem (fun {x y} hx hy hxy => ?_) h.starts
    by_contra hn
    have hwx := h.width x hx
    have hwy := h.width y hy
    have := hf x hx y hy ⟨by omega,by omega⟩
    rw [this] at hxy
    exact lt_irrefl _ hxy

theorem Slice.eq_of_first (h : Slice w l) : ∀ x ∈ l, ∀ y ∈ l, x.2.first = y.2.first → x = y := by
  refine List.Pairwise.forall_of_forall_of_flip (fun x _ _ => rfl) (h.starts.imp fun hxy he => ?_)
    (h.starts.imp fun hxy he => ?_)
  · exact absurd (he ▸ hxy) (lt_irrefl _)
  · exact absurd (he ▸ hxy) (lt_irrefl _)

theorem Slice.bindings_remove {t : Offsets V} (h : Slice w t.bindings) (hd : Apart t.bindings) (hw : 0 ≤ w.toInt)
    (p : NativeInt) : (t.remove Rmap.compare (p,p)).bindings =
      t.bindings.filter fun x => ¬ (x.2.first.toInt ≤ p.toInt ∧ p.toInt ≤ x.2.last.toInt) := by
  rw [Tree.bindings_remove (h.strictCut_of_apart hd hw p),(h.strictCut_of_apart hd hw p).lower_append_upper]
  refine List.filter_congr fun x hx => decide_eq_decide.mpr (not_congr ?_)
  have hwx := h.width x hx
  rw [h.compare_eq hx]
  omega

theorem Slice.mem_add {t : Offsets V} (h : Slice w t.bindings) {e : Entry V} (he : e.last.toInt = e.first.toInt + w.toInt)
    {x : Binding V} : x ∈ (t.add Rmap.compare (range e) replaced e).bindings ↔
      x = (range e,e) ∨ x ∈ t.bindings ∧ x.2.first ≠ e.first := by
  obtain ⟨mid,hb,hm⟩ := Tree.bindings_add (h.strictCut_of_width he) replaced e
  have hmid : mid = (range e,e) := hm.resolve_right fun hm => Bool.noConfusion hm.2.2
  rw [range,hb,hmid,List.mem_append,List.mem_cons,mem_lower,mem_upper]
  have side : x ∈ t.bindings → (x.2.first ≠ e.first ↔
      Rmap.compare (e.first,e.last) x.1 = .gt ∨ Rmap.compare (e.first,e.last) x.1 = .lt) := fun hx => by
    have hwx := h.width x hx
    rw [h.compare_gt hx,h.compare_lt hx,ne_eq,← BitVec.toInt_inj]
    omega
  constructor
  · rintro (⟨hx,hc⟩ | rfl | ⟨hx,hc⟩)
    · exact .inr ⟨hx,(side hx).mpr (.inl hc)⟩
    · exact .inl rfl
    · exact .inr ⟨hx,(side hx).mpr (.inr hc)⟩
  · rintro (rfl | ⟨hx,hne⟩)
    · exact .inr (.inl rfl)
    · exact ((side hx).mp hne).elim (fun hc => .inl ⟨hx,hc⟩) fun hc => .inr (.inr ⟨hx,hc⟩)

theorem Slice.add {t : Offsets V} (h : Slice w t.bindings) {e : Entry V} (he : e.last.toInt = e.first.toInt + w.toInt) :
    Slice w (t.add Rmap.compare (range e) replaced e).bindings := by
  refine ⟨fun x hx => ?_,fun x hx => ?_,?_⟩
  · rcases (h.mem_add he).mp hx with rfl | ⟨hx,-⟩
    · rfl
    · exact h.key x hx
  · rcases (h.mem_add he).mp hx with rfl | ⟨hx,-⟩
    · exact he
    · exact h.width x hx
  · obtain ⟨mid,hb,hm⟩ := Tree.bindings_add (h.strictCut_of_width he) replaced e
    have hmid : mid = (range e,e) := hm.resolve_right fun hm => Bool.noConfusion hm.2.2
    rw [range,hb,hmid]
    refine pairwise_insert h.starts (fun x hx => ?_) (fun y hy => ?_) fun x hx y hy => ?_
    · obtain ⟨hx,hc⟩ := mem_lower.mp hx
      exact ((h.compare_gt hx).mp hc).1
    · obtain ⟨hy,hc⟩ := mem_upper.mp hy
      exact ((h.compare_lt hy).mp hc).1
    · obtain ⟨hx,hc⟩ := mem_lower.mp hx
      obtain ⟨hy,hc'⟩ := mem_upper.mp hy
      exact lt_trans ((h.compare_gt hx).mp hc).1 ((h.compare_lt hy).mp hc').1

structure Wf (m : Slices V) : Prop where
  ordered : m.Ordered Wmap.compare
  nonneg : ∀ s ∈ m.bindings, 0 ≤ s.1.toInt
  slice : ∀ s ∈ m.bindings, Slice s.1 s.2.bindings
  -- only a slice of two positions may hold overlapping entries
  apart : ∀ s ∈ m.bindings, s.1.toInt ≠ 1 → Apart s.2.bindings

theorem empty_wf : Wf (empty : Slices V) :=
  ⟨List.Pairwise.nil,by simp [empty],by simp [empty],by simp [empty]⟩

def NoOverlap (m : Slices V) : Prop :=
  ∀ e ∈ entries m, ∀ e' ∈ entries m, width e = width e' → Overlap e e' → e = e'

/-- An entry of two positions overlaps no other entry of two positions, unless it replaces it. -/
def AddOk (e : Entry V) (m : Slices V) : Prop :=
  (width e).toInt = 1 → ∀ e' ∈ entries m, width e' = width e → Overlap e' e → range e' = range e

theorem mem_entries {m : Slices V} {e : Entry V} :
    e ∈ entries m ↔ ∃ s ∈ m.bindings, ∃ x ∈ s.2.bindings, x.2 = e := by
  simp only [entries,List.mem_flatMap,List.mem_map]

theorem toInt_sub_of_le {x y : NativeInt} (h : y.toInt ≤ x.toInt) : (x - y).toInt =
    if x.toInt - y.toInt < 2 ^ 62 then x.toInt - y.toInt else x.toInt - y.toInt - 2 ^ 63 := by
  have hx := BitVec.two_mul_toInt_lt (x := x)
  have hy := BitVec.le_two_mul_toInt (x := y)
  rw [BitVec.toInt_sub]
  unfold Int.bmod
  dsimp only
  split_ifs <;> omega

theorem toInt_sub_of_nonneg {x y : NativeInt} (h : y.toInt ≤ x.toInt) (hw : 0 ≤ (x - y).toInt) :
    (x - y).toInt = x.toInt - y.toInt := by
  have hs := toInt_sub_of_le h
  have hx := BitVec.two_mul_toInt_lt (x := x)
  have hy := BitVec.le_two_mul_toInt (x := y)
  split_ifs at hs <;> omega

theorem sub_ge_of_overflow {x y : NativeInt} (h : y.toInt ≤ x.toInt) (hw : ¬ 0 ≤ (x - y).toInt) :
    2 ^ 62 ≤ x.toInt - y.toInt := by
  have hs := toInt_sub_of_le h
  split_ifs at hs <;> omega

theorem last_eq_of_width {e : Entry V} (hle : e.first.toInt ≤ e.last.toInt) (hw : 0 ≤ (width e).toInt) :
    e.last.toInt = e.first.toInt + (width e).toInt := by
  have hs := toInt_sub_of_nonneg hle hw
  rw [width,hs]
  omega

theorem width_eq_of_last {e : Entry V} {w : NativeInt} (h : e.last.toInt = e.first.toInt + w.toInt) : width e = w := by
  refine BitVec.eq_of_toInt_eq ?_
  have hsub : e.last.toInt - e.first.toInt = w.toInt := by omega
  rw [width,BitVec.toInt_sub,hsub,BitVec.toInt_bmod_cancel]

theorem Wf.mem_entries {m : Slices V} (h : Wf m) {e : Entry V} :
    e ∈ entries m ↔ ∃ o, (width e,o) ∈ m.bindings ∧ (range e,e) ∈ o.bindings := by
  rw [Rgmap.mem_entries]
  constructor
  · rintro ⟨s,hs,x,hx,rfl⟩
    have hsl := h.slice s hs
    refine ⟨s.2,?_,?_⟩
    · rw [width_eq_of_last (hsl.width x hx)]
      exact hs
    · rw [range,← hsl.key x hx]
      exact hx
  · rintro ⟨o,hs,hx⟩
    exact ⟨_,hs,_,hx,rfl⟩

theorem Wf.noOverlap_iff {m : Slices V} (h : Wf m) : NoOverlap m ↔ ∀ s ∈ m.bindings, Apart s.2.bindings := by
  constructor
  · intro hn s hs
    have hsl := h.slice s hs
    refine (hsl.apart_iff (h.nonneg s hs)).mpr fun x hx y hy ho => ?_
    have he : width x.2 = width y.2 :=
      (width_eq_of_last (hsl.width x hx)).trans (width_eq_of_last (hsl.width y hy)).symm
    rw [hn x.2 (Rgmap.mem_entries.mpr ⟨s,hs,x,hx,rfl⟩) y.2 (Rgmap.mem_entries.mpr ⟨s,hs,y,hy,rfl⟩) he ho]
  · intro hd e he e' he' hw ho
    obtain ⟨o,ho1,hx⟩ := h.mem_entries.mp he
    obtain ⟨o',ho2,hy⟩ := h.mem_entries.mp he'
    rw [← hw] at ho2
    have hoo : some o = some o' := (h.ordered.find_eq_some.mpr ho1).symm.trans (h.ordered.find_eq_some.mpr ho2)
    cases hoo
    have hsl := h.slice _ ho1
    have hf := (hsl.apart_iff (h.nonneg _ ho1)).mp (hd _ ho1) _ hx _ hy ho
    exact congrArg Prod.snd (hsl.eq_of_first _ hx _ hy hf)

def offsetsFor (overlap : Bool) (entry : Entry V) (rmap : Slices V) : Offsets V :=
  match rmap.find Wmap.compare (width entry) with
  | some m =>
    if overlap && (1 : NativeInt).slt (width entry) then
      (m.remove Rmap.compare (entry.last,entry.last)).remove Rmap.compare (entry.first,entry.first)
    else m
  | none => .empty

theorem add_eq (overlap : Bool) (entry : Entry V) (rmap : Slices V) (h : 0 ≤ (width entry).toInt) :
    add overlap entry rmap = rmap.add Wmap.compare (width entry) replaced
      ((offsetsFor overlap entry rmap).add Rmap.compare (range entry) replaced entry) := by
  rw [add,if_pos (zero_sle.mpr h)]
  rfl

theorem add_eq_self (overlap : Bool) (entry : Entry V) (rmap : Slices V) (h : ¬ 0 ≤ (width entry).toInt) :
    add overlap entry rmap = rmap := by
  rw [add,if_neg (fun hs => h (zero_sle.mp hs))]

section
variable {m : Slices V} {e : Entry V}

theorem Wf.offsetsFor (h : Wf m) (hle : e.first.toInt ≤ e.last.toInt) (hw : 0 ≤ (width e).toInt) :
    Slice (width e) (offsetsFor true e m).bindings ∧
      ∀ x, x ∈ (offsetsFor true e m).bindings ↔ (∃ o, (width e,o) ∈ m.bindings ∧ x ∈ o.bindings) ∧
        (1 < (width e).toInt → ¬ Overlap x.2 e) := by
  have hlast := last_eq_of_width hle hw
  unfold Rgmap.offsetsFor
  cases hf : m.find Wmap.compare (width e) with
  | none =>
    refine ⟨⟨by simp,by simp,by simp⟩,fun x => ⟨fun hx => by simp at hx,fun ⟨⟨o,ho,_⟩,_⟩ => ?_⟩⟩
    rw [h.ordered.find_eq_some.mpr ho] at hf
    exact absurd hf (by simp)
  | some o =>
    have ho : (width e,o) ∈ m.bindings := h.ordered.find_eq_some.mp hf
    have hsl : Slice (width e) o.bindings := h.slice _ ho
    dsimp only
    have hmem : ∀ x, x ∈ o.bindings ↔ ∃ o', (width e,o') ∈ m.bindings ∧ x ∈ o'.bindings := fun x => by
      refine ⟨fun hx => ⟨o,ho,hx⟩,fun ⟨o',ho',hx⟩ => ?_⟩
      rw [h.ordered.find_eq_some.mpr ho'] at hf
      cases hf
      exact hx
    by_cases h1 : 1 < (width e).toInt
    · have hd : Apart o.bindings := h.apart _ ho (ne_of_gt h1)
      have hb1 := hsl.bindings_remove hd hw e.last
      have hsl1 : Slice (width e) (o.remove Rmap.compare (e.last,e.last)).bindings := hb1 ▸ hsl.filter _
      have hb2 := hsl1.bindings_remove (hb1 ▸ hd.filter _) hw e.first
      have hslt : (true && (1 : NativeInt).slt (width e)) = true := (one_slt).mpr h1
      rw [if_pos hslt,hb2]
      refine ⟨hsl1.filter _,fun x => ?_⟩
      rw [hb1,List.filter_filter,List.mem_filter,← hmem]
      refine and_congr_right fun hx => ?_
      have hwx := hsl.width x hx
      simp only [Overlap,decide_not,Bool.and_eq_true,Bool.not_eq_true',decide_eq_false_iff_not]
      omega
    · have hslt : ¬ (true && (1 : NativeInt).slt (width e)) = true := fun hs => h1 (one_slt.mp hs)
      rw [if_neg hslt]
      refine ⟨hsl,fun x => ?_⟩
      rw [hmem]
      exact (and_iff_left fun hlt => absurd hlt h1).symm

def newSlice (e : Entry V) (m : Slices V) : Offsets V :=
  (Rgmap.offsetsFor true e m).add Rmap.compare (range e) replaced e

theorem Wf.mem_newSlice (h : Wf m) (hle : e.first.toInt ≤ e.last.toInt) (hw : 0 ≤ (width e).toInt) {x : Binding V} :
    x ∈ (newSlice e m).bindings ↔ x = (range e,e) ∨
      ((∃ o, (width e,o) ∈ m.bindings ∧ x ∈ o.bindings) ∧ (1 < (width e).toInt → ¬ Overlap x.2 e)) ∧
        x.2.first ≠ e.first := by
  obtain ⟨hsl,hmem⟩ := h.offsetsFor hle hw
  rw [newSlice,hsl.mem_add (last_eq_of_width hle hw),hmem]

theorem Wf.apart_newSlice (h : Wf m) (hle : e.first.toInt ≤ e.last.toInt) (hw : 0 ≤ (width e).toInt)
    (hd : ∀ o, (width e,o) ∈ m.bindings → Apart o.bindings)
    (hok : (width e).toInt = 1 → ∀ o, (width e,o) ∈ m.bindings → ∀ x ∈ o.bindings, Overlap x.2 e → x.2.first = e.first) :
    Apart (newSlice e m).bindings := by
  have hlast := last_eq_of_width hle hw
  have hnew : Slice (width e) (newSlice e m).bindings := (h.offsetsFor hle hw).1.add hlast
  -- no entry that stays overlaps the new one
  have hstay : ∀ x : Binding V, ((∃ o, (width e,o) ∈ m.bindings ∧ x ∈ o.bindings) ∧ (1 < (width e).toInt → ¬ Overlap x.2 e)) →
      x.2.first ≠ e.first → ¬ Overlap x.2 e := fun x ⟨⟨o,ho,hx⟩,h1⟩ hne hov => by
    have hwx := (h.slice _ ho).width x hx
    rcases lt_trichotomy (width e).toInt 1 with hlt | heq | hgt
    · refine hne (BitVec.eq_of_toInt_eq ?_)
      have h1 := hov.1
      have h2 := hov.2
      dsimp only at hwx
      omega
    · exact hne (hok heq o ho x hx hov)
    · exact h1 hgt hov
  refine (hnew.apart_iff hw).mpr fun x hx y hy hov => ?_
  rcases (h.mem_newSlice hle hw).mp hx with rfl | ⟨hx,hxne⟩ <;> rcases (h.mem_newSlice hle hw).mp hy with rfl | ⟨hy,hyne⟩
  · rfl
  · exact absurd ⟨hov.2,hov.1⟩ (hstay y hy hyne)
  · exact absurd hov (hstay x hx hxne)
  · obtain ⟨⟨o,ho,hx⟩,-⟩ := hx
    obtain ⟨⟨o',ho',hy⟩,-⟩ := hy
    cases (h.ordered.find_eq_some.mpr ho).symm.trans (h.ordered.find_eq_some.mpr ho')
    exact ((h.slice _ ho).apart_iff hw).mp (hd o ho) x hx y hy hov

theorem Wf.mem_add (h : Wf m) (hw : 0 ≤ (width e).toInt) {s : NativeInt × Offsets V} :
    s ∈ (add true e m).bindings ↔ s = (width e,newSlice e m) ∨ s.1 ≠ width e ∧ s ∈ m.bindings := by
  rw [add_eq true e m hw,h.ordered.mem_add fun _ _ hs => Bool.noConfusion hs]
  exact or_congr_left (Prod.ext_iff (x := s) (y := (width e,newSlice e m))).symm

theorem add_wf (h : Wf m) (hle : e.first.toInt ≤ e.last.toInt) : Wf (add true e m) := by
  by_cases hw : 0 ≤ (width e).toInt
  · refine ⟨?_,fun s hs => ?_,fun s hs => ?_,fun s hs hne => ?_⟩
    · rw [add_eq true e m hw]
      exact h.ordered.add ..
    · rcases (h.mem_add hw).mp hs with rfl | ⟨-,hs⟩
      · exact hw
      · exact h.nonneg s hs
    · rcases (h.mem_add hw).mp hs with rfl | ⟨-,hs⟩
      · exact (h.offsetsFor hle hw).1.add (last_eq_of_width hle hw)
      · exact h.slice s hs
    · rcases (h.mem_add hw).mp hs with rfl | ⟨-,hs⟩
      · exact h.apart_newSlice hle hw (fun o ho => h.apart _ ho hne) fun h1 => absurd h1 hne
      · exact h.apart s hs hne
  · rw [add_eq_self true e m hw]
    exact h

theorem Wf.add_noOverlap (h : Wf m) (hle : e.first.toInt ≤ e.last.toInt) (hn : NoOverlap m) (hok : AddOk e m) :
    NoOverlap (add true e m) := by
  by_cases hw : 0 ≤ (width e).toInt
  · have hd := h.noOverlap_iff.mp hn
    refine (add_wf h hle).noOverlap_iff.mpr fun s hs => ?_
    rcases (h.mem_add hw).mp hs with rfl | ⟨-,hs⟩
    · refine h.apart_newSlice hle hw (fun o ho => hd _ ho) fun h1 o ho x hx hov => ?_
      have hr := hok h1 x.2 (Rgmap.mem_entries.mpr ⟨_,ho,x,hx,rfl⟩) (width_eq_of_last ((h.slice _ ho).width x hx)) hov
      exact congrArg Prod.fst hr
    · exact hd s hs
  · rw [add_eq_self true e m hw]
    exact hn

theorem Wf.addOk_of_noOverlap (h : Wf m) (hle : e.first.toInt ≤ e.last.toInt) (hn : NoOverlap (add true e m)) :
    AddOk e m := by
  intro h1 e' he' hww hov
  by_contra hne
  have hw : 0 ≤ (width e).toInt := by omega
  obtain ⟨o,ho,hx⟩ := h.mem_entries.mp he'
  rw [hww] at ho
  have hwx := (h.slice _ ho).width _ hx
  have hlast := last_eq_of_width hle hw
  have hfirst : e'.first ≠ e.first := fun hf => hne (Prod.ext hf (BitVec.eq_of_toInt_eq (by
    dsimp only [range] at hwx ⊢
    rw [hwx,hlast,hf])))
  have hnew : (width e,newSlice e m) ∈ (Rgmap.add true e m).bindings := (h.mem_add hw).mpr (.inl rfl)
  have hin : e ∈ entries (Rgmap.add true e m) :=
    (Rgmap.mem_entries).mpr ⟨_,hnew,_,(h.mem_newSlice hle hw).mpr (.inl rfl),rfl⟩
  have hin' : e' ∈ entries (Rgmap.add true e m) := by
    refine (Rgmap.mem_entries).mpr ⟨_,hnew,_,(h.mem_newSlice hle hw).mpr (.inr ⟨⟨⟨o,ho,hx⟩,fun hlt => ?_⟩,hfirst⟩),rfl⟩
    omega
  exact hne (congrArg range (hn e' hin' e hin hww hov))

end

/-- The entry covers the positions from `a` to `b`. -/
def Contains (e : Entry V) (a b : NativeInt) : Prop := e.first.toInt ≤ a.toInt ∧ b.toInt ≤ e.last.toInt

/-- An entry of least width among those that contain the range; none only when no entry does. -/
def FindRight (m : Slices V) (a b : NativeInt) : Option (Entry V) → Prop
  | some e => (e ∈ entries m ∧ Contains e a b) ∧ ∀ e' ∈ entries m, Contains e' a b → (width e).toInt ≤ (width e').toInt
  | none => ∀ e ∈ entries m, ¬ Contains e a b

def FindAllRight (m : Slices V) (a b : NativeInt) (l : List (Entry V)) : Prop :=
  (∀ e, e ∈ l ↔ e ∈ entries m ∧ Contains e a b) ∧ l.Pairwise fun e e' => (width e).toInt < (width e').toInt

/-- The width of the range does not overflow, or no entry lies inside the range. -/
def QueryOk (m : Slices V) (a b : NativeInt) : Prop :=
  0 ≤ (b - a).toInt ∨ ∀ e ∈ entries m, ¬ (a.toInt ≤ e.first.toInt ∧ e.last.toInt ≤ b.toInt)

def hit (a b : NativeInt) (s : NativeInt × Offsets V) : Option (Entry V) :=
  if (b - a).sle s.1 then s.2.find Rmap.compare (a,b) else none

theorem findAll_eq (a b : NativeInt) (m : Slices V) : findAll a b m = m.bindings.filterMap (hit a b) := by
  have acc : ∀ (l : List (NativeInt × Offsets V)) (found : List (Entry V)),
      l.foldl (fun found s => if (b - a).sle s.1 then
        match s.2.find Rmap.compare (a,b) with
        | some e => e :: found
        | none => found
        else found) found = (l.filterMap (hit a b)).reverse ++ found := by
    intro l
    induction l with
    | nil => exact fun found => rfl
    | cons s l ih =>
      intro found
      rw [List.foldl_cons,ih,List.filterMap_cons,hit]
      by_cases hw : (b - a).sle s.1 = true
      · rw [if_pos hw,if_pos hw]
        cases s.2.find Rmap.compare (a,b) with
        | none => rfl
        | some e => simp
      · rw [if_neg hw,if_neg hw]
  exact (congrArg List.reverse (acc m.bindings [])).trans (by simp)

theorem find_eq (a b : NativeInt) (m : Slices V) : find a b m = (findAll a b m).head? := by
  rw [findAll_eq,List.head?_filterMap]
  rfl

variable {m : Slices V}

theorem Wf.hit_some (h : Wf m) {a b : NativeInt} {s : NativeInt × Offsets V} (hs : s ∈ m.bindings) {e : Entry V}
    (hh : hit a b s = some e) : (b - a).toInt ≤ s.1.toInt ∧ (∃ x ∈ s.2.bindings, x.2 = e) ∧
      (a.toInt ≤ e.first.toInt ∨ b.toInt ≤ e.last.toInt) ∧ (e.first.toInt ≤ a.toInt ∨ e.last.toInt ≤ b.toInt) := by
  rw [hit] at hh
  split_ifs at hh with hw
  obtain ⟨v,hv,hc⟩ := Tree.find_some hh
  exact ⟨BitVec.sle_iff_toInt_le.mp hw,⟨_,hv,rfl⟩,((h.slice s hs).compare_eq hv).mp hc⟩

theorem Wf.width_eq (h : Wf m) {s : NativeInt × Offsets V} (hs : s ∈ m.bindings) {e : Entry V}
    (he : ∃ x ∈ s.2.bindings, x.2 = e) : e.last.toInt = e.first.toInt + s.1.toInt := by
  obtain ⟨x,hx,rfl⟩ := he
  exact (h.slice s hs).width x hx

theorem Wf.hit_isSome (h : Wf m) {a b : NativeInt} {s : NativeInt × Offsets V} (hs : s ∈ m.bindings) {x : Binding V}
    (hx : x ∈ s.2.bindings) (hw : (b - a).toInt ≤ s.1.toInt)
    (hc : (a.toInt ≤ x.2.first.toInt ∨ b.toInt ≤ x.2.last.toInt) ∧ (x.2.first.toInt ≤ a.toInt ∨ x.2.last.toInt ≤ b.toInt)) :
    ∃ e, hit a b s = some e := by
  rw [hit,if_pos (BitVec.sle_iff_toInt_le.mpr hw)]
  refine Option.ne_none_iff_exists'.mp fun hnone => ?_
  exact (Tree.find_eq_none ((h.slice s hs).cut _)).mp hnone x hx (((h.slice s hs).compare_eq hx).mpr hc)

section
variable {a b : NativeInt} (h : Wf m) (hab : a.toInt ≤ b.toInt)
include h hab

theorem Wf.hit_iff (hn : NoOverlap m) (hw : 0 ≤ (b - a).toInt) {s : NativeInt × Offsets V} (hs : s ∈ m.bindings)
    {e : Entry V} : hit a b s = some e ↔ (∃ x ∈ s.2.bindings, x.2 = e) ∧ Contains e a b := by
  have hsub := toInt_sub_of_nonneg hab hw
  have contains : ∀ {e : Entry V}, hit a b s = some e → Contains e a b := fun hh => by
    obtain ⟨hle,hx,hc⟩ := h.hit_some hs hh
    have hwx := h.width_eq hs hx
    rw [Contains]
    omega
  refine ⟨fun hh => ⟨(h.hit_some hs hh).2.1,contains hh⟩,fun ⟨⟨x,hx,he⟩,hc⟩ => ?_⟩
  subst he
  have hwx := (h.slice s hs).width x hx
  have hc' := hc
  obtain ⟨h1,h2⟩ := hc
  have hle : (b - a).toInt ≤ s.1.toInt := by omega
  obtain ⟨e',hh⟩ := h.hit_isSome hs hx hle ⟨.inr h2,.inl h1⟩
  -- both entries cover the position `a`
  obtain ⟨h1',h2'⟩ := contains hh
  obtain ⟨-,⟨y,hy,rfl⟩,-⟩ := h.hit_some hs hh
  have hov : Overlap x.2 y.2 := ⟨by omega,by omega⟩
  have hf := ((h.slice s hs).apart_iff (h.nonneg s hs)).mp (h.noOverlap_iff.mp hn s hs) x hx y hy hov
  rw [hh,(h.slice s hs).eq_of_first x hx y hy hf]

theorem Wf.not_contains_of_overflow (hw : ¬ 0 ≤ (b - a).toInt) {e : Entry V} (he : e ∈ entries m) : ¬ Contains e a b := by
  obtain ⟨s,hs,hx⟩ := (Rgmap.mem_entries).mp he
  have hwx := h.width_eq hs hx
  have hsub := sub_ge_of_overflow hab hw
  have hlt := BitVec.two_mul_toInt_lt (x := s.1)
  rintro ⟨h1,h2⟩
  omega

theorem Wf.inside_of_overflow (hw : ¬ 0 ≤ (b - a).toInt) {s : NativeInt × Offsets V} (hs : s ∈ m.bindings) {e : Entry V}
    (hh : hit a b s = some e) : e ∈ entries m ∧ a.toInt ≤ e.first.toInt ∧ e.last.toInt ≤ b.toInt := by
  obtain ⟨-,hx,hc⟩ := h.hit_some hs hh
  have hwx := h.width_eq hs hx
  have hsub := sub_ge_of_overflow hab hw
  have hlt := BitVec.two_mul_toInt_lt (x := s.1)
  have hge := h.nonneg s hs
  refine ⟨(Rgmap.mem_entries).mpr ⟨s,hs,hx⟩,?_⟩
  omega

theorem Wf.findAllRight_iff (hn : NoOverlap m) : FindAllRight m a b (findAll a b m) ↔ QueryOk m a b := by
  rw [findAll_eq]
  by_cases hw : 0 ≤ (b - a).toInt
  · refine iff_of_true ⟨fun e => ?_,?_⟩ (.inl hw)
    · rw [List.mem_filterMap,Rgmap.mem_entries]
      refine ⟨fun ⟨s,hs,hh⟩ => ?_,fun ⟨⟨s,hs,hx⟩,hc⟩ => ⟨s,hs,(h.hit_iff hab hn hw hs).mpr ⟨hx,hc⟩⟩⟩
      obtain ⟨hx,hc⟩ := (h.hit_iff hab hn hw hs).mp hh
      exact ⟨⟨s,hs,hx⟩,hc⟩
    · refine List.pairwise_filterMap.mpr (List.Pairwise.imp_of_mem (fun {s s'} hs hs' hlt e he e' he' => ?_) h.ordered)
      rw [width_eq_of_last (h.width_eq hs (h.hit_some hs he).2.1),
        width_eq_of_last (h.width_eq hs' (h.hit_some hs' he').2.1)]
      exact (Wmap.compare_eq_lt).mp hlt
  · refine Iff.trans ?_ (or_iff_right hw).symm
    constructor
    · rintro ⟨hmem,-⟩ e he ⟨h1,h2⟩
      obtain ⟨s,hs,x,hx,rfl⟩ := (Rgmap.mem_entries).mp he
      have hle : (b - a).toInt ≤ s.1.toInt := by
        have := h.nonneg s hs
        omega
      obtain ⟨e',hh⟩ := h.hit_isSome hs hx hle ⟨.inl h1,.inr h2⟩
      obtain ⟨he',hc⟩ := (hmem e').mp (List.mem_filterMap.mpr ⟨s,hs,hh⟩)
      exact h.not_contains_of_overflow hab hw he' hc
    · intro hin
      have hnil : m.bindings.filterMap (hit a b) = [] := List.filterMap_eq_nil_iff.mpr fun s hs =>
        Option.eq_none_iff_forall_not_mem.mpr fun e he => by
          obtain ⟨he,h1⟩ := h.inside_of_overflow hab hw hs he
          exact hin e he h1
      rw [hnil]
      exact ⟨fun e => ⟨fun he => absurd he (by simp),fun he => absurd he.2 (h.not_contains_of_overflow hab hw he.1)⟩,
        List.Pairwise.nil⟩

theorem Wf.findRight_iff (hn : NoOverlap m) : FindRight m a b (find a b m) ↔ QueryOk m a b := by
  rw [find_eq]
  by_cases hq : QueryOk m a b
  · refine iff_of_true ?_ hq
    obtain ⟨hmem,hpw⟩ := (h.findAllRight_iff hab hn).mpr hq
    cases hl : findAll a b m with
    | nil =>
      rw [hl] at hmem
      exact fun e he hc => absurd ((hmem e).mpr ⟨he,hc⟩) (by simp)
    | cons e l =>
      rw [hl] at hmem hpw
      refine ⟨(hmem e).mp List.mem_cons_self,fun e' he' hc' => ?_⟩
      rcases List.mem_cons.mp ((hmem e').mpr ⟨he',hc'⟩) with rfl | hin
      · exact le_refl _
      · exact le_of_lt ((List.pairwise_cons.mp hpw).1 e' hin)
  · refine iff_of_false (fun hr => ?_) hq
    -- an entry inside a range that overflows is found, and contains no such range
    obtain ⟨hw,hin⟩ := not_or.mp hq
    push Not at hin
    obtain ⟨e,he,h1,h2⟩ := hin
    obtain ⟨s,hs,x,hx,rfl⟩ := (Rgmap.mem_entries).mp he
    have hle : (b - a).toInt ≤ s.1.toInt := by
      have := h.nonneg s hs
      omega
    obtain ⟨e',hh⟩ := h.hit_isSome hs hx hle ⟨.inl h1,.inr h2⟩
    have hne : e' ∈ findAll a b m := by
      rw [findAll_eq]
      exact List.mem_filterMap.mpr ⟨s,hs,hh⟩
    cases hl : findAll a b m with
    | nil => simp [hl] at hne
    | cons e0 l =>
      rw [hl] at hr
      exact h.not_contains_of_overflow hab hw hr.1.1 hr.1.2

end

/-- The map after the insertions of `es` with `~overlap:true`. -/
def run (m : Slices V) (es : List (Entry V)) : Slices V := es.foldl (fun m e => add true e m) m

def RunOk : Slices V → List (Entry V) → Prop
  | _,[] => True
  | m,e :: es => AddOk e m ∧ RunOk (add true e m) es

theorem run_wf (hm : Wf m) {es : List (Entry V)} (hle : ∀ e ∈ es, e.first.toInt ≤ e.last.toInt) : Wf (run m es) := by
  induction es generalizing m with
  | nil => exact hm
  | cons e es ih =>
    obtain ⟨he,hes⟩ := List.forall_mem_cons.mp hle
    exact ih (add_wf hm he) hes

theorem runOk_iff (hm : Wf m) (hn : NoOverlap m) {es : List (Entry V)} (hle : ∀ e ∈ es, e.first.toInt ≤ e.last.toInt) :
    RunOk m es ↔ ∀ n, NoOverlap (run m (es.take n)) := by
  induction es generalizing m with
  | nil => exact iff_of_true trivial fun n => by simpa [run] using hn
  | cons e es ih =>
    obtain ⟨he,hes⟩ := List.forall_mem_cons.mp hle
    constructor
    · rintro ⟨hok,hrest⟩ n
      have hstep := hm.add_noOverlap he hn hok
      cases n with
      | zero => exact hn
      | succ n => exact (ih (add_wf hm he) hstep hes).mp hrest n
    · intro hall
      have hstep : NoOverlap (add true e m) := hall 1
      exact ⟨hm.addOk_of_noOverlap he hstep,(ih (add_wf hm he) hstep hes).mpr fun n => hall (n + 1)⟩

theorem empty_noOverlap : NoOverlap (empty : Slices V) := by
  intro e he
  simp [entries,empty] at he

/-- The states of a run keep entries of the same width apart exactly when every insertion of two
positions meets no other overlapping entry of two positions. Queries are then right except for the
entries that lie inside a range whose width overflows. -/
theorem run_correct (es : List (Entry V)) (hle : ∀ e ∈ es, e.first.toInt ≤ e.last.toInt) :
    (RunOk empty es ↔ ∀ n, NoOverlap (run empty (es.take n))) ∧
    (RunOk empty es → ∀ n a b, a.toInt ≤ b.toInt →
      let m := run empty (es.take n)
      (FindRight m a b (find a b m) ↔ QueryOk m a b) ∧ (FindAllRight m a b (findAll a b m) ↔ QueryOk m a b)) := by
  have hiff := runOk_iff empty_wf empty_noOverlap hle
  refine ⟨hiff,fun hok n a b hab => ?_⟩
  have hwf : Wf (run empty (es.take n)) := run_wf empty_wf fun e he => hle e (List.mem_of_mem_take he)
  exact ⟨hwf.findRight_iff hab (hiff.mp hok n),hwf.findAllRight_iff hab (hiff.mp hok n)⟩

theorem run_correct_three : let es := [Entry.mk 1 3 true,Entry.mk 3 5 false,Entry.mk 3 3 true]
    RunOk empty es ∧ NoOverlap (run empty es) ∧ FindRight (run empty es) 3 3 (find 3 3 (run empty es)) := by
  have h := run_correct [Entry.mk 1 3 true,Entry.mk 3 5 false,Entry.mk 3 3 true] (by decide)
  have hok : RunOk empty [Entry.mk 1 3 true,Entry.mk 3 5 false,Entry.mk 3 3 true] := by
    refine ⟨?_,?_,?_,trivial⟩
    all_goals exact fun h1 => absurd h1 (by decide)
  exact ⟨hok,h.1.mp hok 3,(h.2 hok 3 3 3 (by decide)).1.mpr (.inl (by decide))⟩

def minInt : NativeInt := 0x4000000000000000#63

def maxInt : NativeInt := 0x3fffffffffffffff#63

/-- Both entries of two positions stay although they share the position 2, where only one is returned;
the range of all integers, whose width overflows, returns the entry inside it. -/
theorem overlapping_entries_stay :
    let m := run empty [Entry.mk 1 2 true,Entry.mk 2 3 false]
    ¬ NoOverlap m ∧ findAll 2 2 m = [Entry.mk 1 2 true] ∧ ¬ FindAllRight m 2 2 (findAll 2 2 m) ∧
      let m0 := run empty [Entry.mk 0 0 true]
      find minInt maxInt m0 = some (Entry.mk 0 0 true) ∧
        ¬ FindRight m0 minInt maxInt (find minInt maxInt m0) := by
  have hall : findAll 2 2 (run empty [Entry.mk 1 2 true,Entry.mk 2 3 false]) = [Entry.mk 1 2 true] := by decide
  have hfind : find minInt maxInt (run empty [Entry.mk 0 0 true]) = some (Entry.mk 0 0 true) := by decide
  refine ⟨fun hn => ?_,hall,fun ⟨hmem,_⟩ => ?_,hfind,fun hr => ?_⟩
  · have := hn (Entry.mk 1 2 true) (by decide) (Entry.mk 2 3 false) (by decide) (by decide) (by unfold Overlap; decide)
    exact absurd this (by decide)
  · have := (hmem (Entry.mk 2 3 false)).mpr ⟨by decide,by unfold Contains; decide⟩
    rw [hall] at this
    exact absurd this (by decide)
  · rw [hfind] at hr
    exact absurd hr.1.2 (by unfold Contains; decide)

end FramaC.Rgmap
