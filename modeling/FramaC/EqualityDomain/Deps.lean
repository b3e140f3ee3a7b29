import Mathlib.Data.Finset.Basic
import Mathlib.Data.Finset.Lattice.Lemmas

/-! # Dependencies of equalities

`Deps` of `equality_domain.ml`: a map from terms to the zones they depend on, and the inverse map from the bases of the
zones to the terms. A base without binding in the inverse map and one bound to the empty set are not told apart, as the
code reads it by `find_default` only.
-/
namespace FramaC.EqualityDomain

set_option linter.unusedSectionVars false

/-- The intervals of a zone at one base. -/
class Intervals (I : Type) where
  join : I → I → I
  intersects : I → I → Bool
  intersects_join : ∀ x a b, intersects x (join a b) = (intersects x a || intersects x b)

structure Zone (B I : Type) where
  bases : List B
  itvs : B → I

namespace Zone

variable {B I : Type} [DecidableEq B] [Intervals I]

def join (z1 z2 : Zone B I) : Zone B I where
  bases := z1.bases ∪ z2.bases
  itvs b :=
    if b ∈ z1.bases then (if b ∈ z2.bases then Intervals.join (z1.itvs b) (z2.itvs b) else z1.itvs b) else z2.itvs b

def intersects (z1 z2 : Zone B I) : Bool :=
  z1.bases.any fun b => decide (b ∈ z2.bases) && Intervals.intersects (z1.itvs b) (z2.itvs b)

theorem intersects_iff (z1 z2 : Zone B I) : z1.intersects z2 = true ↔
    ∃ b, b ∈ z1.bases ∧ b ∈ z2.bases ∧ Intervals.intersects (z1.itvs b) (z2.itvs b) = true := by
  simp only [intersects,List.any_eq_true,Bool.and_eq_true,decide_eq_true_iff]

theorem mem_bases_join {z1 z2 : Zone B I} {b : B} : b ∈ (z1.join z2).bases ↔ b ∈ z1.bases ∨ b ∈ z2.bases :=
  List.mem_union_iff

theorem intersects_join_iff (z z1 z2 : Zone B I) :
    z.intersects (z1.join z2) = true ↔ z.intersects z1 = true ∨ z.intersects z2 = true := by
  simp only [intersects_iff,mem_bases_join]
  have hitvs : ∀ b, Intervals.intersects (z.itvs b) ((z1.join z2).itvs b) =
      if b ∈ z1.bases then (if b ∈ z2.bases then
        (Intervals.intersects (z.itvs b) (z1.itvs b) || Intervals.intersects (z.itvs b) (z2.itvs b))
        else Intervals.intersects (z.itvs b) (z1.itvs b)) else Intervals.intersects (z.itvs b) (z2.itvs b) := by
    intro b
    unfold join
    by_cases h1 : b ∈ z1.bases
    · by_cases h2 : b ∈ z2.bases
      · simp [h1,h2,Intervals.intersects_join]
      · simp [h1,h2]
    · simp [h1]
  constructor
  · rintro ⟨b,hb,hb12,hmeet⟩
    rw [hitvs] at hmeet
    by_cases h1 : b ∈ z1.bases
    · by_cases h2 : b ∈ z2.bases
      · rw [if_pos h1,if_pos h2,Bool.or_eq_true] at hmeet
        exact hmeet.imp (fun h => ⟨b,hb,h1,h⟩) (fun h => ⟨b,hb,h2,h⟩)
      · rw [if_pos h1,if_neg h2] at hmeet
        exact Or.inl ⟨b,hb,h1,hmeet⟩
    · rw [if_neg h1] at hmeet
      exact Or.inr ⟨b,hb,hb12.resolve_left h1,hmeet⟩
  · rintro (⟨b,hb,h1,hmeet⟩ | ⟨b,hb,h2,hmeet⟩)
    · refine ⟨b,hb,Or.inl h1,?_⟩
      rw [hitvs,if_pos h1,hmeet]
      split <;> simp
    · refine ⟨b,hb,Or.inr h2,?_⟩
      rw [hitvs,hmeet]
      split <;> simp

end Zone

structure Deps (E B I : Type) where
  m : E → Option (Zone B I)
  i : B → List E

namespace Deps

variable {E B I : Type} [DecidableEq E] [DecidableEq B] [Intervals I]

def empty : Deps E B I := ⟨fun _ => none,fun _ => []⟩

/-- The zones of the terms bound on both sides are united, the sets of terms are intersected for each base. -/
def join (d1 d2 : Deps E B I) : Deps E B I where
  m e := (d1.m e).bind fun z1 => (d2.m e).map fun z2 => z1.join z2
  i b := (d1.i b).filter fun e => decide (e ∈ d2.i b)

def concat (d1 d2 : Deps E B I) : Deps E B I where
  m e := Option.merge Zone.join (d1.m e) (d2.m e)
  i b := d1.i b ∪ d2.i b

def intersectsTerm (d : Deps E B I) (z : Zone B I) (acc : List E) (e : E) : List E :=
  (d.m e).elim acc fun ze => if z.intersects ze then e :: acc else acc

def intersects (d : Deps E B I) (z : Zone B I) : List E :=
  z.bases.foldl (fun acc b => (d.i b).foldl (d.intersectsTerm z) acc) []

def add (e : E) (z : Zone B I) (d : Deps E B I) : Deps E B I where
  m := Function.update d.m e (some z)
  i := z.bases.foldl (fun acc b => Function.update acc b ((d.i b).insert e)) d.i

def remove (e : E) (d : Deps E B I) : Deps E B I :=
  match d.m e with
  | none => d
  | some z =>
    { m := Function.update d.m e none
      i := z.bases.foldl (fun i b => Function.update i b ((i b).filter fun e' => decide (e' ≠ e))) d.i }

def Complete (d : Deps E B I) : Prop := ∀ e z, d.m e = some z → ∀ b ∈ z.bases, e ∈ d.i b

/-- A term bound on both sides is listed on each side at the bases of its zone on the other side. -/
def Listed (d1 d2 : Deps E B I) : Prop := ∀ e z1 z2, d1.m e = some z1 → d2.m e = some z2 →
  (∀ b ∈ z1.bases, e ∈ d2.i b) ∧ ∀ b ∈ z2.bases, e ∈ d1.i b

theorem complete_empty : Complete (empty : Deps E B I) := by
  intro e z hz
  cases hz

theorem foldl_insert_i (e : E) (d : Deps E B I) (bs : List B) (acc : B → List E) (b : B) :
    (bs.foldl (fun acc b => Function.update acc b ((d.i b).insert e)) acc) b =
      if b ∈ bs then (d.i b).insert e else acc b := by
  induction bs generalizing acc with
  | nil => rfl
  | cons c bs ih =>
    rw [List.foldl_cons,ih]
    by_cases hbs : b ∈ bs
    · simp [hbs]
    · by_cases hbc : b = c
      · subst hbc
        simp [hbs]
      · simp [hbs,hbc]

theorem complete_add {d : Deps E B I} (h : d.Complete) (e : E) (z : Zone B I) : (d.add e z).Complete := by
  intro e' z' hz' b hb
  have hi : (d.add e z).i b = if b ∈ z.bases then (d.i b).insert e else d.i b := foldl_insert_i e d z.bases d.i b
  rw [hi]
  by_cases he : e' = e
  · subst he
    have hm : (d.add e' z).m e' = some z := Function.update_self ..
    rw [hm] at hz'
    cases hz'
    rw [if_pos hb]
    exact List.mem_insert_self
  · have hm : (d.add e z).m e' = d.m e' := Function.update_of_ne he ..
    rw [hm] at hz'
    have hmem := h e' z' hz' b hb
    split
    · exact List.mem_insert_of_mem hmem
    · exact hmem

theorem foldl_filter_i (e : E) (bs : List B) (i : B → List E) (b : B) {e' : E} (hne : e' ≠ e) :
    e' ∈ (bs.foldl (fun i b => Function.update i b ((i b).filter fun e' => decide (e' ≠ e))) i) b ↔ e' ∈ i b := by
  induction bs generalizing i with
  | nil => rfl
  | cons c bs ih =>
    rw [List.foldl_cons,ih]
    by_cases hbc : b = c
    · subst hbc
      simp [hne]
    · simp [hbc]

theorem complete_remove {d : Deps E B I} (h : d.Complete) (e : E) : (d.remove e).Complete := by
  unfold remove
  cases he : d.m e with
  | none => exact h
  | some z =>
    intro e' z' hz' b hb
    have hne : e' ≠ e := by
      rintro rfl
      simp at hz'
    simp only [Function.update_of_ne hne] at hz'
    exact (foldl_filter_i e z.bases d.i b hne).2 (h e' z' hz' b hb)

theorem complete_concat {d1 d2 : Deps E B I} (h1 : d1.Complete) (h2 : d2.Complete) : (d1.concat d2).Complete := by
  intro e z hz b hb
  simp only [concat] at hz ⊢
  rw [List.mem_union_iff]
  cases hm1 : d1.m e with
  | none =>
    cases hm2 : d2.m e with
    | none =>
      rw [hm1,hm2] at hz
      cases hz
    | some z2 =>
      rw [hm1,hm2] at hz
      cases hz
      exact Or.inr (h2 e z hm2 b hb)
  | some z1 =>
    cases hm2 : d2.m e with
    | none =>
      rw [hm1,hm2] at hz
      cases hz
      exact Or.inl (h1 e z hm1 b hb)
    | some z2 =>
      rw [hm1,hm2] at hz
      cases hz
      exact (Zone.mem_bases_join.1 hb).imp (h1 e z1 hm1 b) (h2 e z2 hm2 b)

theorem join_m_eq_some {d1 d2 : Deps E B I} {e : E} {z : Zone B I} :
    (d1.join d2).m e = some z ↔ ∃ z1 z2, d1.m e = some z1 ∧ d2.m e = some z2 ∧ z1.join z2 = z := by
  simp only [join,Option.bind_eq_some_iff,Option.map_eq_some_iff]
  constructor
  · rintro ⟨z1,h1,z2,h2,h⟩
    exact ⟨z1,z2,h1,h2,h⟩
  · rintro ⟨z1,z2,h1,h2,h⟩
    exact ⟨z1,h1,z2,h2,h⟩

theorem complete_join_iff {d1 d2 : Deps E B I} (h1 : d1.Complete) (h2 : d2.Complete) :
    (d1.join d2).Complete ↔ Listed d1 d2 := by
  have hi : ∀ b e, e ∈ (d1.join d2).i b ↔ e ∈ d1.i b ∧ e ∈ d2.i b := by
    intro b e
    simp [join]
  constructor
  · intro h e z1 z2 hz1 hz2
    have hmem := h e _ (join_m_eq_some.2 ⟨z1,z2,hz1,hz2,rfl⟩)
    constructor
    · intro b hb
      exact ((hi b e).1 (hmem b (Zone.mem_bases_join.2 (Or.inl hb)))).2
    · intro b hb
      exact ((hi b e).1 (hmem b (Zone.mem_bases_join.2 (Or.inr hb)))).1
  · intro h e z hz b hb
    obtain ⟨z1,z2,hz1,hz2,rfl⟩ := (join_m_eq_some).1 hz
    obtain ⟨hl1,hl2⟩ := h e z1 z2 hz1 hz2
    apply (hi b e).2
    rcases (Zone.mem_bases_join).1 hb with hb | hb
    · exact ⟨h1 e z1 hz1 b hb,hl1 b hb⟩
    · exact ⟨hl2 b hb,h2 e z2 hz2 b hb⟩

theorem mem_foldl_intersectsTerm (d : Deps E B I) (z : Zone B I) (l acc : List E) (e : E) :
    e ∈ l.foldl (d.intersectsTerm z) acc ↔
      e ∈ acc ∨ (e ∈ l ∧ ∃ ze, d.m e = some ze ∧ z.intersects ze = true) := by
  induction l generalizing acc with
  | nil => simp
  | cons a l ih =>
    have hstep : e ∈ d.intersectsTerm z acc a ↔
        e ∈ acc ∨ (e = a ∧ ∃ ze, d.m e = some ze ∧ z.intersects ze = true) := by
      unfold intersectsTerm
      cases hm : d.m a with
      | none =>
        simp only [Option.elim_none]
        constructor
        · exact Or.inl
        · rintro (h | ⟨rfl,ze,hze,_⟩)
          · exact h
          · rw [hm] at hze
            cases hze
      | some za =>
        simp only [Option.elim_some]
        by_cases hmeet : z.intersects za = true
        · rw [if_pos hmeet,List.mem_cons]
          constructor
          · rintro (rfl | h)
            · exact Or.inr ⟨rfl,za,hm,hmeet⟩
            · exact Or.inl h
          · rintro (h | ⟨rfl,_⟩)
            · exact Or.inr h
            · exact Or.inl rfl
        · rw [if_neg hmeet]
          constructor
          · exact Or.inl
          · rintro (h | ⟨rfl,ze,hze,hm'⟩)
            · exact h
            · rw [hm] at hze
              cases hze
              exact absurd hm' hmeet
    rw [List.foldl_cons,ih,hstep,List.mem_cons,or_assoc,or_and_right]

theorem mem_intersects_iff (d : Deps E B I) (z : Zone B I) (e : E) :
    e ∈ d.intersects z ↔ (∃ b ∈ z.bases, e ∈ d.i b) ∧ ∃ ze, d.m e = some ze ∧ z.intersects ze = true := by
  have hfold : ∀ (bs : List B) (acc : List E),
      e ∈ bs.foldl (fun acc b => (d.i b).foldl (d.intersectsTerm z) acc) acc ↔
        e ∈ acc ∨ ((∃ b ∈ bs, e ∈ d.i b) ∧ ∃ ze, d.m e = some ze ∧ z.intersects ze = true) := by
    intro bs
    induction bs with
    | nil =>
      intro acc
      simp
    | cons b bs ih =>
      intro acc
      rw [List.foldl_cons,ih,mem_foldl_intersectsTerm]
      simp only [List.mem_cons,exists_eq_or_imp]
      rw [or_assoc,or_and_right]
  unfold intersects
  rw [hfold]
  simp

theorem Complete.mem_intersects_iff {d : Deps E B I} (h : d.Complete) (z : Zone B I) (e : E) :
    e ∈ d.intersects z ↔ ∃ ze, d.m e = some ze ∧ z.intersects ze = true := by
  rw [Deps.mem_intersects_iff,and_iff_right_iff_imp]
  rintro ⟨ze,hm,hmeet⟩
  obtain ⟨b,hb,hbe,_⟩ := (Zone.intersects_iff z ze).1 hmeet
  exact ⟨b,hb,h e ze hm b hbe⟩

end Deps

end FramaC.EqualityDomain
