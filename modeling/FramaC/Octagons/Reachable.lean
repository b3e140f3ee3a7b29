import FramaC.Octagons.Transfer

/-! # Reachable octagon states

The states built from the empty one by the operations of the domain, and the soundness of the
operations on them.
-/
namespace FramaC.Octagons
open Hptmap Outcome
variable {X I Z : Type} [DecidableEq X] [Variable X] [Key (Pair X)] [DecidableEq I] [IvalOps I] [ZoneOps Z]

/-- The states reachable from the empty one. -/
inductive Reachable (c : Settings) : State X I Z → Prop
  | empty : Reachable c State.empty
  | join {s1 s2 : State X I Z} (h1 : Reachable c s1) (h2 : Reachable c s2) : Reachable c (State.join c s1 s2)
  | widen {s1 s2 : State X I Z} (h1 : Reachable c s1) (h2 : Reachable c s2) : Reachable c (State.widen c s1 s2)
  | narrow {s1 s2 s : State X I Z} (h1 : Reachable c s1) (h2 : Reachable c s2) (h : State.narrow s1 s2 = some s) :
      Reachable c s
  | addOctagon {s s' : State X I Z} (o : Octagon X I) (hs : Reachable c s)
      (h : State.addOctagon c s o = .ok (some s')) : Reachable c s'
  | remove {s s' : State X I Z} (x : X) (hs : Reachable c s) (h : State.remove s x = .ok s') : Reachable c s'
  | subDelta {s s' : State X I Z} (inverse : Bool) (x : X) (delta : I) (hs : Reachable c s)
      (h : State.subDelta inverse s x delta = .ok s') : Reachable c s'

theorem Reachable.wf {c : Settings} {s : State X I Z} (h : Reachable c s) : s.Wf := by
  induction h with
  | empty => exact State.empty_wf
  | join _ _ ih1 ih2 => exact (State.join_spec ih1 ih2 c).1
  | widen _ _ ih1 ih2 => exact (State.widen_spec ih1 ih2 c).1
  | narrow _ _ h ih1 ih2 => exact (State.narrow_spec ih1 ih2).1 _ h
  | addOctagon o _ h ih =>
    have hsat := State.addOctagon_spec c ih o
    rw [h] at hsat
    exact hsat.1 _ rfl
  | remove x _ h ih =>
    obtain ⟨s',hs',hw,_⟩ := State.remove_spec ih x
    rw [h] at hs'
    cases hs'
    exact hw
  | subDelta inverse x delta _ h ih =>
    rename_i s s' _
    cases hf : s.relations.find x with
    | none =>
      simp only [State.subDelta,hf] at h
      cases h
    | some r =>
      obtain ⟨s1,hs1,hw,_⟩ := State.subDelta_spec inverse delta ih (by rw [hf]; rfl : (s.relations.find x).isSome)
      rw [h] at hs1
      cases hs1
      exact hw

/-- The variables of every bound pair are related both ways, and a removed variable is in no bound pair. -/
theorem reachable_related {X I Z : Type} [DecidableEq X] [Variable X] [Key (Pair X)] [DecidableEq I] [IvalOps I]
    [ZoneOps Z] (c : Settings) {s : State X I Z} (h : Reachable c s) :
    (∀ pair d, s.octagons.find pair = some d →
      Related s.relations pair.fst pair.snd ∧ Related s.relations pair.snd pair.fst) ∧
    ∀ x, ∃ s', State.remove s x = .ok s' ∧ ∀ pair d, s'.octagons.find pair = some d → pair.fst ≠ x ∧ pair.snd ≠ x := by
  refine ⟨h.wf.related,?_⟩
  intro x
  obtain ⟨s',hs',_,_,hpairs⟩ := State.remove_spec h.wf x
  exact ⟨s',hs',fun pair d hd => (hpairs pair d hd).2⟩

structure Bounds where
  lower : Option ℤ
  upper : Option ℤ
  deriving DecidableEq

namespace Bounds

def concr (a : Bounds) : Set ℤ := {u | (∀ l ∈ a.lower, l ≤ u) ∧ ∀ h ∈ a.upper, u ≤ h}

def both (f : ℤ → ℤ → ℤ) (a b : Option ℤ) : Option ℤ := a.bind fun x => b.map (f x)

def either (f : ℤ → ℤ → ℤ) : Option ℤ → Option ℤ → Option ℤ
  | none, b => b
  | a, none => a
  | some x, some y => some (f x y)

instance : IvalOps Bounds where
  top := ⟨none,none⟩
  isBottom a := (both (fun l h => if h < l then 1 else 0) a.lower a.upper) == some 1
  isIncluded a b := (b.lower == none || both max a.lower b.lower == a.lower && a.lower != none) &&
    (b.upper == none || both min a.upper b.upper == a.upper && a.upper != none)
  join a b := ⟨both min a.lower b.lower,both max a.upper b.upper⟩
  widen a b := ⟨if both min a.lower b.lower = a.lower then a.lower else none,
    if both max a.upper b.upper = a.upper then a.upper else none⟩
  narrow a b := ⟨either max a.lower b.lower,either min a.upper b.upper⟩
  addInt a b := ⟨both (· + ·) a.lower b.lower,both (· + ·) a.upper b.upper⟩
  subInt a b := ⟨both (· - ·) a.lower b.upper,both (· - ·) a.upper b.lower⟩
  negInt a := ⟨a.upper.map fun h => -h,a.lower.map fun l => -l⟩
  injectRange l h := ⟨some l,some h⟩

theorem mem_both {f : ℤ → ℤ → ℤ} {a b : Option ℤ} {z : ℤ} : z ∈ both f a b ↔ ∃ x ∈ a, ∃ y ∈ b, f x y = z := by
  cases a <;> cases b <;> simp [both]

theorem mem_either {f : ℤ → ℤ → ℤ} {a b : Option ℤ} {z : ℤ} (h : z ∈ either f a b) :
    z ∈ a ∨ z ∈ b ∨ ∃ x ∈ a, ∃ y ∈ b, f x y = z := by
  cases a <;> cases b <;> simp_all [either]

theorem join_mem (a b : Bounds) (u : ℤ) (h : u ∈ a.concr ∨ u ∈ b.concr) : u ∈ (IvalOps.join a b).concr := by
  constructor
  · intro l hl
    obtain ⟨x,hx,y,hy,rfl⟩ := (mem_both).mp hl
    exact min_le_iff.mpr (h.imp (fun h => h.1 x hx) fun h => h.1 y hy)
  · intro l hl
    obtain ⟨x,hx,y,hy,rfl⟩ := (mem_both).mp hl
    exact le_max_iff.mpr (h.imp (fun h => h.2 x hx) fun h => h.2 y hy)

theorem sound : IvalOps.Sound concr where
  top u := ⟨by simp [IvalOps.top],by simp [IvalOps.top]⟩
  isBottom a h u hu := by
    have hb : (1 : ℤ) ∈ both (fun l h => if h < l then 1 else 0) a.lower a.upper := by
      simpa [IvalOps.isBottom] using h
    obtain ⟨x,hx,y,hy,hxy⟩ := (mem_both).mp hb
    have hlt : y < x := by
      by_contra hle
      simp [hle] at hxy
    have h1 := hu.1 x hx
    have h2 := hu.2 y hy
    omega
  join := join_mem
  widen a b u h := by
    have hj := join_mem a b u h
    constructor
    · intro l hl
      simp only [IvalOps.widen] at hl
      split at hl
      · next heq =>
        rw [← heq] at hl
        exact hj.1 l hl
      · cases hl
    · intro l hl
      simp only [IvalOps.widen] at hl
      split at hl
      · next heq =>
        rw [← heq] at hl
        exact hj.2 l hl
      · cases hl
  narrow a b u ha hb := by
    constructor
    · intro l hl
      rcases mem_either hl with h | h | ⟨x,hx,y,hy,rfl⟩
      · exact ha.1 l h
      · exact hb.1 l h
      · exact max_le (ha.1 x hx) (hb.1 y hy)
    · intro l hl
      rcases mem_either hl with h | h | ⟨x,hx,y,hy,rfl⟩
      · exact ha.2 l h
      · exact hb.2 l h
      · exact le_min (ha.2 x hx) (hb.2 y hy)
  addInt a b u v ha hb := by
    constructor
    · intro l hl
      obtain ⟨x,hx,y,hy,rfl⟩ := (mem_both).mp hl
      exact add_le_add (ha.1 x hx) (hb.1 y hy)
    · intro l hl
      obtain ⟨x,hx,y,hy,rfl⟩ := (mem_both).mp hl
      exact add_le_add (ha.2 x hx) (hb.2 y hy)
  subInt a b u v ha hb := by
    constructor
    · intro l hl
      obtain ⟨x,hx,y,hy,rfl⟩ := (mem_both).mp hl
      exact sub_le_sub (ha.1 x hx) (hb.2 y hy)
    · intro l hl
      obtain ⟨x,hx,y,hy,rfl⟩ := (mem_both).mp hl
      exact sub_le_sub (ha.2 x hx) (hb.1 y hy)
  negInt a u ha := by
    constructor
    · intro l hl
      obtain ⟨x,hx,rfl⟩ := Option.mem_map.mp hl
      exact neg_le_neg (ha.2 x hx)
    · intro l hl
      obtain ⟨x,hx,rfl⟩ := Option.mem_map.mp hl
      exact neg_le_neg (ha.1 x hx)

end Bounds

/-- Three variables of type `int`. -/
instance threeVariables : Variable (Fin 3) where
  id i := BitVec.ofNat 63 i
  id_injective := by decide
  id_nonneg := by decide
  vtype _ := ⟨"int",⟨32,true⟩⟩

instance threePairs : Key (Pair (Fin 3)) where
  id p := BitVec.ofNat 63 (3 * p.fst + p.snd)
  id_injective p q h := by
    obtain ⟨a,b,hab⟩ := p
    obtain ⟨c,d,hcd⟩ := q
    have key : ∀ a b c d : Fin 3, BitVec.ofNat 63 (3 * (a : ℕ) + b) = BitVec.ofNat 63 (3 * (c : ℕ) + d) →
        a = c ∧ b = d := by decide
    obtain ⟨rfl,rfl⟩ := key a b c d h
    rfl
  id_nonneg p := by
    obtain ⟨a,b,_⟩ := p
    revert a b
    decide

instance unitZone : ZoneOps Unit := ⟨(),fun _ _ => (),fun _ _ => ()⟩

def sumOctagon : Octagon (Fin 3) Bounds := ⟨⟨0,1,by decide⟩,.add,⟨some 3,some 5⟩⟩

theorem sumOctagon_holds : sumOctagon.Holds Bounds.concr fun x : Fin 3 => ((x : ℕ) : ℤ) + 1 := by
  constructor
  · intro l hl
    obtain rfl : (3 : ℤ) = l := by simpa [sumOctagon] using hl
    decide
  · intro l hl
    obtain rfl : (5 : ℤ) = l := by simpa [sumOctagon] using hl
    decide

theorem empty_satisfies (env : Fin 3 → ℤ) : (State.empty : State (Fin 3) Bounds Unit).Satisfies Bounds.concr env :=
  ⟨fun _ _ h => (by cases h),fun _ _ h => (by cases h)⟩

theorem reachable_related_sum : ∃ s s' : State (Fin 3) Bounds Unit,
    State.addOctagon ⟨true,true⟩ State.empty sumOctagon = .ok (some s) ∧ State.remove s 0 = .ok s' ∧
      ∀ pair d, s'.octagons.find pair = some d → pair.fst ≠ 0 ∧ pair.snd ≠ 0 := by
  have hempty : (State.empty : State (Fin 3) Bounds Unit).Wf := State.empty_wf
  obtain ⟨r,hr,_,hsat⟩ := (State.addOctagon_spec ⟨true,true⟩ hempty sumOctagon).exists_ok
  obtain ⟨s,rfl,_⟩ := hsat Bounds.concr Bounds.sound _ (empty_satisfies _) sumOctagon_holds
  obtain ⟨s',hs',hpairs⟩ := (reachable_related ⟨true,true⟩ (.addOctagon sumOctagon .empty hr)).2 0
  exact ⟨s,s',hr,hs',hpairs⟩

end FramaC.Octagons
