import FramaC.Offsetmap.FoldJoin

/-! # The intervals of a fold

The calls of a fold cover the positions of the map that are in the set, within the intervals of the
map. A position is presented twice when the descent meets two disjoint intervals around it.
-/
namespace FramaC.Offsetmap
open IntIntervalsMap Simulation
variable {V R : Type}

namespace FoldJoin

def Call.Covers (c : Call V) (b : ℤ) : Prop := c.lo ≤ b ∧ b ≤ c.hi

instance (c : Call V) (b : ℤ) : Decidable (c.Covers b) := inferInstanceAs (Decidable (_ ∧ _))

def times (b : ℤ) (l : List (Call V)) : ℕ := l.countP fun c => c.Covers b

def Shaped (x : ℤ × Offsetmap V) : Prop := ∃ lo hi, Shape lo hi x.1 x.2

def Bound (x : ℤ × Offsetmap V) (b : ℤ) : Prop := ∃ v, HasVal (segs x.1 x.2) b v

inductive Part : ℤ × Offsetmap V → ℤ × Offsetmap V → Prop
  | self (x : ℤ × Offsetmap V) : Part x x
  | left (o : ℤ) (c : Cell V) : Part (o + c.offl,c.subl) (o,c.node)
  | right (o : ℤ) (c : Cell V) : Part (o + c.offr,c.subr) (o,c.node)

theorem Part.shaped {x' x : ℤ × Offsetmap V} (h : Part x' x) (hx : Shaped x) : Shaped x' := by
  cases h with
  | self => exact hx
  | left o c =>
    obtain ⟨lo,hi,hs⟩ := hx
    exact ⟨_,_,hs.2.1⟩
  | right o c =>
    obtain ⟨lo,hi,hs⟩ := hx
    exact ⟨_,_,hs.2.2.1⟩

theorem Part.segs_subset {x' x : ℤ × Offsetmap V} (h : Part x' x) : segs x'.1 x'.2 ⊆ segs x.1 x.2 := by
  cases h with
  | self => exact List.Subset.refl _
  | left o c => exact List.subset_append_left _ _
  | right o c => exact fun s hs => List.mem_append_right _ (List.mem_cons_of_mem _ hs)

theorem Part.hasVal {x' x : ℤ × Offsetmap V} (h : Part x' x) {b : ℤ} {v : V} (hv : HasVal (segs x'.1 x'.2) b v) :
    HasVal (segs x.1 x.2) b v := by
  obtain ⟨s,hs,hb⟩ := hv
  exact ⟨s,h.segs_subset hs,hb⟩

theorem count_subl (c : Cell V) : count c.subl < count c.node := by
  simp only [Cell.node,count]
  omega

theorem count_subr (c : Cell V) : count c.subr < count c.node := by
  simp only [Cell.node,count]
  omega

theorem calls_cell_false (x : ℤ × Offsetmap V) (o2 : ℤ) {c2 : Cell Bool} (hv : c2.v = false) :
    calls x (o2,c2.node) = calls x (o2 + c2.offl,c2.subl) ++ calls x (o2 + c2.offr,c2.subr) := by
  rw [Cell.node,hv,calls_false]

theorem mem_calls_cases {o1 : ℤ} {c1 : Cell V} {o2 : ℤ} {c2 : Cell Bool} {k : Call V}
    (h : k ∈ calls (o1,c1.node) (o2,c2.node)) :
    (c2.v = true ∧ k = ⟨max o1 o2,min (c1.max + o1) (c2.max + o2),c1.v⟩ ∧ o2 ≤ c1.max + o1 ∧ o1 ≤ c2.max + o2) ∨
      ∃ x y, k ∈ calls x y ∧ Part x (o1,c1.node) ∧ Part y (o2,c2.node) ∧
        count x.2 + count y.2 < count c1.node + count c2.node := by
  have hl1 := count_subl c1
  have hr1 := count_subr c1
  have hl2 := count_subl c2
  have hr2 := count_subr c2
  have hfst : ∀ {x}, Part x (o1,c1.node) → count x.2 < count c1.node → k ∈ calls x (o2,c2.node) →
      ∃ x y, k ∈ calls x y ∧ Part x (o1,c1.node) ∧ Part y (o2,c2.node) ∧
        count x.2 + count y.2 < count c1.node + count c2.node :=
    fun hp hlt hk => ⟨_,_,hk,hp,.self _,Nat.add_lt_add_right hlt _⟩
  have hsnd : ∀ {y}, Part y (o2,c2.node) → count y.2 < count c2.node → k ∈ calls (o1,c1.node) y →
      ∃ x y, k ∈ calls x y ∧ Part x (o1,c1.node) ∧ Part y (o2,c2.node) ∧
        count x.2 + count y.2 < count c1.node + count c2.node :=
    fun hp hlt hk => ⟨_,_,hk,.self _,hp,Nat.add_lt_add_left hlt _⟩
  cases hv : c2.v with
  | false =>
    right
    rw [calls_cell_false _ _ hv,List.mem_append] at h
    rcases h with h | h
    · exact hsnd (.left o2 c2) hl2 h
    · exact hsnd (.right o2 c2) hr2 h
  | true =>
    rw [calls_true o1 c1 o2 c2 hv] at h
    split_ifs at h with h1 h2
    · right
      rcases List.mem_append.mp h with h | h
      · exact hsnd (.left o2 c2) hl2 h
      · exact hfst (.right o1 c1) hr1 h
    · right
      rcases List.mem_append.mp h with h | h
      · exact hsnd (.right o2 c2) hr2 h
      · exact hfst (.left o1 c1) hl1 h
    · rcases List.mem_append.mp h with h | h
      · rcases List.mem_cons.mp h with rfl | h
        · exact .inl ⟨rfl,rfl,by omega,by omega⟩
        · right
          unfold rightCalls at h
          split_ifs at h
          · exact ⟨_,_,h,.right o1 c1,.right o2 c2,Nat.add_lt_add hr1 hr2⟩
          · exact hsnd (.right o2 c2) hr2 h
          · exact hfst (.right o1 c1) hr1 h
      · right
        unfold leftCalls at h
        split_ifs at h
        · exact ⟨_,_,h,.left o1 c1,.left o2 c2,Nat.add_lt_add hl1 hl2⟩
        · exact hfst (.left o1 c1) hl1 h
        · exact hsnd (.left o2 c2) hl2 h

theorem pair_induction {P : ℤ × Offsetmap V → Itvs → Prop}
    (h : ∀ x y, (∀ x' y', count x'.2 + count y'.2 < count x.2 + count y.2 → P x' y') → P x y) (x : ℤ × Offsetmap V)
    (y : Itvs) : P x y := by
  induction hn : count x.2 + count y.2 using Nat.strong_induction_on generalizing x y with
  | _ n ih => exact h x y fun x' y' hlt => ih _ (by omega) x' y' rfl

theorem exists_cell {x : ℤ × Offsetmap V} (h : x.2 ≠ .empty) : ∃ (o : ℤ) (c : Cell V), x = (o,c.node) := by
  obtain ⟨o,t⟩ := x
  cases t with
  | empty => exact absurd rfl h
  | node max offl subl offr subr rem modu v => exact ⟨o,⟨max,offl,subl,offr,subr,rem,modu,v⟩,rfl⟩

/-- A call on a non-empty interval, within an interval of the map with its value, and within the set. -/
structure Call.Within (k : Call V) (x : ℤ × Offsetmap V) (y : Itvs) : Prop where
  le : k.lo ≤ k.hi
  seg : ∃ s ∈ segs x.1 x.2, s.v = k.v ∧ s.lo ≤ k.lo ∧ k.hi ≤ s.hi
  mem : ∀ b, k.Covers b → b ∈ bits y

theorem within_of_mem_calls {x : ℤ × Offsetmap V} {y : Itvs} (hx : Shaped x) (hy : Shaped y) {k : Call V}
    (h : k ∈ calls x y) : k.Within x y := by
  revert hx hy h
  refine pair_induction (P := fun x y => Shaped x → Shaped y → k ∈ calls x y → k.Within x y) ?_ x y
  intro x y ih hx hy h
  have hne1 : x.2 ≠ .empty := by
    intro he
    obtain ⟨o1,t1⟩ := x
    obtain rfl : t1 = .empty := he
    simp at h
  have hne2 : y.2 ≠ .empty := by
    intro he
    obtain ⟨o2,t2⟩ := y
    obtain rfl : t2 = .empty := he
    simp at h
  obtain ⟨o1,c1,rfl⟩ := exists_cell hne1
  obtain ⟨o2,c2,rfl⟩ := exists_cell hne2
  obtain ⟨lo1,hi1,hs1⟩ := hx
  obtain ⟨lo2,hi2,hs2⟩ := hy
  rcases mem_calls_cases h with ⟨hv,rfl,h1,h2⟩ | ⟨x,y,hk,hpx,hpy,hlt⟩
  · obtain ⟨-,hmax1,-⟩ := hs1.root_le
    obtain ⟨-,hmax2,-⟩ := hs2.root_le
    refine ⟨?_,⟨c1.seg o1,?_,rfl,?_,?_⟩,fun b hb => ?_⟩
    · dsimp only
      omega
    · exact List.mem_append_right _ List.mem_cons_self
    · exact le_max_left _ _
    · simp only [Cell.seg]
      omega
    · obtain ⟨hb1,hb2⟩ := hb
      dsimp only at hb1 hb2
      exact (hasVal_root hs2 (by omega) (by omega)).mpr hv
  · obtain ⟨i1,⟨s,hs,i2⟩,i3⟩ := ih x y hlt (hpx.shaped ⟨_,_,hs1⟩) (hpy.shaped ⟨_,_,hs2⟩) hk
    exact ⟨i1,⟨s,hpx.segs_subset hs,i2⟩,fun b hb => hpy.hasVal (i3 b hb)⟩

theorem times_eq_zero {x : ℤ × Offsetmap V} {y : Itvs} (hx : Shaped x) (hy : Shaped y) {b : ℤ}
    (h : ¬ (Bound x b ∧ b ∈ bits y)) : times b (calls x y) = 0 := by
  rw [times,List.countP_eq_zero]
  intro k hk hcov
  have hb : k.Covers b := of_decide_eq_true hcov
  obtain ⟨_,⟨s,hs,_,h3,h4⟩,h5⟩ := within_of_mem_calls hx hy hk
  exact h ⟨⟨s.v,s,hs,h3.trans hb.1,hb.2.trans h4,rfl⟩,h5 b hb⟩

/-- The intervals that the search for a position goes through, with their values. -/
@[grind =] def path (b o : ℤ) : Offsetmap V → List (ℤ × ℤ × V)
  | .empty => []
  | .node max offl subl offr subr _ _ v =>
    (o,max + o,v) :: if b < o then path b (o + offl) subl else if max + o < b then path b (o + offr) subr else []

def distance (b lo hi : ℤ) : ℤ := max 0 (max (lo - b) (b - hi))

/-- The searches for a position in a map and in a set, side by side, meet two disjoint intervals around
it, the second of which is in the set. The search whose interval is farther goes on; that in the set
goes on from an interval that is not in the set. -/
def Straddled (b : ℤ) : List (ℤ × ℤ × V) → List (ℤ × ℤ × Bool) → Prop
  | [], _ => False
  | _ :: _, [] => False
  | (lo1,hi1,v) :: l1, (lo2,hi2,true) :: l2 =>
    (hi1 < b ∧ b < lo2) ∨ (hi2 < b ∧ b < lo1) ∨
      if distance b lo1 hi1 < distance b lo2 hi2 then Straddled b ((lo1,hi1,v) :: l1) l2
      else if distance b lo2 hi2 < distance b lo1 hi1 then Straddled b l1 ((lo2,hi2,true) :: l2)
      else Straddled b l1 l2
  | i1 :: l1, (_,_,false) :: l2 => Straddled b (i1 :: l1) l2
termination_by l1 l2 => l1.length + l2.length

section Steps
variable {b o1 o2 : ℤ} {c1 : Cell V} {c2 : Cell Bool}

theorem path_left (o : ℤ) (c : Cell V) (h : b < o) :
    path b o c.node = (o,c.max + o,c.v) :: path b (o + c.offl) c.subl := by
  rw [Cell.node,path,if_pos h]

theorem path_right {o : ℤ} {c : Cell V} (h1 : o ≤ b) (h2 : c.max + o < b) :
    path b o c.node = (o,c.max + o,c.v) :: path b (o + c.offr) c.subr := by
  rw [Cell.node,path,if_neg (by omega),if_pos h2]

theorem path_root {o : ℤ} {c : Cell V} (h1 : o ≤ b) (h2 : b ≤ c.max + o) :
    path b o c.node = [(o,c.max + o,c.v)] := by
  rw [Cell.node,path,if_neg (by omega),if_neg (by omega)]

theorem path_cons (b o : ℤ) (c : Cell V) : ∃ l, path b o c.node = (o,c.max + o,c.v) :: l := ⟨_,rfl⟩

theorem straddled_fst (hv : c2.v = true) (hnear : distance b o1 (c1.max + o1) < distance b o2 (c2.max + o2))
    (h1 : ¬ (c1.max + o1 < b ∧ b < o2)) (h2 : ¬ (c2.max + o2 < b ∧ b < o1)) {l2 : List (ℤ × ℤ × Bool)}
    (hp : path b o2 c2.node = (o2,c2.max + o2,c2.v) :: l2) :
    Straddled b (path b o1 c1.node) (path b o2 c2.node) ↔ Straddled b (path b o1 c1.node) l2 := by
  obtain ⟨l1,hl⟩ := path_cons b o1 c1
  rw [hp,hl,hv,Straddled,if_pos hnear]
  simp [h1,h2]

theorem straddled_snd (hv : c2.v = true) (hnear : distance b o2 (c2.max + o2) < distance b o1 (c1.max + o1))
    (h1 : ¬ (c1.max + o1 < b ∧ b < o2)) (h2 : ¬ (c2.max + o2 < b ∧ b < o1)) {l1 : List (ℤ × ℤ × V)}
    (hp : path b o1 c1.node = (o1,c1.max + o1,c1.v) :: l1) :
    Straddled b (path b o1 c1.node) (path b o2 c2.node) ↔ Straddled b l1 (path b o2 c2.node) := by
  obtain ⟨l2,hl⟩ := path_cons b o2 c2
  rw [hp,hl,hv,Straddled,if_neg hnear.asymm,if_pos hnear]
  simp [h1,h2]

theorem straddled_both (hv : c2.v = true) (hnear : distance b o1 (c1.max + o1) = distance b o2 (c2.max + o2))
    (h1 : ¬ (c1.max + o1 < b ∧ b < o2)) (h2 : ¬ (c2.max + o2 < b ∧ b < o1)) {l1 : List (ℤ × ℤ × V)}
    {l2 : List (ℤ × ℤ × Bool)} (hp1 : path b o1 c1.node = (o1,c1.max + o1,c1.v) :: l1)
    (hp2 : path b o2 c2.node = (o2,c2.max + o2,c2.v) :: l2) :
    Straddled b (path b o1 c1.node) (path b o2 c2.node) ↔ Straddled b l1 l2 := by
  rw [hp1,hp2,hv,Straddled,if_neg (by omega),if_neg (by omega)]
  simp [h1,h2]

theorem straddled_false (x : ℤ × Offsetmap V) (hv : c2.v = false) {l2 : List (ℤ × ℤ × Bool)}
    (hp : path b o2 c2.node = (o2,c2.max + o2,c2.v) :: l2) :
    Straddled b (path b x.1 x.2) (path b o2 c2.node) ↔ Straddled b (path b x.1 x.2) l2 := by
  rw [hp,hv]
  cases path b x.1 x.2 with
  | nil => simp [Straddled]
  | cons i l => rw [Straddled]

theorem times_append (b : ℤ) (l l' : List (Call V)) : times b (l ++ l') = times b l + times b l' := List.countP_append

theorem not_bound_left {lo hi o : ℤ} {c : Cell V} (hs : Shape lo hi o c.node) (h : o ≤ b) :
    ¬ Bound (o + c.offl,c.subl) b := by
  rintro ⟨v,hv⟩
  have := hv.mem hs.2.1.tiles
  omega

theorem not_bound_right {lo hi o : ℤ} {c : Cell V} (hs : Shape lo hi o c.node) (h : b ≤ c.max + o) :
    ¬ Bound (o + c.offr,c.subr) b := by
  rintro ⟨v,hv⟩
  have := hv.mem hs.2.2.1.tiles
  omega

section Zero
variable {lo1 hi1 lo2 hi2 : ℤ} (hs1 : Shape lo1 hi1 o1 c1.node) (hs2 : Shape lo2 hi2 o2 c2.node)
include hs1 hs2

theorem times_fst_zero {x : ℤ × Offsetmap V} (hp : Part x (o1,c1.node)) (h : ¬ Bound x b) {y : Itvs}
    (hy : Part y (o2,c2.node)) : times b (calls x y) = 0 :=
  times_eq_zero (hp.shaped ⟨_,_,hs1⟩) (hy.shaped ⟨_,_,hs2⟩) fun hb => h hb.1

theorem times_snd_zero {y : Itvs} (hp : Part y (o2,c2.node)) (h : ¬ Bound y b) {x : ℤ × Offsetmap V}
    (hx : Part x (o1,c1.node)) : times b (calls x y) = 0 :=
  times_eq_zero (hx.shaped ⟨_,_,hs1⟩) (hp.shaped ⟨_,_,hs2⟩) fun hb => h ⟨true,hb.2⟩

theorem times_rightCalls_zero (h1 : b ≤ c1.max + o1) (h2 : b ≤ c2.max + o2) : times b (rightCalls o1 c1 o2 c2) = 0 := by
  unfold rightCalls
  split_ifs
  · exact times_fst_zero hs1 hs2 (.right o1 c1) (not_bound_right hs1 h1) (.right o2 c2)
  · exact times_snd_zero hs1 hs2 (.right o2 c2) (not_bound_right hs2 h2) (.self _)
  · exact times_fst_zero hs1 hs2 (.right o1 c1) (not_bound_right hs1 h1) (.self _)

theorem times_leftCalls_zero (h1 : o1 ≤ b) (h2 : o2 ≤ b) : times b (leftCalls o1 c1 o2 c2) = 0 := by
  unfold leftCalls
  split_ifs
  · exact times_fst_zero hs1 hs2 (.left o1 c1) (not_bound_left hs1 h1) (.left o2 c2)
  · exact times_fst_zero hs1 hs2 (.left o1 c1) (not_bound_left hs1 h1) (.self _)
  · exact times_snd_zero hs1 hs2 (.left o2 c2) (not_bound_left hs2 h2) (.self _)

end Zero

/-- A position of the map that is in the set is presented, and twice when it is straddled. -/
structure Presented (b : ℤ) (x : ℤ × Offsetmap V) (y : Itvs) : Prop where
  once : 1 ≤ times b (calls x y)
  twice : 2 ≤ times b (calls x y) ↔ Straddled b (path b x.1 x.2) (path b y.1 y.2)

theorem Presented.congr {x x' : ℤ × Offsetmap V} {y y' : Itvs} (h : Presented b x' y')
    (ht : times b (calls x y) = times b (calls x' y'))
    (hs : Straddled b (path b x.1 x.2) (path b y.1 y.2) ↔ Straddled b (path b x'.1 x'.2) (path b y'.1 y'.2)) :
    Presented b x y := by
  refine ⟨ht ▸ h.once,?_⟩
  rw [ht,hs]
  exact h.twice

theorem bound_left {lo hi o : ℤ} {c : Cell V} {v : V} (hs : Shape lo hi o c.node) (hb : HasVal (segs o c.node) b v)
    (h : b < o) : Bound (o + c.offl,c.subl) b := ⟨v,(hasVal_subl hs h).mp hb⟩

theorem bound_right {lo hi o : ℤ} {c : Cell V} {v : V} (hs : Shape lo hi o c.node) (hb : HasVal (segs o c.node) b v)
    (h : c.max + o < b) : Bound (o + c.offr,c.subr) b := ⟨v,(hasVal_subr hs h).mp hb⟩

theorem bits_left {lo hi : ℤ} (hs : Shape lo hi o2 c2.node) (hm : b ∈ bits (o2,c2.node)) (h : b < o2) :
    b ∈ bits (o2 + c2.offl,c2.subl) := (hasVal_subl hs h).mp hm

theorem bits_right {lo hi : ℤ} (hs : Shape lo hi o2 c2.node) (hm : b ∈ bits (o2,c2.node)) (h : c2.max + o2 < b) :
    b ∈ bits (o2 + c2.offr,c2.subr) := (hasVal_subr hs h).mp hm

section Step
variable {lo1 hi1 lo2 hi2 : ℤ} (hs1 : Shape lo1 hi1 o1 c1.node) (hs2 : Shape lo2 hi2 o2 c2.node)
variable {v : V} (hb : HasVal (segs o1 c1.node) b v) (hm : b ∈ bits (o2,c2.node))
variable (hrec : ∀ {x : ℤ × Offsetmap V} {y : Itvs}, Part x (o1,c1.node) → Part y (o2,c2.node) →
  count x.2 + count y.2 < count c1.node + count c2.node → Bound x b → b ∈ bits y → Presented b x y)
include hs1 hs2 hb hm hrec

theorem presented_false (hv : c2.v = false) : Presented b (o1,c1.node) (o2,c2.node) := by
  have hmax2 := hs2.root_le
  have hcl2 := count_subl c2
  have hcr2 := count_subr c2
  have hcalls : times b (calls (o1,c1.node) (o2,c2.node)) =
      times b (calls (o1,c1.node) (o2 + c2.offl,c2.subl)) + times b (calls (o1,c1.node) (o2 + c2.offr,c2.subr)) := by
    rw [calls_cell_false _ _ hv,times_append]
  rcases lt_or_ge b o2 with hlt | hge
  · refine (hrec (.self _) (.left o2 c2) (by dsimp only; omega) ⟨v,hb⟩ (bits_left hs2 hm hlt)).congr ?_
      (straddled_false _ hv (path_left o2 c2 hlt))
    rw [hcalls,times_snd_zero hs1 hs2 (.right o2 c2) (not_bound_right hs2 (by omega)) (.self _),Nat.add_zero]
  · rcases le_or_gt b (c2.max + o2) with hle | hgt
    · have hroot := (hasVal_root hs2 hge hle).mp hm
      rw [hv] at hroot
      cases hroot
    · refine (hrec (.self _) (.right o2 c2) (by dsimp only; omega) ⟨v,hb⟩ (bits_right hs2 hm hgt)).congr ?_
        (straddled_false _ hv (path_right hge hgt))
      rw [hcalls,times_snd_zero hs1 hs2 (.left o2 c2) (not_bound_left hs2 hge) (.self _),Nat.zero_add]

variable (hv : c2.v = true)
include hv

theorem presented_before (h : c1.max + o1 < o2) : Presented b (o1,c1.node) (o2,c2.node) := by
  have hmax1 := hs1.root_le
  have hmax2 := hs2.root_le
  have hcr1 := count_subr c1
  have hcl2 := count_subl c2
  have htimes : times b (calls (o1,c1.node) (o2,c2.node)) = times b (calls (o1,c1.node) (o2 + c2.offl,c2.subl)) +
      times b (calls (o1 + c1.offr,c1.subr) (o2,c2.node)) := by rw [calls_true o1 c1 o2 c2 hv,if_pos h,times_append]
  rcases le_or_gt b (c1.max + o1) with hle | hgt
  · refine (hrec (.self _) (.left o2 c2) (by dsimp only; omega) ⟨v,hb⟩ (bits_left hs2 hm (by omega))).congr ?_
      (straddled_fst hv (by unfold distance; omega) (by omega) (by omega) (path_left o2 c2 (by omega)))
    rw [htimes,times_fst_zero hs1 hs2 (.right o1 c1) (not_bound_right hs1 hle) (.self _),Nat.add_zero]
  · rcases lt_or_ge b o2 with hlt | hge
    · have honce1 := (hrec (.self _) (.left o2 c2) (by dsimp only; omega) ⟨v,hb⟩ (bits_left hs2 hm hlt)).once
      have honce2 := (hrec (.right o1 c1) (.self _) (by dsimp only; omega) (bound_right hs1 hb hgt) hm).once
      refine ⟨by omega,iff_of_true (by omega) ?_⟩
      dsimp only
      rw [path_right (by omega) hgt,path_left o2 c2 hlt,hv,Straddled]
      exact .inl ⟨hgt,hlt⟩
    · refine (hrec (.right o1 c1) (.self _) (by dsimp only; omega) (bound_right hs1 hb hgt) hm).congr ?_
        (straddled_snd hv (by unfold distance; omega) (by omega) (by omega) (path_right (by omega) hgt))
      rw [htimes,times_snd_zero hs1 hs2 (.left o2 c2) (not_bound_left hs2 hge) (.self _),Nat.zero_add]

theorem presented_after (h : c2.max + o2 < o1) : Presented b (o1,c1.node) (o2,c2.node) := by
  have hmax1 := hs1.root_le
  have hmax2 := hs2.root_le
  have hcl1 := count_subl c1
  have hcr2 := count_subr c2
  have htimes : times b (calls (o1,c1.node) (o2,c2.node)) = times b (calls (o1,c1.node) (o2 + c2.offr,c2.subr)) +
      times b (calls (o1 + c1.offl,c1.subl) (o2,c2.node)) := by rw [calls_true o1 c1 o2 c2 hv,if_neg (by omega),if_pos h,times_append]
  rcases le_or_gt o1 b with hle | hgt
  · refine (hrec (.self _) (.right o2 c2) (by dsimp only; omega) ⟨v,hb⟩ (bits_right hs2 hm (by omega))).congr ?_
      (straddled_fst hv (by unfold distance; omega) (by omega) (by omega) (path_right (by omega) (by omega)))
    rw [htimes,times_fst_zero hs1 hs2 (.left o1 c1) (not_bound_left hs1 hle) (.self _),Nat.add_zero]
  · rcases lt_or_ge (c2.max + o2) b with hlt | hge
    · have honce1 := (hrec (.self _) (.right o2 c2) (by dsimp only; omega) ⟨v,hb⟩ (bits_right hs2 hm hlt)).once
      have honce2 := (hrec (.left o1 c1) (.self _) (by dsimp only; omega) (bound_left hs1 hb hgt) hm).once
      refine ⟨by omega,iff_of_true (by omega) ?_⟩
      dsimp only
      rw [path_left o1 c1 hgt,path_right (by omega) hlt,hv,Straddled]
      exact .inr (.inl ⟨hlt,hgt⟩)
    · refine (hrec (.left o1 c1) (.self _) (by dsimp only; omega) (bound_left hs1 hb hgt) hm).congr ?_
        (straddled_snd hv (by unfold distance; omega) (by omega) (by omega) (path_left o1 c1 hgt))
      rw [htimes,times_snd_zero hs1 hs2 (.right o2 c2) (not_bound_right hs2 hge) (.self _),Nat.zero_add]

theorem presented_intersection (h1 : ¬ c1.max + o1 < o2) (h2 : ¬ c2.max + o2 < o1) :
    Presented b (o1,c1.node) (o2,c2.node) := by
  have hmax1 := hs1.root_le
  have hmax2 := hs2.root_le
  have hcl1 := count_subl c1
  have hcr1 := count_subr c1
  have hcl2 := count_subl c2
  have hcr2 := count_subr c2
  have htimes : times b (calls (o1,c1.node) (o2,c2.node)) =
      (if max o1 o2 ≤ b ∧ b ≤ min (c1.max + o1) (c2.max + o2) then 1 else 0) +
        times b (rightCalls o1 c1 o2 c2) + times b (leftCalls o1 c1 o2 c2) := by
    rw [calls_true o1 c1 o2 c2 hv,if_neg h1,if_neg (by omega),times_append]
    congr 1
    rw [times,List.countP_cons,Nat.add_comm]
    congr 1
    exact if_congr decide_eq_true_iff rfl rfl
  rcases lt_or_ge b (max o1 o2) with hlt | hge
  · rw [if_neg (by omega),times_rightCalls_zero hs1 hs2 (by omega) (by omega),Nat.add_zero,Nat.zero_add,
      leftCalls] at htimes
    split_ifs at htimes with h3 h4
    · exact (hrec (.left o1 c1) (.left o2 c2) (by dsimp only; omega) (bound_left hs1 hb (by omega)) (bits_left hs2 hm (by omega))).congr htimes
        (straddled_both hv (by unfold distance; omega) (by omega) (by omega) (path_left o1 c1 (by omega))
          (path_left o2 c2 (by omega)))
    · exact (hrec (.left o1 c1) (.self _) (by dsimp only; omega) (bound_left hs1 hb (by omega)) hm).congr htimes
        (straddled_snd hv (by unfold distance; omega) (by omega) (by omega) (path_left o1 c1 (by omega)))
    · exact (hrec (.self _) (.left o2 c2) (by dsimp only; omega) ⟨v,hb⟩ (bits_left hs2 hm (by omega))).congr htimes
        (straddled_fst hv (by unfold distance; omega) (by omega) (by omega) (path_left o2 c2 (by omega)))
  · rcases le_or_gt b (min (c1.max + o1) (c2.max + o2)) with hle | hgt
    · rw [if_pos ⟨hge,hle⟩,times_rightCalls_zero hs1 hs2 (by omega) (by omega),
        times_leftCalls_zero hs1 hs2 (by omega) (by omega)] at htimes
      refine ⟨by omega,iff_of_false (by omega) ?_⟩
      dsimp only
      rw [straddled_both hv (by unfold distance; omega) (by omega) (by omega) (path_root (by omega) (by omega))
        (path_root (by omega) (by omega)),Straddled]
      exact id
    · rw [if_neg (by omega),times_leftCalls_zero hs1 hs2 (by omega) (by omega),Nat.add_zero,Nat.zero_add,
        rightCalls] at htimes
      split_ifs at htimes with h3 h4
      · exact (hrec (.right o1 c1) (.right o2 c2) (by dsimp only; omega) (bound_right hs1 hb (by omega)) (bits_right hs2 hm (by omega))).congr
          htimes (straddled_both hv (by unfold distance; omega) (by omega) (by omega)
            (path_right (by omega) (by omega)) (path_right (by omega) (by omega)))
      · exact (hrec (.self _) (.right o2 c2) (by dsimp only; omega) ⟨v,hb⟩ (bits_right hs2 hm (by omega))).congr htimes
          (straddled_fst hv (by unfold distance; omega) (by omega) (by omega) (path_right (by omega) (by omega)))
      · exact (hrec (.right o1 c1) (.self _) (by dsimp only; omega) (bound_right hs1 hb (by omega)) hm).congr htimes
          (straddled_snd hv (by unfold distance; omega) (by omega) (by omega) (path_right (by omega) (by omega)))

end Step

theorem presented {x : ℤ × Offsetmap V} {y : Itvs} (hx : Shaped x) (hy : Shaped y) (hb : Bound x b) (hm : b ∈ bits y) :
    Presented b x y := by
  revert hx hy hb hm
  refine pair_induction (P := fun x y => Shaped x → Shaped y → Bound x b → b ∈ bits y → Presented b x y) ?_ x y
  intro x y ih hx hy hb hm
  obtain ⟨o1,c1,rfl⟩ := exists_cell (x := x) (by
    intro he
    obtain ⟨v,hv⟩ := hb
    rw [he] at hv
    exact hasVal_nil hv)
  obtain ⟨o2,c2,rfl⟩ := exists_cell (x := y) (by
    intro he
    change HasVal _ b true at hm
    rw [he] at hm
    exact hasVal_nil hm)
  obtain ⟨lo1,hi1,hs1⟩ := hx
  obtain ⟨lo2,hi2,hs2⟩ := hy
  obtain ⟨v,hb⟩ := hb
  have hrec : ∀ {x : ℤ × Offsetmap V} {y : Itvs}, Part x (o1,c1.node) → Part y (o2,c2.node) →
      count x.2 + count y.2 < count c1.node + count c2.node → Bound x b → b ∈ bits y → Presented b x y :=
    fun hx hy hlt => ih _ _ hlt (hx.shaped ⟨_,_,hs1⟩) (hy.shaped ⟨_,_,hs2⟩)
  cases hv : c2.v with
  | false => exact presented_false hs1 hs2 hb hm hrec hv
  | true =>
    by_cases h1 : c1.max + o1 < o2
    · exact presented_before hs1 hs2 hb hm hrec hv h1
    · by_cases h2 : c2.max + o2 < o1
      · exact presented_after hs1 hs2 hb hm hrec hv h2
      · exact presented_intersection hs1 hs2 hb hm hrec hv h1 h2

end Steps

theorem pairwise_disjoint_iff {l : List (Call V)} :
    (l.Pairwise fun k k' => Disjoint (Set.Icc k.lo k.hi) (Set.Icc k'.lo k'.hi)) ↔ ∀ b, times b l ≤ 1 := by
  induction l with
  | nil => simp [times]
  | cons k l ih =>
    have hcons : ∀ b, times b (k :: l) = times b l + if k.Covers b then 1 else 0 := by
      intro b
      rw [times,List.countP_cons]
      congr 1
      exact if_congr decide_eq_true_iff rfl rfl
    have hzero : ∀ b, times b l = 0 ↔ ∀ k' ∈ l, ¬ k'.Covers b := by
      intro b
      rw [times,List.countP_eq_zero]
      simp
    rw [List.pairwise_cons,ih]
    constructor
    · rintro ⟨hk,hl⟩ b
      rw [hcons]
      split
      · next hb =>
        rw [(hzero b).mpr fun k' hk' hb' => Set.disjoint_left.mp (hk k' hk') hb hb']
      · exact hl b
    · intro h
      refine ⟨fun k' hk' => Set.disjoint_left.mpr fun b hb hb' => ?_,fun b => ?_⟩
      · have hle := h b
        have hcov : k.Covers b := hb
        rw [hcons,if_pos hcov] at hle
        exact (hzero b).mp (by omega) k' hk' hb'
      · have hle := h b
        rw [hcons] at hle
        omega

end FoldJoin

/-- The calls that a fold over a map of `[0..n - 1]` should make: pairwise disjoint intervals, within the
intervals of the map with their values, and of which the union is the part of the set in the map. -/
structure ExactCalls (itvs : IntIntervals) (m : Offsetmap V) (n : ℤ) (l : List (FoldJoin.Call V)) : Prop where
  disjoint : l.Pairwise fun k k' => Disjoint (Set.Icc k.lo k.hi) (Set.Icc k'.lo k'.hi)
  bound : ∀ k ∈ l, k.lo ≤ k.hi ∧ ∃ s ∈ segs 0 m, s.v = k.v ∧ s.lo ≤ k.lo ∧ k.hi ≤ s.hi
  union : ⋃ k ∈ l, Set.Icc k.lo k.hi = IntIntervals.concr itvs ∩ Set.Icc 0 (n - 1)

/-- No position of the map that is in the set lies between two disjoint intervals that the searches for
it in both meet side by side. -/
def NoStraddle (m : Offsetmap V) (n : ℤ) : IntIntervals → Prop
  | .intervals currOff t _ _ =>
    ∀ b ∈ bits (currOff,t) ∩ Set.Icc 0 (n - 1),
      ¬ FoldJoin.Straddled b (FoldJoin.path b 0 m) (FoldJoin.path b currOff t)
  | _ => True

section Whole
variable {m : Offsetmap V} {n : ℤ} (hm : Shape 0 (n - 1) 0 m)
include hm

theorem bound_iff {b : ℤ} : FoldJoin.Bound (0,m) b ↔ b ∈ Set.Icc 0 (n - 1) := by
  constructor
  · rintro ⟨v,hv⟩
    exact hv.mem hm.tiles
  · rintro ⟨h1,h2⟩
    exact hm.tiles.exists_hasVal h1 h2

theorem exactCalls_calls_iff {currOff : ℤ} {t : Offsetmap Bool} (hy : FoldJoin.Shaped (currOff,t)) (min max : ℤ) :
    ExactCalls (.intervals currOff t min max) m n (FoldJoin.calls (0,m) (currOff,t)) ↔
      NoStraddle m n (.intervals currOff t min max) := by
  have hx : FoldJoin.Shaped ((0,m) : ℤ × Offsetmap V) := ⟨0,n - 1,hm⟩
  have hwithin := fun k hk => FoldJoin.within_of_mem_calls (k := k) hx hy hk
  have hpresented : ∀ b ∈ bits (currOff,t) ∩ Set.Icc 0 (n - 1), FoldJoin.Presented b (0,m) (currOff,t) :=
    fun b hb => FoldJoin.presented hx hy ((bound_iff hm).mpr hb.2) hb.1
  constructor
  · intro h b hb
    rw [← (hpresented b hb).twice]
    have := (FoldJoin.pairwise_disjoint_iff).mp h.disjoint b
    omega
  · intro h
    refine ⟨(FoldJoin.pairwise_disjoint_iff).mpr fun b => ?_,fun k hk => ⟨(hwithin k hk).le,(hwithin k hk).seg⟩,?_⟩
    · by_cases hb : b ∈ bits (currOff,t) ∩ Set.Icc 0 (n - 1)
      · have := (hpresented b hb).twice.not.mpr (h b hb)
        omega
      · rw [FoldJoin.times_eq_zero hx hy fun hb' => hb ⟨hb'.2,(bound_iff hm).mp hb'.1⟩]
        exact Nat.zero_le 1
    · ext b
      simp only [Set.mem_iUnion,exists_prop]
      constructor
      · rintro ⟨k,hk,hb⟩
        obtain ⟨s,hs,-,h1,h2⟩ := (hwithin k hk).seg
        refine ⟨(hwithin k hk).mem b hb,(bound_iff hm).mp ⟨s.v,s,hs,h1.trans hb.1,hb.2.trans h2,rfl⟩⟩
      · intro hb
        have honce : 0 < FoldJoin.times b (FoldJoin.calls (0,m) (currOff,t)) := (hpresented b hb).once
        obtain ⟨k,hk,hcov⟩ := List.countP_pos_iff.mp honce
        exact ⟨k,hk,of_decide_eq_true hcov⟩

theorem boundsAsItv_eq (h : m ≠ .empty) :
    boundsAsItv m = .intervals 0 (intervalAux (n - 1 - 0) 0 1 true) 0 (n - 1) := by
  have hbounds : boundsAsItv m = IntIntervals.injectBounds (boundsOffset 0 m).1 (boundsOffset 0 m).2 := by
    cases m with
    | empty => exact absurd rfl h
    | node => rfl
  have hle : ¬ (0 : ℤ) > n - 1 := by
    intro hlt
    exact h (hm.empty_of_lt hlt)
  rw [hbounds,hm.bounds]
  exact if_neg hle

omit hm in
theorem not_straddled_single {b lo hi : ℤ} (h1 : lo ≤ b) (h2 : b ≤ hi) (l : List (ℤ × ℤ × V)) :
    ¬ FoldJoin.Straddled b l [(lo,hi,true)] := by
  have hzero : FoldJoin.distance b lo hi = 0 := by
    unfold FoldJoin.distance
    omega
  induction l with
  | nil => simp [FoldJoin.Straddled]
  | cons i l ih =>
    obtain ⟨lo1,hi1,v⟩ := i
    have hnonneg : 0 ≤ FoldJoin.distance b lo1 hi1 := le_max_left _ _
    rw [FoldJoin.Straddled,hzero,if_neg (by omega)]
    rintro (h | h | h)
    · omega
    · omega
    · split at h
      · exact ih h
      · cases l <;> simp [FoldJoin.Straddled] at h

theorem exactCalls_iff {itvs : IntIntervals} (hitvs : itvs.Wf) :
    ExactCalls itvs m n (itvsCalls itvs m) ↔ NoStraddle m n itvs := by
  cases itvs with
  | bottom =>
    refine iff_of_true ⟨List.Pairwise.nil,by simp [itvsCalls],?_⟩ trivial
    simp [itvsCalls,IntIntervals.concr]
  | intervals currOff t min max => exact exactCalls_calls_iff hm ⟨_,_,hitvs.1.1⟩ min max
  | top =>
    refine iff_of_true ?_ trivial
    by_cases he : m = .empty
    · subst he
      have hn : n - 1 = 0 - 1 := hm.2
      refine ⟨List.Pairwise.nil,by simp [itvsCalls,boundsAsItv],?_⟩
      rw [hn]
      simp [itvsCalls,boundsAsItv]
    · have hle : 0 ≤ n - 1 := by
        by_contra hlt
        exact he (hm.empty_of_lt (by omega))
      have hspec := (IntIntervals.injectBounds_spec 0 (n - 1)).2.2
      rw [show IntIntervals.injectBounds 0 (n - 1) = _ from if_neg (by omega)] at hspec
      have hbits : bits (0,intervalAux (n - 1 - 0) 0 1 true) = Set.Icc 0 (n - 1) := hspec
      have hcanon := (intervalAux_spec hle
        (.inl rfl : OffsetmapLattice.isIsotropic true = true ∨ (0 : ℤ) ≤ 0 ∧ (0 : ℤ) < 1)).1
      have hexact := (exactCalls_calls_iff hm (t := intervalAux (n - 1 - 0) 0 1 true) ⟨_,_,hcanon.1⟩ 0 (n - 1)).mpr
        fun b hb => by
          rw [show FoldJoin.path b 0 (intervalAux (n - 1 - 0) 0 1 true) = [(0,n - 1 - 0 + 0,true)] from
            FoldJoin.path_root (c := ⟨n - 1 - 0,0,.empty,n - 1 - 0 + 1,.empty,0,1,true⟩) hb.2.1 (by have := hb.2.2; dsimp only; omega)]
          exact not_straddled_single hb.2.1 (by have := hb.2.2; omega) _
      have hcalls : itvsCalls .top m = FoldJoin.calls (0,m) (0,intervalAux (n - 1 - 0) 0 1 true) := by
        rw [itvsCalls,boundsAsItv_eq hm he]
      rw [hcalls]
      refine ⟨hexact.disjoint,hexact.bound,?_⟩
      rw [hexact.union,IntIntervals.concr,IntIntervals.concr,hbits]
      simp

end Whole

/-- A fold returns the join of its calls, whatever its cache holds, and its calls are right when no
position is straddled. -/
theorem foldJoinItvs_exact_iff [DecidableEq V] :
    (∀ (cache : Hptmap.CacheType) (env : Option (Option ℤ)) (hash : ℤ × Offsetmap V → NativeInt)
      (hashItvs : Itvs → NativeInt) (R : Type) (g : FoldJoin V R), g.Lawful →
      ∀ steps : List (Step (IntIntervals × Offsetmap V)),
        ∃ st, runSteps (fun a => foldJoinItvs cache env hash hashItvs g a.1 a.2)
            (Hptmap.clearRegistered cache (FoldJoin.table env hash hashItvs g.empty)) steps none =
          some ((steps.filterMap Step.call?).map fun a => g.eval (itvsCalls a.1 a.2),st)) ∧
    ∀ (itvs : IntIntervals) (m : Offsetmap V) (n : ℤ), itvs.Wf → Shape 0 (n - 1) 0 m →
      (ExactCalls itvs m n (itvsCalls itvs m) ↔ NoStraddle m n itvs) :=
  ⟨fun cache env hash hashItvs _ _ hg steps => foldJoinItvs_runs cache env hash hashItvs hg steps,
    fun _ _ _ hitvs hm => exactCalls_iff hm hitvs⟩

section Examples

/-- The map of `[0..0]`, `[1..1]` and `[2..4]` to alternating values. -/
def threeIntervals : Offsetmap Bool :=
  .node 0 0 .empty 2 (.node 2 (-1) (.node 0 0 .empty 1 .empty 0 1 false) 3 .empty 0 1 true) 0 1 true

def oneThreeFour : IntIntervals :=
  .intervals 3 (.node 1 (-1) (.node 0 (-1) (.node 0 0 .empty 1 .empty 0 1 true) 1 .empty 0 1 false) 2 .empty 0 1 true) 1 4

/-- The roots `[0..0]` and `[3..4]` are on both sides of 1, which is presented twice. -/
theorem fold_presents_twice : IntIntervals.inject [(1,1),(3,4)] = some oneThreeFour ∧
    (addNode 2 4 0 1 true 0 (addNode 1 1 0 1 false 0 (intervalAux 0 0 1 true)).2).2 = threeIntervals ∧
    itvsCalls oneThreeFour threeIntervals = [⟨1,1,false⟩,⟨3,4,true⟩,⟨1,1,false⟩] ∧
    ¬ ExactCalls oneThreeFour threeIntervals 5 (itvsCalls oneThreeFour threeIntervals) := by
  refine ⟨by decide,by decide +kernel,by decide +kernel,fun h => ?_⟩
  have honce := (FoldJoin.pairwise_disjoint_iff).mp h.disjoint 1
  have htwice : FoldJoin.times 1 (itvsCalls oneThreeFour threeIntervals) = 2 := by decide
  omega

/-- A map with one interval. -/
theorem foldJoinItvs_exact_single :
    ExactCalls (IntIntervals.injectBounds 1 2) (intervalAux (4 - 0) 0 1 true) 5
      (itvsCalls (IntIntervals.injectBounds 1 2) (intervalAux (4 - 0) 0 1 true)) := by
  have hcanon := (intervalAux_spec (show (0 : ℤ) ≤ 4 by omega)
    (.inl rfl : OffsetmapLattice.isIsotropic true = true ∨ (0 : ℤ) ≤ 0 ∧ (0 : ℤ) < 1)).1
  refine (foldJoinItvs_exact_iff.2 (IntIntervals.injectBounds 1 2) _ 5 (IntIntervals.injectBounds_spec 1 2).1
    hcanon.1).mpr fun b hb => ?_
  obtain ⟨h1,h2⟩ := bits_subset (IntIntervals.injectBounds_spec 1 2).1.1 hb.1
  have hpath : FoldJoin.path b 1 (intervalAux (2 - 1) 0 1 true) = [(1,2 - 1 + 1,true)] :=
    FoldJoin.path_root (c := ⟨2 - 1,0,.empty,2 - 1 + 1,.empty,0,1,true⟩) h1 (by dsimp only; omega)
  rw [hpath]
  exact not_straddled_single h1 (by omega) _

end Examples
end FramaC.Offsetmap
