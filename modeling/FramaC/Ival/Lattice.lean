import FramaC.Ival.PreSet

/-! # Inclusion and join of integer ivals

`join` walks the two sorted arrays twice: a first pass counts the distinct elements and
detects inclusions, a second one merges the arrays or falls back to a progression. The
physical equality test at the start of each function is modelled by equality.
-/
namespace FramaC.Ival
open Integer Progression

def minMin : Option ℤ → Option ℤ → Option ℤ
  | some x, some y => some (min x y)
  | _, _ => none

def maxMax : Option ℤ → Option ℤ → Option ℤ
  | some x, some y => some (max x y)
  | _, _ => none

def joinMerge : List ℤ → List ℤ → List ℤ
  | [], s2 => s2
  | e1 :: s1, [] => e1 :: s1
  | e1 :: s1, e2 :: s2 =>
    if e2 < e1 then e2 :: joinMerge (e1 :: s1) s2
    else if e1 = e2 then e1 :: joinMerge s1 s2
    else e1 :: joinMerge s1 (e2 :: s2)
termination_by s1 s2 => s1.length + s2.length

def joinSecond (sc : ℕ) (s1 s2 : List ℤ) (uniq : ℕ) : Ival :=
  if uniq ≤ sc then shareArray (joinMerge s1 s2) uniq
  else
    let m := min (s1.headD 0) (s2.headD 0)
    let modu := s2.foldl (accumModu m) (s1.foldl (accumModu m) 0)
    injectPs (.preTop m (max (s1.getLastD 0) (s2.getLastD 0)) modu)

def joinFirst (v1 v2 : Ival) (second : ℕ → Ival) : List ℤ → List ℤ → ℕ → Bool → Bool → Ival
  | [], s2, uniq, _, inc2 => if inc2 then v2 else second (uniq + s2.length)
  | e1 :: s1, [], uniq, inc1, _ => if inc1 then v1 else second (uniq + (e1 :: s1).length)
  | e1 :: s1, e2 :: s2, uniq, inc1, inc2 =>
    if e2 < e1 then joinFirst v1 v2 second (e1 :: s1) s2 (uniq + 1) false inc2
    else if e2 > e1 then joinFirst v1 v2 second s1 (e2 :: s2) (uniq + 1) inc1 false
    else joinFirst v1 v2 second s1 s2 (uniq + 1) inc1 inc2
termination_by s1 s2 => s1.length + s2.length

def joinSetTop (s : List ℤ) (min max : Option ℤ) (r modu : ℤ) : Res Ival := do
  if s.length = 0 then return .topItv min max r modu
  else
    let newModu := s.foldl (fun modu elt => pgcd modu |r - elt|) modu
    let newR := r % newModu
    let newMin := min.map fun m => Min.min m (s.headD 0)
    let newMax := max.map fun m => Max.max m (s.getLastD 0)
    check newMin newMax newR newModu
    return shareTop newMin newMax newR newModu

def joinBody (sc : ℕ) (v1 v2 : Ival) : Res Ival :=
  match v1, v2 with
  | .topItv mn1 mx1 r1 m1, .topItv mn2 mx2 r2 m2 => do
    check mn1 mx1 r1 m1
    check mn2 mx2 r2 m2
    let modu := pgcd (pgcd m1 m2) |r1 - r2|
    let r := r1 % modu
    injectTop sc (minMin mn1 mn2) (maxMax mx1 mx2) r modu
  | .set s, .topItv min max r modu => joinSetTop s min max r modu
  | .topItv min max r modu, .set s => joinSetTop s min max r modu
  | .set s1, .set s2 =>
    if s1.length = 0 then return v2
    else if s2.length = 0 then return v1
    else return joinFirst v1 v2 (joinSecond sc s1 s2) s1 s2 0 true true

def join (sc : ℕ) (v1 v2 : Ival) : Res Ival := if v1 = v2 then return v1 else joinBody sc v1 v2

def minIsLower : Option ℤ → Option ℤ → Bool
  | none, _ => true
  | some _, none => false
  | some m1, some m2 => decide (m1 ≤ m2)

def maxIsGreater : Option ℤ → Option ℤ → Bool
  | none, _ => true
  | some _, none => false
  | some m1, some m2 => decide (m1 ≥ m2)

def remIsIncluded (r1 m1 r2 m2 : ℤ) : Bool := isZero (m1 % m2) && decide (r1 % m2 = r2)

def arrayForAll (f : ℤ → Bool) : List ℤ → Bool
  | [] => true
  | x :: a => f x && arrayForAll f a

def arraySubsetFrom : List ℤ → List ℤ → Bool
  | [], _ => true
  | _ :: _, [] => false
  | e1 :: a1, e2 :: a2 =>
    if e1 = e2 then arraySubsetFrom a1 a2
    else if e1 < e2 then false
    else arraySubsetFrom (e1 :: a1) a2

def arraySubset (a1 a2 : List ℤ) : Bool :=
  if a1.length > a2.length then false else arraySubsetFrom a1 a2

def isIncluded (t1 t2 : Ival) : Bool :=
  decide (t1 = t2) ||
  match t1, t2 with
  | .set [], _ => true
  | .topItv mn1 mx1 r1 m1, .topItv mn2 mx2 r2 m2 =>
    minIsLower mn2 mn1 && maxIsGreater mx2 mx1 && remIsIncluded r1 m1 r2 m2
  | .topItv .., .set _ => false
  | .set s, .topItv min max r modu =>
    minLeElt min (s.headD 0) && maxGeElt max (s.getLastD 0) &&
      (modu == 1 || arrayForAll (fun x => decide (x % modu = r)) s)
  | .set s1, .set s2 => arraySubset s1 s2

theorem minIsLower_iff {a b : Option ℤ} : minIsLower a b = true ↔ ∀ x ∈ a, ∃ y ∈ b, x ≤ y := by
  cases a <;> cases b <;> simp [minIsLower]

theorem maxIsGreater_iff {a b : Option ℤ} : maxIsGreater a b = true ↔ ∀ x ∈ a, ∃ y ∈ b, y ≤ x := by
  cases a <;> cases b <;> simp [maxIsGreater]

theorem arrayForAll_iff {f : ℤ → Bool} {s : List ℤ} : arrayForAll f s = true ↔ ∀ x ∈ s, f x = true := by
  induction s with
  | nil => simp [arrayForAll]
  | cons x s ih => simp [arrayForAll,ih]

theorem arraySubsetFrom_iff {a1 a2 : List ℤ} (h1 : a1.Pairwise (· < ·)) (h2 : a2.Pairwise (· < ·)) :
    arraySubsetFrom a1 a2 = true ↔ ∀ x ∈ a1, x ∈ a2 := by
  induction a2 generalizing a1 with
  | nil =>
    cases a1 with
    | nil => simp [arraySubsetFrom]
    | cons e1 a1 =>
      simp only [arraySubsetFrom,Bool.false_eq_true,false_iff]
      exact fun h => absurd (h e1 (by simp)) (by simp)
  | cons e2 a2 ih =>
    cases a1 with
    | nil => simp [arraySubsetFrom]
    | cons e1 a1 =>
      obtain ⟨hlt1,h1'⟩ := List.pairwise_cons.mp h1
      obtain ⟨hlt2,h2'⟩ := List.pairwise_cons.mp h2
      unfold arraySubsetFrom
      split
      · rename_i he
        subst he
        rw [ih h1' h2']
        constructor
        · intro h x hx
          rcases List.mem_cons.mp hx with rfl | hx
          · simp
          · simp [h x hx]
        · intro h x hx
          have hlt := hlt1 x hx
          rcases List.mem_cons.mp (h x (by simp [hx])) with rfl | hx2
          · omega
          · exact hx2
      · split
        · rename_i hne hlt
          simp only [Bool.false_eq_true,false_iff]
          intro h
          rcases List.mem_cons.mp (h e1 (by simp)) with he | he
          · exact hne he
          · have := hlt2 e1 he
            omega
        · rename_i hne hge
          rw [ih h1 h2']
          constructor
          · intro h x hx
            exact List.mem_cons_of_mem _ (h x hx)
          · intro h x hx
            rcases List.mem_cons.mp (h x hx) with rfl | hx2
            · rcases List.mem_cons.mp hx with he | hx
              · exact absurd he.symm hne
              · have := hlt1 x hx
                omega
            · exact hx2

theorem arraySubset_iff {a1 a2 : List ℤ} (h1 : a1.Pairwise (· < ·)) (h2 : a2.Pairwise (· < ·)) :
    arraySubset a1 a2 = true ↔ ∀ x ∈ a1, x ∈ a2 := by
  unfold arraySubset
  split
  · rename_i hlen
    simp only [Bool.false_eq_true,false_iff]
    intro h
    have := (h1.nodup.subperm h).length_le
    omega
  · exact arraySubsetFrom_iff h1 h2

theorem isIncluded_iff_subset {sc : ℕ} (hsc : 2 ≤ sc) {t1 t2 : Ival} (h1 : Wf sc t1) (h2 : Wf sc t2) :
    isIncluded t1 t2 = true ↔ concr t1 ⊆ concr t2 := by
  unfold isIncluded
  by_cases he : t1 = t2
  · simp [he]
  · simp only [he,decide_false,Bool.false_or]
    cases t1 with
    | set s1 =>
      cases s1 with
      | nil => simp [Set.subset_def]
      | cons a s1 =>
        cases t2 with
        | set s2 => exact arraySubset_iff h1.1 h2.1
        | topItv mn mx r m =>
          obtain ⟨hr,hl⟩ := wf_topItv_iff.mp h2
          have hne : a :: s1 ≠ [] := by simp
          have hone : m = 1 → ∀ x : ℤ, x % m = r := by
            rintro rfl x
            have h1 := hr.lt
            have h2 := hr.nonneg
            rw [Int.emod_one]
            omega
          simp only [Bool.and_eq_true,Bool.or_eq_true,beq_iff_eq,minLeElt_iff,maxGeElt_iff,
            arrayForAll_iff,decide_eq_true_eq,concr_topItv]
          constructor
          · rintro ⟨⟨hmn,hmx⟩,hmod⟩ x hx
            refine ⟨?_,fun b hb => (hmn b hb).trans (head_le_of_pairwise h1.1 hx),
              fun b hb => (le_last_of_pairwise h1.1 hx).trans (hmx b hb)⟩
            rcases hmod with hm | hm
            · exact hone hm x
            · exact hm x hx
          · intro hs
            have hhead := hs (headD_mem hne)
            have hlast := hs (getLastD_mem hne)
            exact ⟨⟨hhead.2.1,hlast.2.2⟩,.inr fun x hx => (hs hx).1⟩
    | topItv mn mx r m =>
      obtain ⟨hr,hl⟩ := wf_topItv_iff.mp h1
      cases t2 with
      | set s2 =>
        simp only [Bool.false_eq_true,false_iff]
        exact hr.not_subset_list hl h2.2
      | topItv mn' mx' r' m' =>
        obtain ⟨hr',_⟩ := wf_topItv_iff.mp h2
        simp only [Bool.and_eq_true,minIsLower_iff,maxIsGreater_iff,remIsIncluded,isZero,beq_iff_eq,
          decide_eq_true_eq,concr_topItv,hr.subset_iff (hl.mono hr.pos (by omega)) hr',
          Int.dvd_iff_emod_eq_zero,and_assoc]

/-- `v` is the least well-formed ival that covers `E`. -/
def IsHull (sc : ℕ) (E : Set ℤ) (v : Ival) : Prop :=
  E ⊆ concr v ∧ ∀ w, Wf sc w → E ⊆ concr w → concr v ⊆ concr w

theorem cover_topItv {sc : ℕ} {mn mx : Option ℤ} {r m : ℤ} (hsc : 2 ≤ sc) (h : Wf sc (.topItv mn mx r m))
    {w : Ival} (hw : Wf sc w) (hs : prog mn mx r m ⊆ concr w) :
    ∃ mn' mx' r' m', w = .topItv mn' mx' r' m' ∧ Reduced mn' mx' r' m' ∧
      (∀ a' ∈ mn', ∃ a ∈ mn, a' ≤ a) ∧ (∀ b' ∈ mx', ∃ b ∈ mx, b ≤ b') ∧ m' ∣ m ∧ r % m' = r' := by
  obtain ⟨hr,hl⟩ := wf_topItv_iff.mp h
  cases w with
  | set s => exact absurd hs (hr.not_subset_list hl hw.2)
  | topItv mn' mx' r' m' =>
    obtain ⟨hr',_⟩ := wf_topItv_iff.mp hw
    exact ⟨mn',mx',r',m',rfl,hr',(hr.subset_iff (hl.mono hr.pos (by omega)) hr').mp hs⟩

theorem Long.enlarge {n : ℕ} {mn mx mn' mx' : Option ℤ} {m m' : ℤ} (hl : Long n mn mx m) (hle : m' ≤ m)
    (hmn : ∀ a' ∈ mn', ∃ a ∈ mn, a' ≤ a) (hmx : ∀ b' ∈ mx', ∃ b ∈ mx, b ≤ b') : Long n mn' mx' m' := by
  intro a' ha' b' hb'
  obtain ⟨a,ha,hle1⟩ := hmn a' ha'
  obtain ⟨b,hb,hle2⟩ := hmx b' hb'
  have h1 := hl a ha b hb
  have h2 : (n : ℤ) * m' ≤ n * m := by gcongr
  omega

theorem emod_eq_of_dvd_of_emod {m m' r x : ℤ} (hd : m' ∣ m) (hx : x % m = r) : x % m' = r % m' := by
  rw [← hx,Int.emod_emod_of_dvd _ hd]

theorem emod_eq_of_dvd_sub {m x y : ℤ} (h : m ∣ x - y) : x % m = y % m := by
  rw [Int.emod_eq_emod_iff_emod_sub_eq_zero,← Int.dvd_iff_emod_eq_zero]
  exact h

theorem minMin_lower {a b : Option ℤ} {x : ℤ} (h : x ∈ minMin a b) :
    (∃ y ∈ a, x ≤ y) ∧ ∃ y ∈ b, x ≤ y := by
  cases a <;> cases b <;> simp_all [minMin]
  omega

theorem maxMax_upper {a b : Option ℤ} {x : ℤ} (h : x ∈ maxMax a b) :
    (∃ y ∈ a, y ≤ x) ∧ ∃ y ∈ b, y ≤ x := by
  cases a <;> cases b <;> simp_all [maxMax]
  omega

theorem minMin_mem {a b : Option ℤ} {x : ℤ} (h : x ∈ minMin a b) : x ∈ a ∨ x ∈ b := by
  cases a <;> cases b <;> simp_all [minMin]
  omega

theorem maxMax_mem {a b : Option ℤ} {x : ℤ} (h : x ∈ maxMax a b) : x ∈ a ∨ x ∈ b := by
  cases a <;> cases b <;> simp_all [maxMax]
  omega

theorem le_minMin {a b c : Option ℤ} (ha : ∀ x ∈ c, ∃ y ∈ a, x ≤ y) (hb : ∀ x ∈ c, ∃ y ∈ b, x ≤ y) :
    ∀ x ∈ c, ∃ y ∈ minMin a b, x ≤ y := by
  intro x hx
  obtain ⟨y,hy,hxy⟩ := ha x hx
  obtain ⟨z,hz,hxz⟩ := hb x hx
  cases hy
  cases hz
  exact ⟨min y z,rfl,le_min hxy hxz⟩

theorem maxMax_le {a b c : Option ℤ} (ha : ∀ x ∈ c, ∃ y ∈ a, y ≤ x) (hb : ∀ x ∈ c, ∃ y ∈ b, y ≤ x) :
    ∀ x ∈ c, ∃ y ∈ maxMax a b, y ≤ x := by
  intro x hx
  obtain ⟨y,hy,hxy⟩ := ha x hx
  obtain ⟨z,hz,hxz⟩ := hb x hx
  cases hy
  cases hz
  exact ⟨max y z,rfl,max_le hxy hxz⟩

theorem joinTops_spec {sc : ℕ} (hsc : 2 ≤ sc) {mn1 mx1 mn2 mx2 : Option ℤ} {r1 m1 r2 m2 : ℤ}
    (h1 : Wf sc (.topItv mn1 mx1 r1 m1)) (h2 : Wf sc (.topItv mn2 mx2 r2 m2)) :
    ∃ v, joinBody sc (.topItv mn1 mx1 r1 m1) (.topItv mn2 mx2 r2 m2) = .ok v ∧ Wf sc v ∧
      IsHull sc (prog mn1 mx1 r1 m1 ∪ prog mn2 mx2 r2 m2) v := by
  obtain ⟨hr1,hl1⟩ := wf_topItv_iff.mp h1
  obtain ⟨hr2,hl2⟩ := wf_topItv_iff.mp h2
  set m := pgcd (pgcd m1 m2) |r1 - r2| with hm
  have hpos : 1 ≤ m := one_le_pgcd_left (one_le_pgcd_left hr1.pos)
  have hd1 : m ∣ m1 := (pgcd_dvd_left _ _).trans (pgcd_dvd_left _ _)
  have hd2 : m ∣ m2 := (pgcd_dvd_left _ _).trans (pgcd_dvd_right _ _)
  have hdr : m ∣ r1 - r2 := (dvd_abs _ _).mp (pgcd_dvd_right _ _)
  have hr12 : r1 % m = r2 % m := emod_eq_of_dvd_sub hdr
  have hb1 : ∀ x, x % m1 = r1 → x % m = r1 % m := fun x hx => emod_eq_of_dvd_of_emod hd1 hx
  have hb2 : ∀ x, x % m2 = r2 → x % m = r1 % m := fun x hx => hr12 ▸ emod_eq_of_dvd_of_emod hd2 hx
  have hred : Reduced (minMin mn1 mn2) (maxMax mx1 mx2) (r1 % m) m := by
    refine ⟨hpos,Int.emod_nonneg _ (by omega),Int.emod_lt_of_pos _ (by omega),?_,?_⟩
    · intro a ha
      rcases minMin_mem ha with ha | ha
      · exact hb1 a (hr1.lower a ha)
      · exact hb2 a (hr2.lower a ha)
    · intro b hb
      rcases maxMax_mem hb with hb | hb
      · exact hb1 b (hr1.upper b hb)
      · exact hb2 b (hr2.upper b hb)
  obtain ⟨v,hv,hw,hc⟩ := injectTop_spec hsc hred
  refine ⟨v,?_,hw,?_⟩
  · simp only [joinBody,check_ok hr1,check_ok hr2,Res.ok_bind]
    exact hv
  · have hlong : Long sc (minMin mn1 mn2) (maxMax mx1 mx2) m :=
      Long.enlarge hl1 (Int.le_of_dvd (by linarith [hr1.pos]) hd1) (fun a ha => (minMin_lower ha).1)
        fun b hb => (maxMax_upper hb).1
    rw [IsHull,hc]
    constructor
    · refine Set.union_subset ?_ ?_
      · rintro x ⟨hx,hxa,hxb⟩
        refine ⟨hb1 x hx,fun a ha => ?_,fun b hb => ?_⟩
        · obtain ⟨y,hy,hle⟩ := (minMin_lower ha).1
          exact hle.trans (hxa y hy)
        · obtain ⟨y,hy,hle⟩ := (maxMax_upper hb).1
          exact (hxb y hy).trans hle
      · rintro x ⟨hx,hxa,hxb⟩
        refine ⟨hb2 x hx,fun a ha => ?_,fun b hb => ?_⟩
        · obtain ⟨y,hy,hle⟩ := (minMin_lower ha).2
          exact hle.trans (hxa y hy)
        · obtain ⟨y,hy,hle⟩ := (maxMax_upper hb).2
          exact (hxb y hy).trans hle
    · intro w hww hs
      obtain ⟨mn',mx',r',m',rfl,hr',hmn1,hmx1,hdm1,hrm1⟩ :=
        cover_topItv hsc h1 hww (Set.subset_union_left.trans hs)
      obtain ⟨_,_,_,_,he,_,hmn2,hmx2,hdm2,hrm2⟩ :=
        cover_topItv hsc h2 hww (Set.subset_union_right.trans hs)
      cases he
      have hdm : m' ∣ m := by
        refine dvd_pgcd (dvd_pgcd hdm1 hdm2) ((dvd_abs _ _).mpr ?_)
        exact dvd_sub_of_emod_eq (hrm1.trans hrm2.symm)
      refine (hred.subset_iff (hlong.mono hpos (by omega)) hr').mpr
        ⟨le_minMin hmn1 hmn2,maxMax_le hmx1 hmx2,hdm,?_⟩
      rw [Int.emod_emod_of_dvd _ hdm,hrm1]

theorem dvd_foldl_pgcd {r k : ℤ} (s : List ℤ) {m : ℤ} :
    k ∣ s.foldl (fun modu elt => pgcd modu |r - elt|) m ↔ k ∣ m ∧ ∀ x ∈ s, k ∣ r - x := by
  induction s generalizing m with
  | nil => simp
  | cons x s ih =>
    rw [List.foldl_cons,ih,dvd_pgcd_iff,List.forall_mem_cons,dvd_abs]
    tauto

theorem foldl_pgcd_pos {r : ℤ} (s : List ℤ) {m : ℤ} (hm : 1 ≤ m) :
    1 ≤ s.foldl (fun modu elt => pgcd modu |r - elt|) m := by
  induction s generalizing m with
  | nil => exact hm
  | cons x s ih => exact ih (one_le_pgcd_left hm)

theorem joinSetTop_spec {sc : ℕ} (hsc : 2 ≤ sc) {s : List ℤ} {mn mx : Option ℤ} {r m : ℤ}
    (hs : Wf sc (.set s)) (ht : Wf sc (.topItv mn mx r m)) :
    ∃ v, joinSetTop s mn mx r m = .ok v ∧ Wf sc v ∧ IsHull sc ({x | x ∈ s} ∪ prog mn mx r m) v := by
  obtain ⟨hr,hl⟩ := wf_topItv_iff.mp ht
  unfold joinSetTop
  split
  · rename_i h0
    rw [List.length_eq_zero_iff] at h0
    subst h0
    exact ⟨_,rfl,ht,by simp [IsHull]⟩
  · rename_i h0
    have hne : s ≠ [] := fun h => h0 (by simp [h])
    set nm := s.foldl (fun modu elt => pgcd modu |r - elt|) m with hnm
    have hpos : 1 ≤ nm := foldl_pgcd_pos s hr.pos
    obtain ⟨hdm,hds⟩ := (dvd_foldl_pgcd s (m := m) (r := r)).mp (dvd_refl nm)
    have hcls : ∀ x, x % m = r → x % nm = r % nm := fun x hx => emod_eq_of_dvd_of_emod hdm hx
    have hclss : ∀ x ∈ s, x % nm = r % nm := fun x hx => (emod_eq_of_dvd_sub (hds x hx)).symm
    have hlow : ∀ a' ∈ mn.map (fun a => min a (s.headD 0)), ∃ a ∈ mn, a' = min a (s.headD 0) := by
      intro a' ha'
      obtain ⟨a,ha,rfl⟩ := Option.mem_map.mp ha'
      exact ⟨a,ha,rfl⟩
    have hup : ∀ b' ∈ mx.map (fun b => max b (s.getLastD 0)), ∃ b ∈ mx, b' = max b (s.getLastD 0) := by
      intro b' hb'
      obtain ⟨b,hb,rfl⟩ := Option.mem_map.mp hb'
      exact ⟨b,hb,rfl⟩
    have hred : Reduced (mn.map fun a => min a (s.headD 0)) (mx.map fun b => max b (s.getLastD 0))
        (r % nm) nm := by
      refine ⟨hpos,Int.emod_nonneg _ (by omega),Int.emod_lt_of_pos _ (by omega),?_,?_⟩
      · intro a' ha'
        obtain ⟨a,ha,rfl⟩ := hlow a' ha'
        rcases min_choice a (s.headD 0) with h | h <;> rw [h]
        · exact hcls a (hr.lower a ha)
        · exact hclss _ (headD_mem hne)
      · intro b' hb'
        obtain ⟨b,hb,rfl⟩ := hup b' hb'
        rcases max_choice b (s.getLastD 0) with h | h <;> rw [h]
        · exact hcls b (hr.upper b hb)
        · exact hclss _ (getLastD_mem hne)
    have hlong : Long sc (mn.map fun a => min a (s.headD 0)) (mx.map fun b => max b (s.getLastD 0)) nm := by
      refine Long.enlarge hl (Int.le_of_dvd (by linarith [hr.pos]) hdm) ?_ ?_
      · intro a' ha'
        obtain ⟨a,ha,rfl⟩ := hlow a' ha'
        exact ⟨a,ha,min_le_left _ _⟩
      · intro b' hb'
        obtain ⟨b,hb,rfl⟩ := hup b' hb'
        exact ⟨b,hb,le_max_left _ _⟩
    refine ⟨_,by simp only [check_ok hred,Res.ok_bind]; rfl,wf_topItv_iff.mpr ⟨hred,hlong⟩,?_,?_⟩
    · refine Set.union_subset ?_ ?_
      · intro x hx
        refine ⟨hclss x hx,fun a' ha' => ?_,fun b' hb' => ?_⟩
        · obtain ⟨a,ha,rfl⟩ := hlow a' ha'
          exact (min_le_right _ _).trans (head_le_of_pairwise hs.1 hx)
        · obtain ⟨b,hb,rfl⟩ := hup b' hb'
          exact (le_last_of_pairwise hs.1 hx).trans (le_max_right _ _)
      · rintro x ⟨hx,hxa,hxb⟩
        refine ⟨hcls x hx,fun a' ha' => ?_,fun b' hb' => ?_⟩
        · obtain ⟨a,ha,rfl⟩ := hlow a' ha'
          exact (min_le_left _ _).trans (hxa a ha)
        · obtain ⟨b,hb,rfl⟩ := hup b' hb'
          exact (hxb b hb).trans (le_max_left _ _)
    · intro w hww hsub
      obtain ⟨mn',mx',r',m',rfl,hr',hmn,hmx,hdm',hrm⟩ :=
        cover_topItv hsc ht hww (Set.subset_union_right.trans hsub)
      have hsw : ∀ x ∈ s, x ∈ prog mn' mx' r' m' := fun x hx => hsub (.inl hx)
      have hdnm : m' ∣ nm :=
        (dvd_foldl_pgcd s).mpr ⟨hdm',fun x hx => dvd_sub_of_emod_eq (hrm.trans (hsw x hx).1.symm)⟩
      refine (hred.subset_iff (hlong.mono hpos (by omega)) hr').mpr ⟨?_,?_,hdnm,?_⟩
      · intro a' ha'
        obtain ⟨a,ha,hle⟩ := hmn a' ha'
        exact ⟨_,Option.mem_map_of_mem _ ha,le_min hle ((hsw _ (headD_mem hne)).2.1 a' ha')⟩
      · intro b' hb'
        obtain ⟨b,hb,hle⟩ := hmx b' hb'
        exact ⟨_,Option.mem_map_of_mem _ hb,max_le hle ((hsw _ (getLastD_mem hne)).2.2 b' hb')⟩
      · rw [Int.emod_emod_of_dvd _ hdnm,hrm]

theorem mem_joinMerge {s1 s2 : List ℤ} {x : ℤ} : x ∈ joinMerge s1 s2 ↔ x ∈ s1 ∨ x ∈ s2 := by
  fun_induction joinMerge s1 s2 with
  | case1 s2 => exact (or_iff_right List.not_mem_nil).symm
  | case2 e1 s1 => exact (or_iff_left List.not_mem_nil).symm
  | case3 e1 s1 e2 s2 hlt ih => rw [List.mem_cons,ih,or_left_comm,← List.mem_cons]
  | case4 e1 s1 s2 hlt ih =>
    simp only [List.mem_cons,ih]
    exact or_or_distrib_left
  | case5 e1 s1 e2 s2 hlt hne ih => rw [List.mem_cons,ih,← or_assoc,← List.mem_cons]

theorem joinMerge_pairwise {s1 s2 : List ℤ} (h1 : s1.Pairwise (· < ·)) (h2 : s2.Pairwise (· < ·)) :
    (joinMerge s1 s2).Pairwise (· < ·) := by
  fun_induction joinMerge s1 s2 with
  | case1 s2 => exact h2
  | case2 e1 s1 => exact h1
  | case3 e1 s1 e2 s2 hlt ih =>
    obtain ⟨hlt1,_⟩ := List.pairwise_cons.mp h1
    obtain ⟨hlt2,h2'⟩ := List.pairwise_cons.mp h2
    refine List.pairwise_cons.mpr ⟨?_,ih h1 h2'⟩
    intro x hx
    rcases (mem_joinMerge).mp hx with hx | hx
    · rcases List.mem_cons.mp hx with rfl | hx
      · exact hlt
      · exact hlt.trans (hlt1 x hx)
    · exact hlt2 x hx
  | case4 e1 s1 s2 hlt ih =>
    obtain ⟨hlt1,h1'⟩ := List.pairwise_cons.mp h1
    obtain ⟨hlt2,h2'⟩ := List.pairwise_cons.mp h2
    refine List.pairwise_cons.mpr ⟨?_,ih h1' h2'⟩
    intro x hx
    rcases (mem_joinMerge).mp hx with hx | hx
    · exact hlt1 x hx
    · exact hlt2 x hx
  | case5 e1 s1 e2 s2 hlt hne ih =>
    obtain ⟨hlt1,h1'⟩ := List.pairwise_cons.mp h1
    obtain ⟨hlt2,_⟩ := List.pairwise_cons.mp h2
    refine List.pairwise_cons.mpr ⟨?_,ih h1' h2⟩
    intro x hx
    rcases (mem_joinMerge).mp hx with hx | hx
    · exact hlt1 x hx
    · rcases List.mem_cons.mp hx with rfl | hx
      · omega
      · have := hlt2 x hx
        omega

theorem joinFirst_cases (v1 v2 : Ival) (second : ℕ → Ival) (s1 s2 : List ℤ) (uniq : ℕ) (inc1 inc2 : Bool) :
    (joinFirst v1 v2 second s1 s2 uniq inc1 inc2 = v2 ∧ inc2 = true ∧ ∀ x ∈ s1, x ∈ s2) ∨
    (joinFirst v1 v2 second s1 s2 uniq inc1 inc2 = v1 ∧ inc1 = true ∧ ∀ x ∈ s2, x ∈ s1) ∨
    joinFirst v1 v2 second s1 s2 uniq inc1 inc2 = second (uniq + (joinMerge s1 s2).length) := by
  fun_induction joinFirst v1 v2 second s1 s2 uniq inc1 inc2 with
  | case1 s2 uniq inc1 => exact .inl ⟨rfl,rfl,by simp⟩
  | case2 s2 uniq inc1 inc2 hinc => exact .inr (.inr (by simp [joinMerge]))
  | case3 e1 s1 uniq inc2 => exact .inr (.inl ⟨rfl,rfl,by simp⟩)
  | case4 e1 s1 uniq inc1 inc2 hinc => exact .inr (.inr (by simp [joinMerge]))
  | case5 e1 s1 e2 s2 uniq inc1 inc2 hlt ih =>
    rcases ih with ⟨h,hi,hs⟩ | ⟨_,hi,_⟩ | h
    · exact .inl ⟨h,hi,fun x hx => List.mem_cons_of_mem _ (hs x hx)⟩
    · simp at hi
    · right; right
      rw [h,joinMerge,if_pos hlt,List.length_cons]
      congr 1
      omega
  | case6 e1 s1 e2 s2 uniq inc1 inc2 hlt hgt ih =>
    rcases ih with ⟨_,hi,_⟩ | ⟨h,hi,hs⟩ | h
    · simp at hi
    · exact .inr (.inl ⟨h,hi,fun x hx => List.mem_cons_of_mem _ (hs x hx)⟩)
    · right; right
      rw [h,joinMerge,if_neg hlt,if_neg (by omega),List.length_cons]
      congr 1
      omega
  | case7 e1 s1 e2 s2 uniq inc1 inc2 hlt hgt ih =>
    have he : e1 = e2 := by omega
    subst he
    rcases ih with ⟨h,hi,hs⟩ | ⟨h,hi,hs⟩ | h
    · exact .inl ⟨h,hi,by simpa using fun x hx => Or.inr (hs x hx)⟩
    · exact .inr (.inl ⟨h,hi,by simpa using fun x hx => Or.inr (hs x hx)⟩)
    · right; right
      rw [h,joinMerge,if_neg hlt,if_pos rfl,List.length_cons]
      congr 1
      omega

theorem joinSecond_spec {sc : ℕ} (hsc : 2 ≤ sc) {s1 s2 : List ℤ} (h1 : s1.Pairwise (· < ·))
    (h2 : s2.Pairwise (· < ·)) (hne1 : s1 ≠ []) (hne2 : s2 ≠ []) :
    Wf sc (joinSecond sc s1 s2 (joinMerge s1 s2).length) ∧
      IsHull sc ({x | x ∈ s1} ∪ {x | x ∈ s2}) (joinSecond sc s1 s2 (joinMerge s1 s2).length) := by
  have hp := joinMerge_pairwise h1 h2
  have hmem : ∀ x, x ∈ joinMerge s1 s2 ↔ x ∈ s1 ∨ x ∈ s2 := fun x => mem_joinMerge
  set M := joinMerge s1 s2 with hM
  unfold joinSecond
  split
  · rename_i hle
    have hMne : M.length ≠ 0 := by
      intro h
      have := (hmem (s1.headD 0)).mpr (.inl (headD_mem hne1))
      rw [List.length_eq_zero_iff.mp h] at this
      simp at this
    rw [← hM,shareArray,if_neg hMne]
    refine ⟨⟨hp,hle⟩,fun x hx => (hmem x).mpr hx,fun w _ hs x hx => hs ((hmem x).mp hx)⟩
  · rename_i hgt
    set a := min (s1.headD 0) (s2.headD 0) with ha
    set b := max (s1.getLastD 0) (s2.getLastD 0) with hb
    set m := s2.foldl (accumModu a) (s1.foldl (accumModu a) 0) with hm
    have hdvd : ∀ k, k ∣ m ↔ ∀ x ∈ M, k ∣ x - a := by
      intro k
      rw [hm,dvd_foldl_accumModu,dvd_foldl_accumModu]
      simp only [dvd_zero,true_and,hmem]
      constructor
      · rintro ⟨h,h'⟩ x (hx | hx)
        · exact h x hx
        · exact h' x hx
      · exact fun h => ⟨fun x hx => h x (.inl hx),fun x hx => h x (.inr hx)⟩
    have hbd : ∀ x ∈ M, a ≤ x ∧ x ≤ b := by
      intro x hx
      rcases (hmem x).mp hx with hx | hx
      · exact ⟨(min_le_left _ _).trans (head_le_of_pairwise h1 hx),
          (le_last_of_pairwise h1 hx).trans (le_max_left _ _)⟩
      · exact ⟨(min_le_right _ _).trans (head_le_of_pairwise h2 hx),
          (le_last_of_pairwise h2 hx).trans (le_max_right _ _)⟩
    have haM : a ∈ M := by
      rw [hmem]
      rcases min_choice (s1.headD 0) (s2.headD 0) with h | h <;> rw [ha,h]
      · exact .inl (headD_mem hne1)
      · exact .inr (headD_mem hne2)
    have hbM : b ∈ M := by
      rw [hmem]
      rcases max_choice (s1.getLastD 0) (s2.getLastD 0) with h | h <;> rw [hb,h]
      · exact .inl (getLastD_mem hne1)
      · exact .inr (getLastD_mem hne2)
    have hself := (hdvd m).mp dvd_rfl
    have hm0 : 0 ≤ m := foldl_accumModu_nonneg _ (foldl_accumModu_nonneg _ le_rfl)
    have hlong : sc * m ≤ b - a ∧ m ≠ 0 := by
      cases hMl : M with
      | nil => simp [hMl] at haM
      | cons y l =>
        rw [hMl] at hp hself hbd hgt
        have hspan := span_of_pairwise hp (m := m) fun x hx => by
          have := dvd_sub (hself x (by simp [hx])) (hself y (by simp))
          rwa [show x - a - (y - a) = x - y by ring] at this
        have hy := (hbd y (by simp)).1
        have hlast := (hbd _ (List.getLast_mem (l := y :: l) (by simp))).2
        have hlen : (sc : ℤ) * m ≤ l.length * m := by
          have : (sc : ℤ) ≤ l.length := by
            simp only [List.length_cons] at hgt
            omega
          gcongr
        refine ⟨by omega,fun hz => ?_⟩
        cases l with
        | nil => simp at hgt; omega
        | cons z l =>
          have hyz : y < z := List.rel_of_pairwise_cons hp (by simp)
          have e1 := hself y (by simp)
          have e2 := hself z (by simp)
          rw [hz,zero_dvd_iff] at e1 e2
          omega
    have hholds : (PreSet.preTop a b m).Holds sc ({x | x ∈ s1} ∪ {x | x ∈ s2}) :=
      ⟨by omega,hself b hbM,hlong.1,fun x hx =>
        ⟨(hbd x ((hmem x).mpr hx)).1,(hbd x ((hmem x).mpr hx)).2,hself x ((hmem x).mpr hx)⟩⟩
    obtain ⟨hw,hsub⟩ := injectPs_spec hholds
    refine ⟨hw,hsub,fun w hww hs => ?_⟩
    have hMw : ∀ x ∈ M, x ∈ concr w := fun x hx => hs ((hmem x).mp hx)
    obtain ⟨hr,hl⟩ := wf_topItv_iff.mp hw
    cases w with
    | set s =>
      have := (hp.nodup.subperm fun x hx => hMw x hx).length_le
      have := hww.2
      omega
    | topItv mn' mx' r' m' =>
      obtain ⟨hr',_⟩ := wf_topItv_iff.mp hww
      have hdm : m' ∣ m := (hdvd m').mpr fun x hx =>
        dvd_sub_of_emod_eq ((hMw x hx).1.trans (hMw a haM).1.symm)
      refine (hr.subset_iff (hl.mono hr.pos (by omega)) hr').mpr ⟨?_,?_,hdm,?_⟩
      · intro a' ha'
        exact ⟨a,rfl,(hMw a haM).2.1 a' ha'⟩
      · intro b' hb'
        exact ⟨b,rfl,(hMw b hbM).2.2 b' hb'⟩
      · rw [Int.emod_emod_of_dvd _ hdm]
        exact (hMw a haM).1

theorem joinSets_spec {sc : ℕ} (hsc : 2 ≤ sc) {s1 s2 : List ℤ} (h1 : Wf sc (.set s1)) (h2 : Wf sc (.set s2)) :
    ∃ v, joinBody sc (.set s1) (.set s2) = .ok v ∧ Wf sc v ∧
      IsHull sc ({x | x ∈ s1} ∪ {x | x ∈ s2}) v := by
  have hhull : ∀ {s t : List ℤ}, (∀ x ∈ s, x ∈ t) → IsHull sc ({x | x ∈ s} ∪ {x | x ∈ t}) (.set t) := by
    intro s t hst
    refine ⟨?_,fun w _ hs => Set.subset_union_right.trans hs⟩
    rintro x (hx | hx)
    · exact hst x hx
    · exact hx
  simp only [joinBody]
  split
  · rename_i h0
    exact ⟨_,rfl,h2,hhull (by simp [List.length_eq_zero_iff.mp h0])⟩
  · split
    · rename_i h0
      refine ⟨_,rfl,h1,?_⟩
      rw [Set.union_comm]
      exact hhull (by simp [List.length_eq_zero_iff.mp h0])
    · rename_i hl1 hl2
      have hne1 : s1 ≠ [] := fun h => hl1 (by simp [h])
      have hne2 : s2 ≠ [] := fun h => hl2 (by simp [h])
      rcases joinFirst_cases (.set s1) (.set s2) (joinSecond sc s1 s2) s1 s2 0 true true with
        ⟨he,_,hs⟩ | ⟨he,_,hs⟩ | he
      · exact ⟨_,by rw [he]; rfl,h2,hhull hs⟩
      · exact ⟨_,by rw [he]; rfl,h1,by rw [Set.union_comm]; exact hhull hs⟩
      · obtain ⟨hw,hh⟩ := joinSecond_spec hsc h1.1 h2.1 hne1 hne2
        rw [Nat.zero_add] at he
        exact ⟨_,by rw [he]; rfl,hw,hh⟩

theorem joinBody_spec {sc : ℕ} (hsc : 2 ≤ sc) {v1 v2 : Ival} (h1 : Wf sc v1) (h2 : Wf sc v2) :
    ∃ v, joinBody sc v1 v2 = .ok v ∧ Wf sc v ∧ IsHull sc (concr v1 ∪ concr v2) v := by
  cases v1 with
  | set s1 =>
    cases v2 with
    | set s2 => exact joinSets_spec hsc h1 h2
    | topItv mn mx r m => exact joinSetTop_spec hsc h1 h2
  | topItv mn mx r m =>
    cases v2 with
    | set s2 =>
      obtain ⟨v,hv,hw,hh⟩ := joinSetTop_spec hsc h2 h1
      exact ⟨v,hv,hw,by rwa [Set.union_comm]⟩
    | topItv mn' mx' r' m' => exact joinTops_spec hsc h1 h2

theorem join_spec {sc : ℕ} (hsc : 2 ≤ sc) {v1 v2 : Ival} (h1 : Wf sc v1) (h2 : Wf sc v2) :
    ∃ v, join sc v1 v2 = .ok v ∧ Wf sc v ∧ IsHull sc (concr v1 ∪ concr v2) v := by
  unfold join
  split
  · rename_i he
    subst he
    exact ⟨v1,rfl,h1,by simp [IsHull]⟩
  · exact joinBody_spec hsc h1 h2

theorem IsHull.unique {sc : ℕ} (hsc : 2 ≤ sc) {E : Set ℤ} {v w : Ival} (hv : Wf sc v) (hw : Wf sc w)
    (h : IsHull sc E v) (h' : IsHull sc E w) : v = w :=
  eq_of_concr_eq hsc hv hw (Set.Subset.antisymm (h.2 w hw h'.1) (h'.2 v hv h.1))

theorem IsHull.union_left {sc : ℕ} {E F : Set ℤ} {v w : Ival} (h : IsHull sc E v)
    (hw : IsHull sc (concr v ∪ F) w) : IsHull sc (E ∪ F) w := by
  refine ⟨(Set.union_subset_union_left F h.1).trans hw.1,fun u hu hs => hw.2 u hu ?_⟩
  exact Set.union_subset (h.2 u hu (Set.subset_union_left.trans hs)) (Set.subset_union_right.trans hs)

/-- Inclusion is decided exactly; `join` returns the least upper bound, and is commutative,
associative and idempotent up to `Ival.equal`. -/
theorem isIncluded_join_lattice {sc : ℕ} (hsc : 2 ≤ sc) :
    (∀ v1 v2, Wf sc v1 → Wf sc v2 → (isIncluded v1 v2 = true ↔ ∀ x, x ∈ concr v1 → x ∈ concr v2)) ∧
    (∀ v1 v2, Wf sc v1 → Wf sc v2 → ∃ v, join sc v1 v2 = .ok v ∧ Wf sc v ∧
      isIncluded v1 v = true ∧ isIncluded v2 v = true ∧
      ∀ w, Wf sc w → isIncluded v1 w = true → isIncluded v2 w = true → isIncluded v w = true) ∧
    (∀ v1 v2, Wf sc v1 → Wf sc v2 → ∃ v v', join sc v1 v2 = .ok v ∧ join sc v2 v1 = .ok v' ∧
      equal v v' = true) ∧
    (∀ v1 v2 v3, Wf sc v1 → Wf sc v2 → Wf sc v3 → ∃ v12 v23 v v', join sc v1 v2 = .ok v12 ∧
      join sc v2 v3 = .ok v23 ∧ join sc v12 v3 = .ok v ∧ join sc v1 v23 = .ok v' ∧ equal v v' = true) ∧
    ∀ v, Wf sc v → ∃ v', join sc v v = .ok v' ∧ equal v' v = true := by
  refine ⟨fun v1 v2 h1 h2 => isIncluded_iff_subset hsc h1 h2,?_,?_,?_,?_⟩
  · intro v1 v2 h1 h2
    obtain ⟨v,hv,hw,hh⟩ := join_spec hsc h1 h2
    refine ⟨v,hv,hw,?_,?_,?_⟩
    · exact (isIncluded_iff_subset hsc h1 hw).mpr (Set.subset_union_left.trans hh.1)
    · exact (isIncluded_iff_subset hsc h2 hw).mpr (Set.subset_union_right.trans hh.1)
    · intro w hww hi1 hi2
      exact (isIncluded_iff_subset hsc hw hww).mpr (hh.2 w hww (Set.union_subset
        ((isIncluded_iff_subset hsc h1 hww).mp hi1) ((isIncluded_iff_subset hsc h2 hww).mp hi2)))
  · intro v1 v2 h1 h2
    obtain ⟨v,hv,hw,hh⟩ := join_spec hsc h1 h2
    obtain ⟨v',hv',hw',hh'⟩ := join_spec hsc h2 h1
    rw [Set.union_comm] at hh'
    exact ⟨v,v',hv,hv',equal_iff.mpr (hh.unique hsc hw hw' hh')⟩
  · intro v1 v2 v3 h1 h2 h3
    obtain ⟨v12,hv12,hw12,hh12⟩ := join_spec hsc h1 h2
    obtain ⟨v23,hv23,hw23,hh23⟩ := join_spec hsc h2 h3
    obtain ⟨v,hv,hw,hh⟩ := join_spec hsc hw12 h3
    obtain ⟨v',hv',hw',hh'⟩ := join_spec hsc h1 hw23
    have e1 := hh12.union_left hh
    rw [Set.union_comm] at hh'
    have e2 := hh23.union_left hh'
    rw [Set.union_comm,← Set.union_assoc] at e2
    exact ⟨v12,v23,v,v',hv12,hv23,hv,hv',equal_iff.mpr (e1.unique hsc hw hw' e2)⟩
  · intro v h
    exact ⟨v,by simp [join]; rfl,equal_iff.mpr rfl⟩

theorem isIncluded_join_lattice_eight : ∃ v, join 8 (.set [1]) (.topItv (some 3) none 3 5) = .ok v ∧
    Wf 8 v ∧ isIncluded (.set [1]) v = true ∧ isIncluded (.topItv (some 3) none 3 5) v = true := by
  have hs : Wf 8 (.set [1]) := by simp [Wf]
  have ht : Wf 8 (.topItv (some 3) none 3 5) := by simp [Wf]
  obtain ⟨v,hv,hw,h1,h2,_⟩ := (@isIncluded_join_lattice 8 (by omega)).2.1 _ _ hs ht
  exact ⟨v,hv,hw,h1,h2⟩

end FramaC.Ival
