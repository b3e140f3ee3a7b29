import Mathlib.Data.List.Pairwise
import Mathlib.Tactic.Common

/-! # Cuts of a list

A function to `Ordering` cuts a list: `.gt` marks the elements below the cut, `.lt` those above it. A
search tree follows the cut of the key it looks for, whether or not the comparison is a total order.
-/
namespace FramaC.Cut
variable {A K : Type} {c : A → Ordering} {l l' : List A} {v : A}

def Monotone (c : A → Ordering) (l : List A) : Prop :=
  l.Pairwise fun a b => (c b = .gt → c a = .gt) ∧ (c a = .lt → c b = .lt)

def Strict (c : A → Ordering) (l : List A) : Prop :=
  l.Pairwise fun a b => (c b ≠ .lt → c a = .gt) ∧ (c a ≠ .gt → c b = .lt)

theorem Strict.monotone (h : Strict c l) : Monotone c l := by
  refine List.Pairwise.imp (fun hab => ⟨fun hb => hab.1 ?_,fun ha => hab.2 ?_⟩) h
  · rw [hb]
    decide
  · rw [ha]
    decide

theorem Monotone.around (h : Monotone c (l ++ v :: l')) : Monotone c l ∧ Monotone c l' ∧
    (∀ a ∈ l, c v = .gt → c a = .gt) ∧ ∀ b ∈ l', c v = .lt → c b = .lt := by
  rw [Monotone,List.pairwise_append,List.pairwise_cons] at h
  exact ⟨h.1,h.2.1.2,fun a ha => (h.2.2 a ha v (by simp)).1,fun b hb => (h.2.1.1 b hb).2⟩

theorem Strict.around (h : Strict c (l ++ v :: l')) : Strict c l ∧ Strict c l' ∧
    (∀ a ∈ l, c v ≠ .lt → c a = .gt) ∧ ∀ b ∈ l', c v ≠ .gt → c b = .lt := by
  rw [Strict,List.pairwise_append,List.pairwise_cons] at h
  exact ⟨h.1,h.2.1.2,fun a ha => (h.2.2 a ha v (by simp)).1,fun b hb => (h.2.1.1 b hb).2⟩

theorem Strict.unique (h : Strict c l) {a b : A} (ha : a ∈ l) (hb : b ∈ l) (hae : c a = .eq) (hbe : c b = .eq) :
    a = b := by
  refine List.Pairwise.forall_of_forall_of_flip (R := fun a b => c a = .eq → c b = .eq → a = b) (fun _ _ _ _ => rfl)
    (h.imp fun hab hx hy => ?_) (h.imp fun hab hx hy => ?_) ha hb hae hbe
  · have := hab.2 (by simp [hx])
    simp [hy] at this
  · have := hab.2 (by simp [hy])
    simp [hx] at this

def lower (c : A → Ordering) (l : List A) : List A := l.filter fun a => c a = .gt

def upper (c : A → Ordering) (l : List A) : List A := l.filter fun a => c a = .lt

@[simp] theorem mem_lower {a : A} : a ∈ lower c l ↔ a ∈ l ∧ c a = .gt := by simp [lower]

@[simp] theorem mem_upper {a : A} : a ∈ upper c l ↔ a ∈ l ∧ c a = .lt := by simp [upper]

theorem lower_eq_self (h : ∀ a ∈ l, c a = .gt) : lower c l = l :=
  List.filter_eq_self.mpr fun a ha => decide_eq_true (h a ha)

theorem upper_eq_self (h : ∀ a ∈ l, c a = .lt) : upper c l = l :=
  List.filter_eq_self.mpr fun a ha => decide_eq_true (h a ha)

theorem lower_eq_nil (h : ∀ a ∈ l, c a = .lt) : lower c l = [] :=
  List.filter_eq_nil_iff.mpr fun a ha => by simp [h a ha]

theorem upper_eq_nil (h : ∀ a ∈ l, c a = .gt) : upper c l = [] :=
  List.filter_eq_nil_iff.mpr fun a ha => by simp [h a ha]

theorem Strict.sides_eq (h : Strict c (l ++ v :: l')) (hv : c v = .eq) :
    lower c (l ++ v :: l') = l ∧ upper c (l ++ v :: l') = l' := by
  obtain ⟨-,-,hl,hr⟩ := h.around
  have hl' : ∀ a ∈ l, c a = .gt := fun a ha => hl a ha (by simp [hv])
  have hr' : ∀ b ∈ l', c b = .lt := fun b hb => hr b hb (by simp [hv])
  refine ⟨?_,?_⟩
  · rw [lower,List.filter_append,List.filter_cons_of_neg (by simp [hv])]
    exact (congrArg₂ _ (lower_eq_self hl') (lower_eq_nil hr')).trans (List.append_nil l)
  · rw [upper,List.filter_append,List.filter_cons_of_neg (by simp [hv])]
    exact congrArg₂ _ (upper_eq_nil hl') (upper_eq_self hr')

theorem Strict.sides_lt (h : Strict c (l ++ v :: l')) (hv : c v = .lt) :
    lower c (l ++ v :: l') = lower c l ∧ upper c (l ++ v :: l') = upper c l ++ v :: l' := by
  obtain ⟨-,-,-,hr⟩ := h.around
  have hr' : ∀ b ∈ l', c b = .lt := fun b hb => hr b hb (by simp [hv])
  refine ⟨?_,?_⟩
  · rw [lower,List.filter_append,List.filter_cons_of_neg (by simp [hv])]
    exact (congrArg (_ ++ ·) (lower_eq_nil hr')).trans (List.append_nil _)
  · rw [upper,List.filter_append,List.filter_cons_of_pos (by simp [hv])]
    exact congrArg (fun r => _ ++ v :: r) (upper_eq_self hr')

theorem Strict.sides_gt (h : Strict c (l ++ v :: l')) (hv : c v = .gt) :
    lower c (l ++ v :: l') = l ++ v :: lower c l' ∧ upper c (l ++ v :: l') = upper c l' := by
  obtain ⟨-,-,hl,-⟩ := h.around
  have hl' : ∀ a ∈ l, c a = .gt := fun a ha => hl a ha (by simp [hv])
  refine ⟨?_,?_⟩
  · rw [lower,List.filter_append,List.filter_cons_of_pos (by simp [hv])]
    exact congrArg (· ++ v :: _) (lower_eq_self hl')
  · rw [upper,List.filter_append,List.filter_cons_of_neg (by simp [hv])]
    exact congrArg (· ++ _) (upper_eq_nil hl')

theorem lower_append (l l' : List A) : lower c (l ++ l') = lower c l ++ lower c l' := List.filter_append ..

theorem upper_append (l l' : List A) : upper c (l ++ l') = upper c l ++ upper c l' := List.filter_append ..

theorem Strict.split_of_mem (h : Strict c l) {a : A} (ha : a ∈ l) (hc : c a = .eq) : lower c l ++ a :: upper c l = l := by
  obtain ⟨s,t,rfl⟩ := List.append_of_mem ha
  obtain ⟨hlo,hup⟩ := h.sides_eq hc
  rw [hlo,hup]

theorem Strict.lower_append_upper (h : Strict c l) : lower c l ++ upper c l = l.filter fun a => c a ≠ .eq := by
  induction l with
  | nil => rfl
  | cons v l ih =>
    obtain ⟨-,hs,-,hr⟩ := Strict.around (l := []) h
    -- above the cut nothing is filtered
    have keep : c v ≠ .gt → (l.filter fun a => c a ≠ .eq) = l := fun hv =>
      List.filter_eq_self.mpr fun b hb => by simp [hr b hb hv]
    cases hv : c v with
    | eq =>
      obtain ⟨hlo,hup⟩ := Strict.sides_eq (l := []) h hv
      rw [List.nil_append] at hlo hup
      rw [hlo,hup,List.filter_cons_of_neg (by simp [hv]),keep (by simp [hv]),List.nil_append]
    | lt =>
      obtain ⟨hlo,hup⟩ := Strict.sides_lt (l := []) h hv
      rw [List.nil_append] at hlo hup
      rw [hlo,hup,List.filter_cons_of_pos (by simp [hv]),keep (by simp [hv])]
      rfl
    | gt =>
      obtain ⟨hlo,hup⟩ := Strict.sides_gt (l := []) h hv
      rw [List.nil_append] at hlo hup
      rw [hlo,hup,List.filter_cons_of_pos (by simp [hv]),← ih hs]
      rfl

theorem Strict.split_of_not_mem (h : Strict c l) (hc : ∀ a ∈ l, c a ≠ .eq) : lower c l ++ upper c l = l :=
  h.lower_append_upper.trans (List.filter_eq_self.mpr fun a ha => by simpa using hc a ha)

theorem pairwise_insert {R : A → A → Prop} (h : l.Pairwise R) {mid : A} (hlo : ∀ a ∈ lower c l, R a mid)
    (hup : ∀ b ∈ upper c l, R mid b) (hlu : ∀ a ∈ lower c l, ∀ b ∈ upper c l, R a b) :
    (lower c l ++ mid :: upper c l).Pairwise R := by
  refine List.pairwise_append.mpr ⟨h.filter _,List.pairwise_cons.mpr ⟨hup,h.filter _⟩,fun a ha b hb => ?_⟩
  rcases List.mem_cons.mp hb with rfl | hb
  · exact hlo a ha
  · exact hlu a ha b hb

section
variable {cmp : K → K → Ordering} [Std.TransCmp cmp] {key : A → K}

def Sorted (cmp : K → K → Ordering) (key : A → K) (l : List A) : Prop :=
  l.Pairwise fun a b => cmp (key a) (key b) = .lt

theorem Sorted.strict (h : Sorted cmp key l) (x : K) : Strict (fun a => cmp x (key a)) l := by
  refine List.Pairwise.imp (fun {a b} hab => ⟨fun hb => ?_,fun ha => ?_⟩) h
  · refine Std.TransCmp.gt_of_isGE_of_gt (b := key b) ?_ (Std.OrientedCmp.gt_of_lt hab)
    cases hc : cmp x (key b) with
    | lt => exact absurd hc hb
    | eq => rfl
    | gt => rfl
  · refine Std.TransCmp.lt_of_isLE_of_lt (b := key a) ?_ hab
    cases hc : cmp x (key a) with
    | gt => exact absurd hc ha
    | eq => rfl
    | lt => rfl

theorem lower_lt_upper {x : K} {a b : A} (ha : a ∈ lower (fun a => cmp x (key a)) l)
    (hb : b ∈ upper (fun a => cmp x (key a)) l) : cmp (key a) (key b) = .lt :=
  Std.TransCmp.lt_trans (Std.OrientedCmp.lt_of_gt ((mem_lower).mp ha).2) ((mem_upper).mp hb).2

theorem Sorted.insert (h : Sorted cmp key l) {x : K} {mid : A} (hm : cmp x (key mid) = .eq) :
    Sorted cmp key (lower (fun a => cmp x (key a)) l ++ mid :: upper (fun a => cmp x (key a)) l) := by
  refine pairwise_insert h (fun a ha => ?_) (fun b hb => ?_) fun a ha b hb => lower_lt_upper ha hb
  · exact Std.TransCmp.lt_of_lt_of_eq (Std.OrientedCmp.lt_of_gt ((mem_lower).mp ha).2) hm
  · exact Std.TransCmp.lt_of_eq_of_lt (Std.OrientedCmp.eq_symm hm) ((mem_upper).mp hb).2

theorem Sorted.delete (h : Sorted cmp key l) (x : K) :
    Sorted cmp key (lower (fun a => cmp x (key a)) l ++ upper (fun a => cmp x (key a)) l) :=
  List.pairwise_append.mpr ⟨h.filter _,h.filter _,fun _ ha _ hb => lower_lt_upper ha hb⟩

end

end FramaC.Cut

/-! ## Sorted lists walked side by side

A walk through two lists sorted by their keys, which meets the elements of equal keys together and every other element alone.
Unions, intersections, differences and merges of sorted lists are such walks.
-/
set_option linter.unusedSectionVars false
namespace FramaC.SideBySide
open Cut
variable {K A B C : Type} (cmp : K → K → Ordering) (ka : A → K) (kb : B → K) (kc : C → K)

def walk (left : A → Option C) (right : B → Option C) (both : A → B → Option C) : List A → List B → List C
  | [],ys => ys.filterMap right
  | x :: xs,[] => (x :: xs).filterMap left
  | x :: xs,y :: ys =>
    match cmp (ka x) (kb y) with
    | .lt => (left x).toList ++ walk left right both xs (y :: ys)
    | .gt => (right y).toList ++ walk left right both (x :: xs) ys
    | .eq => (both x y).toList ++ walk left right both xs ys
termination_by xs ys => xs.length + ys.length

def find (k : K) (l : List A) : Option A := l.find? fun a => cmp k (ka a) = .eq

/-- What a walk makes of an element has the key of the element. -/
structure Keeps (left : A → Option C) (right : B → Option C) (both : A → B → Option C) : Prop where
  left : ∀ {a : A} {c : C}, left a = some c → cmp (kc c) (ka a) = .eq
  right : ∀ {b : B} {c : C}, right b = some c → cmp (kc c) (kb b) = .eq
  both : ∀ {a : A} {b : B} {c : C}, both a b = some c → cmp (ka a) (kb b) = .eq → cmp (kc c) (ka a) = .eq

variable {cmp ka kb kc} [Std.TransCmp cmp] {left : A → Option C} {right : B → Option C} {both : A → B → Option C}

theorem lt_all {x : A} {y : B} {ys : List B} (h : Sorted cmp kb (y :: ys)) (hlt : cmp (ka x) (kb y) = .lt) :
    ∀ b ∈ y :: ys, cmp (ka x) (kb b) = .lt := by
  intro b hb
  rcases List.mem_cons.mp hb with rfl | hb
  · exact hlt
  · exact Std.TransCmp.lt_trans hlt ((List.pairwise_cons.mp h).1 b hb)

theorem gt_all {x : A} {y : B} {xs : List A} (h : Sorted cmp ka (x :: xs)) (hgt : cmp (ka x) (kb y) = .gt) :
    ∀ a ∈ x :: xs, cmp (ka a) (kb y) = .gt := by
  intro a ha
  have hlt := lt_all h (Std.OrientedCmp.lt_of_gt hgt) a ha
  exact Std.OrientedCmp.gt_of_lt hlt

theorem mem_walk {xs : List A} {ys : List B} (hx : Sorted cmp ka xs) (hy : Sorted cmp kb ys) {c : C} :
    c ∈ walk cmp ka kb left right both xs ys ↔
      (∃ a ∈ xs, (∀ b ∈ ys, cmp (ka a) (kb b) ≠ .eq) ∧ left a = some c) ∨
      (∃ b ∈ ys, (∀ a ∈ xs, cmp (ka a) (kb b) ≠ .eq) ∧ right b = some c) ∨
      ∃ a ∈ xs, ∃ b ∈ ys, cmp (ka a) (kb b) = .eq ∧ both a b = some c := by
  induction xs, ys using walk.induct cmp ka kb with
  | case1 ys => simp [walk]
  | case2 x xs => simp [walk]
  | case3 x xs y ys hlt ih =>
    have hne : ∀ b ∈ y :: ys, cmp (ka x) (kb b) ≠ .eq := fun b hb h => by simp [lt_all hy hlt b hb] at h
    simp only [walk,hlt,List.mem_append,Option.mem_toList,ih (List.pairwise_cons.mp hx).2 hy]
    grind
  | case4 x xs y ys hgt ih =>
    have hne : ∀ a ∈ x :: xs, cmp (ka a) (kb y) ≠ .eq := fun a ha h => by simp [gt_all hx hgt a ha] at h
    simp only [walk,hgt,List.mem_append,Option.mem_toList,ih hx (List.pairwise_cons.mp hy).2]
    grind
  | case5 x xs y ys heq ih =>
    obtain ⟨hxa,hxs⟩ := List.pairwise_cons.mp hx
    obtain ⟨hyb,hys⟩ := List.pairwise_cons.mp hy
    have hnex : ∀ b ∈ ys, cmp (ka x) (kb b) ≠ .eq := fun b hb h => by
      simp [Std.TransCmp.lt_of_eq_of_lt heq (hyb b hb)] at h
    have hney : ∀ a ∈ xs, cmp (ka a) (kb y) ≠ .eq := fun a ha h => by
      have hya := Std.TransCmp.lt_of_eq_of_lt (Std.OrientedCmp.eq_symm heq) (hxa a ha)
      simp [Std.OrientedCmp.eq_symm h] at hya
    simp only [walk,heq,List.mem_append,Option.mem_toList,ih hxs hys]
    grind

theorem lt_walk (hk : Keeps cmp ka kb kc left right both) {xs : List A} {ys : List B} (hx : Sorted cmp ka xs)
    (hy : Sorted cmp kb ys) {k : K} (hkx : ∀ a ∈ xs, cmp k (ka a) = .lt) (hky : ∀ b ∈ ys, cmp k (kb b) = .lt) :
    ∀ c ∈ walk cmp ka kb left right both xs ys, cmp k (kc c) = .lt := by
  intro c hc
  rcases (mem_walk hx hy).mp hc with ⟨a,ha,_,h⟩ | ⟨b,hb,_,h⟩ | ⟨a,ha,b,_,hab,h⟩
  · exact Std.TransCmp.lt_of_lt_of_eq (hkx a ha) (Std.OrientedCmp.eq_symm (hk.left h))
  · exact Std.TransCmp.lt_of_lt_of_eq (hky b hb) (Std.OrientedCmp.eq_symm (hk.right h))
  · exact Std.TransCmp.lt_of_lt_of_eq (hkx a ha) (Std.OrientedCmp.eq_symm (hk.both h hab))

theorem sorted_toList_append {o : Option C} {l : List C} (hl : Sorted cmp kc l)
    (h : ∀ c₀, o = some c₀ → ∀ c ∈ l, cmp (kc c₀) (kc c) = .lt) : Sorted cmp kc (o.toList ++ l) := by
  cases o with
  | none => exact hl
  | some c₀ => exact List.pairwise_cons.mpr ⟨h c₀ rfl,hl⟩

theorem sorted_filterMap {f : A → Option C} (hf : ∀ {a c}, f a = some c → cmp (kc c) (ka a) = .eq) {l : List A}
    (hl : Sorted cmp ka l) : Sorted cmp kc (l.filterMap f) := by
  refine List.Pairwise.filterMap f (fun a a' haa' c hc c' hc' => ?_) hl
  exact Std.TransCmp.lt_of_eq_of_lt (hf hc) (Std.TransCmp.lt_of_lt_of_eq haa' (Std.OrientedCmp.eq_symm (hf hc')))

theorem sorted_walk (hk : Keeps cmp ka kb kc left right both) {xs : List A} {ys : List B} (hx : Sorted cmp ka xs)
    (hy : Sorted cmp kb ys) : Sorted cmp kc (walk cmp ka kb left right both xs ys) := by
  induction xs, ys using walk.induct cmp ka kb with
  | case1 ys =>
    rw [walk]
    exact sorted_filterMap hk.right hy
  | case2 x xs =>
    rw [walk]
    exact sorted_filterMap hk.left hx
  | case3 x xs y ys hlt ih =>
    obtain ⟨hxa,hxs⟩ := List.pairwise_cons.mp hx
    simp only [walk,hlt]
    refine sorted_toList_append (ih hxs hy) fun c₀ h₀ => ?_
    have hbelow : ∀ {k : K}, cmp (ka x) k = .lt → cmp (kc c₀) k = .lt := Std.TransCmp.lt_of_eq_of_lt (hk.left h₀)
    exact lt_walk hk hxs hy (fun a ha => hbelow (hxa a ha)) fun b hb => hbelow (lt_all hy hlt b hb)
  | case4 x xs y ys hgt ih =>
    obtain ⟨hyb,hys⟩ := List.pairwise_cons.mp hy
    simp only [walk,hgt]
    refine sorted_toList_append (ih hx hys) fun c₀ h₀ => ?_
    have hbelow : ∀ {k : K}, cmp (kb y) k = .lt → cmp (kc c₀) k = .lt := Std.TransCmp.lt_of_eq_of_lt (hk.right h₀)
    exact lt_walk hk hx hys (fun a ha => hbelow (Std.OrientedCmp.lt_of_gt (gt_all hx hgt a ha))) fun b hb =>
      hbelow (hyb b hb)
  | case5 x xs y ys heq ih =>
    obtain ⟨hxa,hxs⟩ := List.pairwise_cons.mp hx
    obtain ⟨hyb,hys⟩ := List.pairwise_cons.mp hy
    simp only [walk,heq]
    refine sorted_toList_append (ih hxs hys) fun c₀ h₀ => ?_
    have hbelow : ∀ {k : K}, cmp (ka x) k = .lt → cmp (kc c₀) k = .lt :=
      Std.TransCmp.lt_of_eq_of_lt (hk.both h₀ heq)
    exact lt_walk hk hxs hys (fun a ha => hbelow (hxa a ha)) fun b hb =>
      hbelow (Std.TransCmp.lt_of_eq_of_lt heq (hyb b hb))

theorem find_eq_none {k : K} {l : List A} : find cmp ka k l = none ↔ ∀ a ∈ l, cmp k (ka a) ≠ .eq := by
  simp [find]

theorem find_eq_some_of_unique {l : List A} {k : K}
    (hu : ∀ a ∈ l, ∀ b ∈ l, cmp k (ka a) = .eq → cmp k (ka b) = .eq → a = b) {a : A} :
    find cmp ka k l = some a ↔ a ∈ l ∧ cmp k (ka a) = .eq := by
  constructor
  · intro hf
    exact ⟨List.mem_of_find?_eq_some hf,by simpa using List.find?_some hf⟩
  · rintro ⟨ha,hk⟩
    cases hf : find cmp ka k l with
    | none => exact absurd hk ((find_eq_none).mp hf a ha)
    | some a' =>
      have hk' : cmp k (ka a') = .eq := by simpa using List.find?_some hf
      rw [hu a' (List.mem_of_find?_eq_some hf) a ha hk' hk]

theorem unique {l : List A} (h : Sorted cmp ka l) (k : K) :
    ∀ a ∈ l, ∀ b ∈ l, cmp k (ka a) = .eq → cmp k (ka b) = .eq → a = b :=
  fun _ ha _ hb hka hkb => (h.strict k).unique ha hb hka hkb

theorem find_eq_some {l : List A} (h : Sorted cmp ka l) {k : K} {a : A} :
    find cmp ka k l = some a ↔ a ∈ l ∧ cmp k (ka a) = .eq := find_eq_some_of_unique (unique h k)

theorem find_filterMap {f : A → Option C} (hf : ∀ {a c}, f a = some c → cmp (kc c) (ka a) = .eq) {l : List A}
    (hl : Sorted cmp ka l) (k : K) : find cmp kc k (l.filterMap f) = (find cmp ka k l).bind f := by
  ext c
  rw [find_eq_some (sorted_filterMap hf hl),List.mem_filterMap,Option.bind_eq_some_iff]
  constructor
  · rintro ⟨⟨a,ha,hac⟩,hkc⟩
    exact ⟨a,(find_eq_some hl).mpr ⟨ha,Std.TransCmp.eq_trans hkc (hf hac)⟩,hac⟩
  · rintro ⟨a,ha,hac⟩
    obtain ⟨ha,hka⟩ := (find_eq_some hl).mp ha
    exact ⟨⟨a,ha,hac⟩,Std.TransCmp.eq_trans hka (Std.OrientedCmp.eq_symm (hf hac))⟩

def combine (left : A → Option C) (right : B → Option C) (both : A → B → Option C) : Option A → Option B → Option C
  | some a,some b => both a b
  | some a,none => left a
  | none,some b => right b
  | none,none => none

theorem find_walk (hk : Keeps cmp ka kb kc left right both) {xs : List A} {ys : List B} (hx : Sorted cmp ka xs)
    (hy : Sorted cmp kb ys) (k : K) :
    find cmp kc k (walk cmp ka kb left right both xs ys) =
      combine left right both (find cmp ka k xs) (find cmp kb k ys) := by
  ext c
  rw [find_eq_some (sorted_walk hk hx hy),mem_walk hx hy]
  constructor
  · rintro ⟨⟨a,ha,hne,h⟩ | ⟨b,hb,hne,h⟩ | ⟨a,ha,b,hb,hab,h⟩,hkc⟩
    · have hka := Std.TransCmp.eq_trans hkc (hk.left h)
      have hnone : find cmp kb k ys = none :=
        (find_eq_none).mpr fun b hb hkb => hne b hb (Std.TransCmp.eq_trans (Std.OrientedCmp.eq_symm hka) hkb)
      rw [(find_eq_some hx).mpr ⟨ha,hka⟩,hnone]
      exact h
    · have hkb := Std.TransCmp.eq_trans hkc (hk.right h)
      have hnone : find cmp ka k xs = none :=
        (find_eq_none).mpr fun a ha hka => hne a ha (Std.TransCmp.eq_trans (Std.OrientedCmp.eq_symm hka) hkb)
      rw [(find_eq_some hy).mpr ⟨hb,hkb⟩,hnone]
      exact h
    · have hka := Std.TransCmp.eq_trans hkc (hk.both h hab)
      rw [(find_eq_some hx).mpr ⟨ha,hka⟩,(find_eq_some hy).mpr ⟨hb,Std.TransCmp.eq_trans hka hab⟩]
      exact h
  · intro h
    cases hfx : find cmp ka k xs with
    | none =>
      cases hfy : find cmp kb k ys with
      | none => simp [hfx,hfy,combine] at h
      | some b =>
        obtain ⟨hb,hkb⟩ := (find_eq_some hy).mp hfy
        rw [hfx,hfy] at h
        refine ⟨.inr (.inl ⟨b,hb,fun a ha hab => ?_,h⟩),Std.TransCmp.eq_trans hkb (Std.OrientedCmp.eq_symm (hk.right h))⟩
        exact (find_eq_none).mp hfx a ha (Std.TransCmp.eq_trans hkb (Std.OrientedCmp.eq_symm hab))
    | some a =>
      obtain ⟨ha,hka⟩ := (find_eq_some hx).mp hfx
      cases hfy : find cmp kb k ys with
      | none =>
        rw [hfx,hfy] at h
        refine ⟨.inl ⟨a,ha,fun b hb hab => ?_,h⟩,Std.TransCmp.eq_trans hka (Std.OrientedCmp.eq_symm (hk.left h))⟩
        exact (find_eq_none).mp hfy b hb (Std.TransCmp.eq_trans hka hab)
      | some b =>
        obtain ⟨hb,hkb⟩ := (find_eq_some hy).mp hfy
        rw [hfx,hfy] at h
        have hab := Std.TransCmp.eq_trans (Std.OrientedCmp.eq_symm hka) hkb
        exact ⟨.inr (.inr ⟨a,ha,b,hb,hab,h⟩),Std.TransCmp.eq_trans hka (Std.OrientedCmp.eq_symm (hk.both h hab))⟩

end FramaC.SideBySide
