import FramaC.Lib.Cut

/-! # Maps as height-balanced trees

Binary search trees that store their heights. The comparison need not be a total order: a key is
searched through the cut that it makes in the bindings, and lookup, insertion and removal are
described by the bindings on either side of the cut.
-/
namespace FramaC.BalancedMap
open Cut
variable {K D : Type}

inductive Tree (K D : Type) where
  | empty
  | node (left : Tree K D) (key : K) (data : D) (right : Tree K D) (height : Nat)
  deriving DecidableEq,Repr

namespace Tree

def height : Tree K D → Nat
  | empty => 0
  | node _ _ _ _ h => h

def create (l : Tree K D) (x : K) (d : D) (r : Tree K D) : Tree K D :=
  node l x d r (if height r ≤ height l then height l + 1 else height r + 1)

def singleton (x : K) (d : D) : Tree K D := create empty x d empty

def bal (l : Tree K D) (x : K) (d : D) (r : Tree K D) : Tree K D :=
  if hl : height r + 2 < height l then
    match l,hl with
    | empty,hl => absurd hl (Nat.not_lt_zero _)
    | node ll lv ld lr _,_ =>
      if h : height lr ≤ height ll then create ll lv ld (create lr x d r)
      else
        match lr,h with
        | empty,h => absurd (Nat.zero_le _) h
        | node lrl lrv lrd lrr _,_ => create (create ll lv ld lrl) lrv lrd (create lrr x d r)
  else if hr : height l + 2 < height r then
    match r,hr with
    | empty,hr => absurd hr (Nat.not_lt_zero _)
    | node rl rv rd rr _,_ =>
      if h : height rl ≤ height rr then create (create l x d rl) rv rd rr
      else
        match rl,h with
        | empty,h => absurd (Nat.zero_le _) h
        | node rll rlv rld rlr _,_ => create (create l x d rll) rlv rld (create rlr rv rd rr)
  else create l x d r

def bindings : Tree K D → List (K × D)
  | empty => []
  | node l v d r _ => l.bindings ++ (v,d) :: r.bindings

variable (cmp : K → K → Ordering) (x : K)

/-- Inserts a binding. `same` recognises data that need not be replaced. -/
def add (same : D → D → Bool) (data : D) : Tree K D → Tree K D
  | empty => create empty x data empty
  | node l v d r h =>
    match cmp x v with
    | .eq => if same d data then node l v d r h else node l x data r h
    | .lt => bal (add same data l) v d r
    | .gt => bal l v d (add same data r)

def find : Tree K D → Option D
  | empty => none
  | node l v d r _ =>
    match cmp x v with
    | .eq => some d
    | .lt => find l
    | .gt => find r

def mem : Tree K D → Bool
  | empty => false
  | node l v _ r _ =>
    match cmp x v with
    | .eq => true
    | .lt => mem l
    | .gt => mem r

def minBinding : Tree K D → K → D → K × D
  | empty,x,d => (x,d)
  | node l v d _ _,_,_ => minBinding l v d

/-- The tree `node l x d r` without its least binding. -/
def removeMinBinding : Tree K D → K → D → Tree K D → Tree K D
  | empty,_,_,r => r
  | node ll lv ld lr _,x,d,r => bal (removeMinBinding ll lv ld lr) x d r

def merge : Tree K D → Tree K D → Tree K D
  | empty,t => t
  | t,empty => t
  | t1,node l v d r _ =>
    let (x,d') := minBinding l v d
    bal t1 x d' (removeMinBinding l v d r)

def remove : Tree K D → Tree K D
  | empty => empty
  | node l v d r _ =>
    match cmp x v with
    | .eq => merge l r
    | .lt => bal (remove l) v d r
    | .gt => bal l v d (remove r)

variable {cmp : K → K → Ordering} {x : K}

@[simp] theorem bindings_empty : (empty : Tree K D).bindings = [] := rfl

@[simp] theorem bindings_node {l r : Tree K D} {v : K} {d : D} {h : Nat} :
    (node l v d r h).bindings = l.bindings ++ (v,d) :: r.bindings := rfl

@[simp] theorem bindings_create {l r : Tree K D} {d : D} :
    (create l x d r).bindings = l.bindings ++ (x,d) :: r.bindings := rfl

@[simp] theorem bindings_bal {l r : Tree K D} {d : D} :
    (bal l x d r).bindings = l.bindings ++ (x,d) :: r.bindings := by
  unfold bal
  split_ifs with hl hr
  · cases l with
    | empty => exact absurd hl (Nat.not_lt_zero _)
    | node ll lv ld lr h =>
      dsimp only
      split_ifs with hll
      · simp
      · cases lr with
        | empty => exact absurd (Nat.zero_le _) hll
        | node lrl lrv lrd lrr h' => simp
  · cases r with
    | empty => exact absurd hr (Nat.not_lt_zero _)
    | node rl rv rd rr h =>
      dsimp only
      split_ifs with hrr
      · simp
      · cases rl with
        | empty => exact absurd (Nat.zero_le _) hrr
        | node rll rlv rld rlr h' => simp
  · exact bindings_create

theorem minBinding_cons_removeMinBinding (l : Tree K D) (v : K) (d : D) (r : Tree K D) :
    minBinding l v d :: (removeMinBinding l v d r).bindings = l.bindings ++ (v,d) :: r.bindings := by
  induction l generalizing v d r with
  | empty => rfl
  | node ll lv ld lr h ihl _ =>
    rw [minBinding,removeMinBinding,bindings_bal,← List.cons_append,ihl]
    simp

@[simp] theorem bindings_merge (t1 t2 : Tree K D) :
    (merge t1 t2).bindings = t1.bindings ++ t2.bindings := by
  cases t1 with
  | empty => rfl
  | node l1 v1 d1 r1 h1 =>
    cases t2 with
    | empty => simp [merge]
    | node l v d r h =>
      refine (bindings_bal).trans ?_
      rw [minBinding_cons_removeMinBinding]
      rfl

abbrev cutAt (cmp : K → K → Ordering) (x : K) : K × D → Ordering := fun b => cmp x b.1

theorem find_some {t : Tree K D} {d : D} (h : t.find cmp x = some d) :
    ∃ v, (v,d) ∈ t.bindings ∧ cmp x v = .eq := by
  induction t with
  | empty => simp [find] at h
  | node l v d' r _ ihl ihr =>
    rw [find] at h
    cases hc : cmp x v with
    | eq =>
      rw [hc] at h
      cases h
      exact ⟨v,by simp,hc⟩
    | lt =>
      rw [hc] at h
      obtain ⟨w,hw,he⟩ := ihl h
      exact ⟨w,by simp [hw],he⟩
    | gt =>
      rw [hc] at h
      obtain ⟨w,hw,he⟩ := ihr h
      exact ⟨w,by simp [hw],he⟩

theorem find_eq_none {t : Tree K D} (hc : Monotone (cutAt cmp x) t.bindings) :
    t.find cmp x = none ↔ ∀ b ∈ t.bindings, cmp x b.1 ≠ .eq := by
  refine ⟨fun h => ?_,fun h => ?_⟩
  · induction t with
    | empty => simp
    | node l v d r _ ihl ihr =>
      obtain ⟨hl,hr,hgt,hlt⟩ := hc.around
      rw [find] at h
      intro b hb
      rw [bindings_node,List.mem_append,List.mem_cons] at hb
      cases hv : cmp x v with
      | eq => simp [hv] at h
      | lt =>
        rw [hv] at h
        rcases hb with hb | rfl | hb
        · exact ihl hl h b hb
        · simp [hv]
        · simp [hlt b hb hv]
      | gt =>
        rw [hv] at h
        rcases hb with hb | rfl | hb
        · simp [hgt b hb hv]
        · simp [hv]
        · exact ihr hr h b hb
  · cases hf : t.find cmp x with
    | none => rfl
    | some d =>
      obtain ⟨v,hv,he⟩ := find_some hf
      exact absurd he (h _ hv)

theorem find_eq_some {t : Tree K D} (hc : Strict (cutAt cmp x) t.bindings) {d : D} :
    t.find cmp x = some d ↔ ∃ v, (v,d) ∈ t.bindings ∧ cmp x v = .eq := by
  refine ⟨find_some,fun ⟨v,hv,he⟩ => ?_⟩
  cases hf : t.find cmp x with
  | none => exact absurd he ((find_eq_none hc.monotone).mp hf _ hv)
  | some d' =>
    obtain ⟨w,hw,hwe⟩ := find_some hf
    cases hc.unique hv hw he hwe
    rfl

theorem bindings_add {t : Tree K D} (hc : Strict (cutAt cmp x) t.bindings) (same : D → D → Bool) (data : D) :
    ∃ mid, (t.add cmp x same data).bindings =
        lower (cutAt cmp x) t.bindings ++ mid :: upper (cutAt cmp x) t.bindings ∧
      (mid = (x,data) ∨ mid ∈ t.bindings ∧ cmp x mid.1 = .eq ∧ same mid.2 data = true) := by
  induction t with
  | empty => exact ⟨(x,data),rfl,.inl rfl⟩
  | node l v d r h ihl ihr =>
    obtain ⟨hl,hr,-,-⟩ := hc.around
    rw [add,bindings_node]
    cases hv : cmp x v with
    | eq =>
      obtain ⟨hlo,hup⟩ := hc.sides_eq hv
      rw [hlo,hup]
      by_cases hs : same d data = true
      · exact ⟨(v,d),by simp [hs],.inr ⟨by simp,hv,hs⟩⟩
      · exact ⟨(x,data),by simp [hs],.inl rfl⟩
    | lt =>
      obtain ⟨mid,he,hm⟩ := ihl hl
      obtain ⟨hlo,hup⟩ := hc.sides_lt hv
      refine ⟨mid,?_,hm.imp_right fun ⟨h1,h2⟩ => ⟨by simp [h1],h2⟩⟩
      rw [hlo,hup]
      exact (bindings_bal).trans (by rw [he,List.append_assoc,List.cons_append])
    | gt =>
      obtain ⟨mid,he,hm⟩ := ihr hr
      obtain ⟨hlo,hup⟩ := hc.sides_gt hv
      refine ⟨mid,?_,hm.imp_right fun ⟨h1,h2⟩ => ⟨by simp [h1],h2⟩⟩
      rw [hlo,hup]
      exact (bindings_bal).trans (by rw [he,List.append_assoc,List.cons_append])

theorem bindings_remove {t : Tree K D} (hc : Strict (cutAt cmp x) t.bindings) :
    (t.remove cmp x).bindings = lower (cutAt cmp x) t.bindings ++ upper (cutAt cmp x) t.bindings := by
  induction t with
  | empty => rfl
  | node l v d r h ihl ihr =>
    obtain ⟨hl,hr,-,-⟩ := hc.around
    rw [remove,bindings_node]
    cases hv : cmp x v with
    | eq =>
      obtain ⟨hlo,hup⟩ := hc.sides_eq hv
      rw [hlo,hup]
      exact bindings_merge l r
    | lt =>
      obtain ⟨hlo,hup⟩ := hc.sides_lt hv
      rw [hlo,hup]
      exact (bindings_bal).trans (by rw [ihl hl,List.append_assoc])
    | gt =>
      obtain ⟨hlo,hup⟩ := hc.sides_gt hv
      rw [hlo,hup]
      exact (bindings_bal).trans (by rw [ihr hr,List.append_assoc,List.cons_append])

abbrev Ordered (cmp : K → K → Ordering) (t : Tree K D) : Prop := Sorted cmp Prod.fst t.bindings

section
variable [Std.TransCmp cmp] {t : Tree K D}

theorem Ordered.remove (h : t.Ordered cmp) (x : K) : (t.remove cmp x).Ordered cmp := by
  rw [Ordered,bindings_remove (h.strict x)]
  exact h.delete x

theorem Ordered.add (h : t.Ordered cmp) (x : K) (same : D → D → Bool) (data : D) :
    (t.add cmp x same data).Ordered cmp := by
  obtain ⟨mid,he,hm⟩ := bindings_add (h.strict x) same data
  rw [Ordered,he]
  refine h.insert ?_
  rcases hm with rfl | ⟨-,hm,-⟩
  · exact Std.ReflCmp.compare_self
  · exact hm

theorem Ordered.find_eq_some [Std.LawfulEqCmp cmp] (h : t.Ordered cmp) {x : K} {d : D} :
    t.find cmp x = some d ↔ (x,d) ∈ t.bindings := by
  rw [Tree.find_eq_some (h.strict x)]
  refine ⟨fun ⟨v,hv,he⟩ => ?_,fun hx => ⟨x,hx,Std.ReflCmp.compare_self⟩⟩
  rwa [Std.LawfulEqCmp.eq_of_compare he]

theorem Ordered.mem_add [Std.LawfulEqCmp cmp] (h : t.Ordered cmp) {same : D → D → Bool}
    (hsame : ∀ a b, same a b = true → a = b) {x y : K} {data d : D} :
    (y,d) ∈ (t.add cmp x same data).bindings ↔ y = x ∧ d = data ∨ y ≠ x ∧ (y,d) ∈ t.bindings := by
  obtain ⟨mid,he,hm⟩ := bindings_add (h.strict x) same data
  have hmid : mid = (x,data) := by
    rcases hm with hm | ⟨-,hx,hs⟩
    · exact hm
    · exact Prod.ext (Std.LawfulEqCmp.eq_of_compare hx).symm (hsame _ _ hs)
  rw [he,hmid,List.mem_append,List.mem_cons,mem_lower,mem_upper,Prod.mk.injEq]
  have hxx : cmp x x = .eq := Std.ReflCmp.compare_self
  by_cases hy : y = x
  · simp [hy,hxx]
  · have hne : cmp x y ≠ .eq := fun hc => hy (Std.LawfulEqCmp.eq_of_compare hc).symm
    cases hc : cmp x y with
    | eq => exact absurd hc hne
    | lt => simp [hy,hc]
    | gt => simp [hy,hc]

end

end Tree
end FramaC.BalancedMap
