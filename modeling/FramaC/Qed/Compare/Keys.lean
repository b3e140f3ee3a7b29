import FramaC.Qed.Term

/-! # Comparison by keys

The structural comparison as a lexicographic comparison of keys for each constructor, and by ranks for different ones.
-/
set_option linter.unusedSectionVars false
namespace FramaC.Qed
open Comparison
variable {ADT Field Fun : Type}

theorem compareLex_map {α β : Type} (c : β → β → Ordering) (f : α → β) (l m : List α) :
    List.compareLex c (l.map f) (m.map f) = List.compareLex (fun a b => c (f a) (f b)) l m := by
  induction l generalizing m with
  | nil => cases m <;> rfl
  | cons a l ih =>
    cases m with
    | nil => rfl
    | cons b m => simp only [List.map_cons,List.compareLex_cons_cons,ih]

def argCmp {T : Type} [Ord Field] (phi : T → T → Ordering) (x y : Option Field × T) : Ordering :=
  (optCompare compare x.1 y.1).then (phi x.2 y.2)

variable (Field) in
theorem compareLex_none {T : Type} [Ord Field] (phi : T → T → Ordering) (l m : List T) :
    List.compareLex (argCmp phi) (l.map fun x => ((none : Option Field),x)) (m.map fun x => (none,x)) =
      List.compareLex phi l m := compareLex_map _ _ l m

variable (Field) in
theorem compareLex_some {T : Type} [Ord Field] (phi : T → T → Ordering) (l m : List (Field × T)) :
    List.compareLex (argCmp phi) (l.map fun fx => (some fx.1,fx.2)) (m.map fun fx => (some fx.1,fx.2)) =
      List.compareLex (cmpField phi) l m := compareLex_map _ _ l m

namespace Tau
variable [Ord Field] [Ord ADT]

def rank : TauRepr ADT Field → ℕ
  | .bool => 0
  | .int => 1
  | .real => 2
  | .prop => 3
  | .tvar _ => 4
  | .array => 5
  | .data _ => 6
  | .record _ => 7

def tvarOf : TauRepr ADT Field → ℤ
  | .tvar n => n
  | _ => 0

def adtOf : TauRepr ADT Field → Option ADT
  | .data a => some a
  | _ => none

def argsOf (t : Tau ADT Field) : List (Option Field × Tau ADT Field) :=
  match t.label with
  | .array | .data _ => t.children.map fun t => (none,t)
  | .record fs => (fs.zip t.children).map fun ft => (some ft.1,ft.2)
  | _ => []

def keyCmp (phi : Tau ADT Field → Tau ADT Field → Ordering) (t1 t2 : Tau ADT Field) : Ordering :=
  (Ord.compare (tvarOf t1.label) (tvarOf t2.label)).then <|
  (optCompare Ord.compare (adtOf t1.label) (adtOf t2.label)).then (List.compareLex (argCmp phi) (argsOf t1) (argsOf t2))

theorem cmpTau_eq (phi : Tau ADT Field → Tau ADT Field → Ordering) (t1 t2 : Tau ADT Field) :
    cmpTau phi t1 t2 = if rank t1.label = rank t2.label then keyCmp phi t1 t2
      else Ord.compare (rank t1.label) (rank t2.label) := by
  obtain ⟨l,xs⟩ := t1
  obtain ⟨m,ys⟩ := t2
  have hmap := compareLex_none Field phi
  have hfields := compareLex_some Field phi
  cases l <;> cases m <;>
    first
    | rfl
    | (refine Eq.trans ?_ (if_pos rfl).symm
       simp [cmpTau,keyCmp,argsOf,tvarOf,adtOf,optCompare,hmap,hfields,List.compareLex_nil_nil])

end Tau

namespace COMPARE
variable [DecidableEq ADT] [DecidableEq Field] [DecidableEq Fun] [Ord ADT] [FieldSymbol Field] [FunSymbol Fun]

def rank (t : Term ADT Field Fun) : ℕ :=
  match t.label, t.children with
  | .true, _ => 0
  | .false, _ => 1
  | .kint _, _ => 2
  | .kreal _, _ => 3
  | .fvar _, _ => 4
  | .bvar _ _, _ => 5
  | .func _, [] => 6
  | .eq, _ => 7
  | .neq, _ => 8
  | .lt, _ => 9
  | .leq, _ => 10
  | .func _, _ :: _ => 11
  | .times _, _ => 12
  | .not, _ => 13
  | .imply, _ => 14
  | .add, _ => 15
  | .mul, _ => 16
  | .and, _ => 17
  | .or, _ => 18
  | .div, _ => 19
  | .mod, _ => 20
  | .ite, _ => 21
  | .acst _, _ => 22
  | .aget, _ => 23
  | .aset, _ => 24
  | .rget _, _ => 25
  | .rdef _, _ => 26
  | .apply, _ => 27
  | .bind _ _, _ => 28

def funRankOf (t : Term ADT Field Fun) : ℕ :=
  match t.label with
  | .func f => funRank f
  | _ => 0

def sizeOf (t : Term ADT Field Fun) : ℕ :=
  match t.label with
  | .acst _ => 0
  | _ => t.size

def intOf : Repr ADT Field Fun → ℤ
  | .kint z => z
  | .times z => z
  | _ => 0

def ratOf : Repr ADT Field Fun → ℚ
  | .kreal q => q
  | _ => 0

def varOf : Repr ADT Field Fun → Option (Var ADT Field)
  | .fvar x => some x
  | _ => none

def indexOf : Repr ADT Field Fun → ℕ
  | .bvar k _ => k
  | .bind q _ => rankBind q
  | _ => 0

def funOf : Repr ADT Field Fun → Option Fun
  | .func f => some f
  | _ => none

def keyOf : Repr ADT Field Fun → Option (Tau ADT Field)
  | .acst t => some t
  | _ => none

def argsOf (t : Term ADT Field Fun) : List (Option Field × Term ADT Field Fun) :=
  match t.label with
  | .true | .false | .kint _ | .kreal _ | .fvar _ | .bvar _ _ => []
  | .rdef fs => (fs.zip t.children).map fun fx => (some fx.1,fx.2)
  | _ => t.children.map fun x => (none,x)

def fieldOf : Repr ADT Field Fun → Option Field
  | .rget f => some f
  | _ => none

def boundOf : Repr ADT Field Fun → Option (Tau ADT Field)
  | .bind _ t => some t
  | _ => none

def before (a b : Term ADT Field Fun) : Ordering :=
  (Ord.compare (funRankOf a) (funRankOf b)).then <| (Ord.compare (sizeOf a) (sizeOf b)).then <|
  (Ord.compare (intOf a.label) (intOf b.label)).then <| (Ord.compare (ratOf a.label) (ratOf b.label)).then <|
  (optCompare Var.compare (varOf a.label) (varOf b.label)).then <|
  (Ord.compare (indexOf a.label) (indexOf b.label)).then <|
  (optCompare Ord.compare (funOf a.label) (funOf b.label)).then (optCompare Tau.compare (keyOf a.label) (keyOf b.label))

def after (a b : Term ADT Field Fun) : Ordering :=
  (optCompare Ord.compare (fieldOf a.label) (fieldOf b.label)).then
    (optCompare Tau.compare (boundOf a.label) (boundOf b.label))

def keyCmp (phi : Term ADT Field Fun → Term ADT Field Fun → Ordering) (a b : Term ADT Field Fun) : Ordering :=
  (before a b).then ((List.compareLex (argCmp phi) (argsOf a) (argsOf b)).then (after a b))

def hashHead : Repr ADT Field Fun → ℕ
  | .false => 0
  | .true => 1
  | .kint _ => 2
  | .kreal _ => 3
  | .times _ => 4
  | .add => 5
  | .mul => 6
  | .and => 7
  | .or => 8
  | .div => 9
  | .mod => 10
  | .eq => 11
  | .neq => 12
  | .leq => 13
  | .lt => 14
  | .not => 15
  | .imply => 16
  | .ite => 17
  | .func _ => 18
  | .fvar _ => 19
  | .bvar _ _ => 20
  | .bind _ _ => 21
  | .apply => 22
  | .aset => 23
  | .aget => 24
  | .acst _ => 25
  | .rdef _ => 26
  | .rget _ => 27

theorem cmpStruct_eq (phi : Term ADT Field Fun → Term ADT Field Fun → Ordering) (a b : Term ADT Field Fun) :
    cmpStruct phi a b = if hashHead a.label = hashHead b.label then keyCmp phi a b
      else Ord.compare (rank a) (rank b) := by
  obtain ⟨l,xs⟩ := a
  obtain ⟨m,ys⟩ := b
  have hmap := compareLex_none Field phi
  have hfields := compareLex_some Field phi
  cases l <;> cases m <;>
    first
    | rfl
    | (cases xs <;> rfl)
    | (cases ys <;> rfl)
    | (refine Eq.trans ?_ (if_pos rfl).symm
       simp [cmpStruct,keyCmp,before,after,argsOf,funRankOf,sizeOf,intOf,ratOf,varOf,indexOf,funOf,keyOf,fieldOf,boundOf,
        optCompare,hmap,hfields,cmpSize,cmpBind,Ordering.then_assoc,Term.size,sizeRepr,List.compareLex_nil_nil])

end COMPARE
end FramaC.Qed

/-! ## The order of terms

Where the structural comparison of terms is a total order.
-/
set_option linter.unusedSectionVars false
namespace FramaC.Qed
open Comparison
variable {ADT Field Fun : Type}

theorem compareLex_congr {α : Type} {c c' : α → α → Ordering} {l m : List α} (h : ∀ a ∈ l, ∀ b ∈ m, c a b = c' a b) :
    List.compareLex c l m = List.compareLex c' l m := by
  induction l generalizing m with
  | nil => cases m <;> rfl
  | cons a l ih =>
    cases m with
    | nil => rfl
    | cons b m =>
      rw [List.compareLex_cons_cons,List.compareLex_cons_cons,h a (by simp) b (by simp),
        ih fun x hx y hy => h x (by simp [hx]) y (by simp [hy])]

theorem orderOn_symbols (S : Type) [Ord S] [Std.TransOrd S] :
    OrderOn (optCompare (Ord.compare (α := S))) Set.univ :=
  (OrderOn.of_key id Ord.compare Set.univ).option.mono fun _ _ _ _ => trivial

theorem argCmp_order {T : Type} [Ord Field] [Std.TransOrd Field] {phi : T → T → Ordering} {S : Set T}
    (h : OrderOn phi S) : OrderOn (List.compareLex (argCmp phi)) {l : List (Option Field × T) | ∀ x ∈ l, x.2 ∈ S} :=
  OrderOn.list (((orderOn_symbols Field).comap Prod.fst fun _ _ => trivial).chain (h.comap Prod.snd fun _ hx => hx))

theorem rank_then {κ : Type} [LinearOrder κ] {r s : κ} {c : Ordering} :
    (compare r s).then c = if r = s then c else compare r s := by
  split
  · next h => rw [compare_eq_iff_eq.mpr h,Ordering.eq_then]
  · next h =>
    cases hc : compare r s with
    | eq => exact absurd (compare_eq_iff_eq.mp hc) h
    | lt => rfl
    | gt => rfl

namespace Tau
variable [Ord Field] [Ord ADT]

theorem argsOf_children {t : Tau ADT Field} {x : Option Field × Tau ADT Field} (h : x ∈ argsOf t) :
    x.2 ∈ t.children := by
  obtain ⟨l,cs⟩ := t
  cases l <;> simp only [argsOf,Rose.label_node,Rose.children_node,List.mem_map,List.not_mem_nil] at h ⊢
  case record fs =>
    obtain ⟨y,hy,rfl⟩ := h
    exact (List.of_mem_zip hy).2
  all_goals
    obtain ⟨y,hy,rfl⟩ := h
    exact hy

theorem cmpTau_local : Rose.StepOnChildren (cmpTau : (Tau ADT Field → Tau ADT Field → Ordering) → _) := by
  intro phi psi a b h
  rw [cmpTau_eq,cmpTau_eq]
  have hargs : List.compareLex (argCmp phi) (argsOf a) (argsOf b) =
      List.compareLex (argCmp psi) (argsOf a) (argsOf b) := by
    refine compareLex_congr fun x hx y _ => ?_
    rw [argCmp,argCmp,h x.2 (argsOf_children hx)]
  rw [keyCmp,keyCmp,hargs]

theorem compare_eq (a b : Tau ADT Field) : compare a b = cmpTau compare a b := Rose.compareRec_eq cmpTau_local a b

variable [Std.TransOrd Field] [Std.TransOrd ADT]

theorem keyCmp_order {phi : Tau ADT Field → Tau ADT Field → Ordering} {S : Set (Tau ADT Field)} (h : OrderOn phi S) :
    OrderOn (keyCmp phi) {t | ∀ c ∈ t.children, c ∈ S} := by
  refine (OrderOn.of_key (fun t : Tau ADT Field => tvarOf t.label) Ord.compare _).chain (OrderOn.chain ?_ ?_)
  · exact (orderOn_symbols ADT).comap (fun t : Tau ADT Field => adtOf t.label) fun _ _ => trivial
  · exact (argCmp_order h).comap argsOf fun t ht x hx => ht x.2 (argsOf_children hx)

theorem compare_order : OrderOn (compare : Tau ADT Field → Tau ADT Field → Ordering) Set.univ := by
  refine Rose.orderOn_of_children (fun _ _ _ _ => trivial) fun S _ h => ?_
  have hkeys := ((OrderOn.of_key (fun t : Tau ADT Field => rank t.label) Ord.compare _).chain (keyCmp_order h))
  refine (hkeys.congr fun a _ b _ => ?_).mono fun t ht => ht.2
  rw [compare_eq,cmpTau_eq,rank_then]

end Tau

namespace COMPARE
variable [DecidableEq ADT] [DecidableEq Field] [DecidableEq Fun] [Ord ADT] [FieldSymbol Field] [FunSymbol Fun]

theorem argsOf_children {t : Term ADT Field Fun} {x : Option Field × Term ADT Field Fun} (h : x ∈ argsOf t) :
    x.2 ∈ t.children := by
  obtain ⟨l,cs⟩ := t
  cases l <;> simp only [argsOf,Rose.label_node,Rose.children_node,List.mem_map,List.not_mem_nil] at h ⊢
  case rdef fs =>
    obtain ⟨y,hy,rfl⟩ := h
    exact (List.of_mem_zip hy).2
  all_goals
    obtain ⟨y,hy,rfl⟩ := h
    exact hy

variable (tau : Term ADT Field Fun → Option (Tau ADT Field))

theorem step_local : Rose.StepOnChildren (step tau) := by
  intro phi psi a b h
  have hargs : List.compareLex (argCmp phi) (argsOf a) (argsOf b) =
      List.compareLex (argCmp psi) (argsOf a) (argsOf b) := by
    refine compareLex_congr fun x hx y _ => ?_
    rw [argCmp,argCmp,h x.2 (argsOf_children hx)]
  rw [step,step,cmpStruct_eq,cmpStruct_eq,keyCmp,keyCmp,hargs]

theorem compare_eq (a b : Term ADT Field Fun) : compare tau a b = step tau (compare tau) a b :=
  Rose.compareRec_eq (step_local tau) a b

theorem compare_of_ne {a b : Term ADT Field Fun} (h : a ≠ b) :
    compare tau a b = (cmpStruct (compare tau) a b).then (optCompare Tau.compare (tau a) (tau b)) := by
  rw [compare_eq,step,if_neg h]

theorem hashHead_rank (t : Term ADT Field Fun) : hashHead t.label =
    [1,0,2,3,19,20,18,11,12,14,13,18,4,15,16,5,6,7,8,9,10,17,25,24,23,27,26,22,21].getD (rank t) 0 := by
  obtain ⟨l,cs⟩ := t
  cases l
  case func f => cases cs <;> rfl
  all_goals rfl

theorem rank_func {t : Term ADT Field Fun} (h : hashHead t.label = 18) :
    ∃ f, (t = .node (.func f) [] ∧ rank t = 6) ∨ ∃ x xs, t = .node (.func f) (x :: xs) ∧ rank t = 11 := by
  obtain ⟨l,cs⟩ := t
  cases l <;> simp only [Rose.label_node,hashHead] at h <;> try omega
  case func f =>
    cases cs with
    | nil => exact ⟨f,Or.inl ⟨rfl,rfl⟩⟩
    | cons x xs => exact ⟨f,Or.inr ⟨x,xs,rfl,rfl⟩⟩

theorem le_sizeList (n w : ℕ) (l : List ℕ) : n ≤ sizeList n w l := by
  induction l generalizing n w with
  | nil => exact Nat.le_add_right n w
  | cons s l ih => exact (Nat.le_succ n).trans (ih (n + 1) (max w s))

theorem size_func_cons (f : Fun) (x : Term ADT Field Fun) (xs : List (Term ADT Field Fun)) :
    2 ≤ Term.size (.node (.func f) (x :: xs)) := by
  rw [Term.size,Rose.fold_node]
  exact le_sizeList 2 _ _

def IsComparison (t : Term ADT Field Fun) : Prop := t.label = .eq ∨ t.label = .neq ∨ t.label = .lt ∨ t.label = .leq

/-- A constant is before the comparisons and these are before an application, which is before the constant. -/
def Inverted (D : Set (Term ADT Field Fun)) : Prop :=
  ∃ f c g x xs, .node (.func f) [] ∈ D ∧ c ∈ D ∧ IsComparison c ∧ .node (.func g) (x :: xs) ∈ D ∧
    funRank g < funRank f

theorem IsComparison.rank {c : Term ADT Field Fun} (h : IsComparison c) : 7 ≤ rank c ∧ rank c ≤ 10 := by
  obtain ⟨l,cs⟩ := c
  rcases h with h | h | h | h <;> simp only [Rose.label_node] at h <;> subst h <;> simp [COMPARE.rank]

variable {tau} in
theorem compare_of_rank_lt {a b : Term ADT Field Fun} (h : rank a < rank b) (hh : hashHead a.label ≠ hashHead b.label) :
    compare tau a b = .lt := by
  have hne : a ≠ b := fun heq => hh (by rw [heq])
  rw [compare_of_ne tau hne,cmpStruct_eq,if_neg hh,compare_lt_iff_lt.mpr h,Ordering.lt_then]

theorem not_order_of_inverted {D : Set (Term ADT Field Fun)} (h : Inverted D) : ¬ OrderOn (compare tau) D := by
  obtain ⟨f,c,g,x,xs,hf,hc,hcmp,hg,hrank⟩ := h
  intro horder
  obtain ⟨hlow,hhigh⟩ := hcmp.rank
  have hfr : rank (.node (.func f) [] : Term ADT Field Fun) = 6 := rfl
  have hgr : rank (.node (.func g) (x :: xs) : Term ADT Field Fun) = 11 := rfl
  have hcf : hashHead c.label ≠ 18 := by
    intro h18
    obtain ⟨_,⟨_,h⟩ | ⟨_,_,_,h⟩⟩ := rank_func h18 <;> omega
  have h1 : compare tau (.node (.func f) []) c = .lt := compare_of_rank_lt (by omega) (Ne.symm hcf)
  have h2 : compare tau c (.node (.func g) (x :: xs)) = .lt := compare_of_rank_lt (by omega) hcf
  have h3 : compare tau (.node (.func f) []) (.node (.func g) (x :: xs)) = .gt := by
    have hhead : hashHead (.func f : Repr ADT Field Fun) = hashHead (.func g : Repr ADT Field Fun) := rfl
    have hgt : Ord.compare (funRankOf (.node (.func f) [] : Term ADT Field Fun))
        (funRankOf (.node (.func g) (x :: xs))) = .gt := compare_gt_iff_gt.mpr hrank
    rw [compare_of_ne tau (by simp),cmpStruct_eq,Rose.label_node,Rose.label_node,if_pos hhead,keyCmp,before,hgt]
    rfl
  have hlt := horder.lt_trans hf hc hg h1 h2
  rw [h3] at hlt
  cases hlt

theorem hashHead_eq {a b : Term ADT Field Fun} (h : rank a = rank b) : hashHead a.label = hashHead b.label := by
  rw [hashHead_rank a,hashHead_rank b,h]

theorem rank_eq {a b : Term ADT Field Fun} (h : hashHead a.label = hashHead b.label) (hf : hashHead a.label ≠ 18) :
    rank a = rank b := by
  obtain ⟨l,xs⟩ := a
  obtain ⟨m,ys⟩ := b
  cases l <;> cases m <;> first | rfl | exact absurd rfl hf | exact absurd h (by simp [hashHead])

def functionRank (t : Term ADT Field Fun) : ℕ := if rank t = 11 then 6 else rank t

theorem cmpStruct_functionRank {phi : Term ADT Field Fun → Term ADT Field Fun → Ordering} {a b : Term ADT Field Fun}
    (ha : rank a < 7 ∨ 10 < rank a) (hb : rank b < 7 ∨ 10 < rank b) :
    cmpStruct phi a b = (Ord.compare (functionRank a) (functionRank b)).then (keyCmp phi a b) := by
  rw [cmpStruct_eq,rank_then]
  by_cases hh : hashHead a.label = hashHead b.label
  · have hr : functionRank a = functionRank b := by
      by_cases h18 : hashHead a.label = 18
      · obtain ⟨_,⟨_,h1⟩ | ⟨_,_,_,h1⟩⟩ := rank_func h18 <;>
          obtain ⟨_,⟨_,h2⟩ | ⟨_,_,_,h2⟩⟩ := rank_func (hh ▸ h18) <;> simp [functionRank,h1,h2]
      · rw [functionRank,functionRank,rank_eq hh h18]
    rw [if_pos hh,if_pos hr]
  · have hne : rank a ≠ rank b := fun h => hh (hashHead_eq h)
    have hfun : ¬ (rank a = 6 ∧ rank b = 11) ∧ ¬ (rank a = 11 ∧ rank b = 6) := by
      constructor <;> rintro ⟨h1,h2⟩ <;> exact hh (by rw [hashHead_rank a,hashHead_rank b,h1,h2]; rfl)
    have hr : functionRank a ≠ functionRank b := by
      unfold functionRank
      split <;> split <;> omega
    rw [if_neg hh,if_neg hr]
    rcases Nat.lt_or_gt_of_ne hne with hlt | hgt
    · have hlt' : functionRank a < functionRank b := by
        unfold functionRank
        split <;> split <;> omega
      rw [compare_lt_iff_lt.mpr hlt,compare_lt_iff_lt.mpr hlt']
    · have hgt' : functionRank b < functionRank a := by
        unfold functionRank
        split <;> split <;> omega
      rw [compare_gt_iff_gt.mpr hgt,compare_gt_iff_gt.mpr hgt']

theorem keyCmp_const (phi : Term ADT Field Fun → Term ADT Field Fun → Ordering) {f g : Fun} (h : funRank f ≤ funRank g)
    (x : Term ADT Field Fun) (xs : List (Term ADT Field Fun)) :
    keyCmp phi (.node (.func f) []) (.node (.func g) (x :: xs)) = .lt ∧
      keyCmp phi (.node (.func g) (x :: xs)) (.node (.func f) []) = .gt := by
  have hsize : sizeOf (.node (.func f) [] : Term ADT Field Fun) < sizeOf (.node (.func g) (x :: xs)) :=
    Nat.lt_of_lt_of_le Nat.one_lt_two (size_func_cons g x xs)
  have hrank : funRankOf (.node (.func f) [] : Term ADT Field Fun) ≤ funRankOf (.node (.func g) (x :: xs)) := h
  unfold keyCmp before
  rcases Nat.lt_or_eq_of_le hrank with hlt | heq
  · rw [compare_lt_iff_lt.mpr hlt,compare_gt_iff_gt.mpr hlt]
    exact ⟨rfl,rfl⟩
  · rw [compare_eq_iff_eq.mpr heq,compare_eq_iff_eq.mpr heq.symm,compare_lt_iff_lt.mpr hsize,
      compare_gt_iff_gt.mpr hsize]
    exact ⟨rfl,rfl⟩

theorem cmpStruct_rank {phi : Term ADT Field Fun → Term ADT Field Fun → Ordering} {D : Set (Term ADT Field Fun)}
    (hD : ∀ f g x xs, .node (.func f) [] ∈ D → .node (.func g) (x :: xs) ∈ D → funRank f ≤ funRank g)
    {a b : Term ADT Field Fun} (ha : a ∈ D) (hb : b ∈ D) :
    cmpStruct phi a b = (Ord.compare (rank a) (rank b)).then (keyCmp phi a b) := by
  rw [cmpStruct_eq,rank_then]
  by_cases hh : hashHead a.label = hashHead b.label
  · rw [if_pos hh]
    by_cases hr : rank a = rank b
    · rw [if_pos hr]
    have h18 : hashHead a.label = 18 := by
      by_contra h18
      exact hr (rank_eq hh h18)
    rw [if_neg hr]
    obtain ⟨f,⟨rfl,h1⟩ | ⟨x,xs,rfl,h1⟩⟩ := rank_func h18 <;>
      obtain ⟨g,⟨rfl,h2⟩ | ⟨y,ys,rfl,h2⟩⟩ := rank_func (hh ▸ h18)
    · exact absurd (h1.trans h2.symm) hr
    · rw [h1,h2,(keyCmp_const phi (hD _ _ _ _ ha hb) y ys).1]
      rfl
    · rw [h1,h2,(keyCmp_const phi (hD _ _ _ _ hb ha) x xs).2]
      rfl
    · exact absurd (h1.trans h2.symm) hr
  · rw [if_neg hh,if_neg fun h => hh (hashHead_eq h)]

theorem isComparison_of_rank {t : Term ADT Field Fun} (h : 7 ≤ rank t) (h' : rank t ≤ 10) : IsComparison t := by
  obtain ⟨l,xs⟩ := t
  cases l
  case func f => cases xs <;> simp [rank] at h h'
  case eq => exact Or.inl rfl
  case neq => exact Or.inr (Or.inl rfl)
  case lt => exact Or.inr (Or.inr (Or.inl rfl))
  case leq => exact Or.inr (Or.inr (Or.inr rfl))
  all_goals simp [rank] at h h'

theorem exists_rank {D : Set (Term ADT Field Fun)} (hD : ¬ Inverted D) :
    ∃ r : Term ADT Field Fun → ℕ, ∀ phi, ∀ a ∈ D, ∀ b ∈ D,
      cmpStruct phi a b = (Ord.compare (r a) (r b)).then (keyCmp phi a b) := by
  by_cases hc : ∃ c ∈ D, IsComparison c
  · obtain ⟨c,hcD,hc⟩ := hc
    refine ⟨rank,fun phi a ha b hb => cmpStruct_rank ?_ ha hb⟩
    intro f g x xs hf hg
    by_contra hlt
    exact hD ⟨f,c,g,x,xs,hf,hcD,hc,hg,Nat.lt_of_not_le hlt⟩
  · have hout : ∀ t ∈ D, rank t < 7 ∨ 10 < rank t := by
      intro t ht
      by_contra h
      exact hc ⟨t,ht,isComparison_of_rank (by omega) (by omega)⟩
    exact ⟨functionRank,fun phi a ha b hb => cmpStruct_functionRank (hout a ha) (hout b hb)⟩

variable [Std.TransOrd Field] [Std.TransOrd ADT] [Std.TransOrd Fun]

theorem Var.compare_order : OrderOn (Var.compare : Var ADT Field → Var ADT Field → Ordering) Set.univ :=
  (OrderOn.of_key Var.vbase Ord.compare _).chain
    ((OrderOn.of_key Var.vrank Ord.compare _).chain (OrderOn.of_key Var.vid Ord.compare _))

theorem before_order (S : Set (Term ADT Field Fun)) : OrderOn before S := by
  refine (OrderOn.of_key funRankOf Ord.compare _).chain ((OrderOn.of_key sizeOf Ord.compare _).chain ?_)
  refine (OrderOn.of_key (fun t : Term ADT Field Fun => intOf t.label) Ord.compare _).chain ?_
  refine (OrderOn.of_key (fun t : Term ADT Field Fun => ratOf t.label) Ord.compare _).chain (OrderOn.chain ?_ ?_)
  · exact Var.compare_order.option.comap (fun t : Term ADT Field Fun => varOf t.label) fun _ _ _ _ => trivial
  refine (OrderOn.of_key (fun t : Term ADT Field Fun => indexOf t.label) Ord.compare _).chain (OrderOn.chain ?_ ?_)
  · exact (orderOn_symbols Fun).comap (fun t : Term ADT Field Fun => funOf t.label) fun _ _ => trivial
  · exact Tau.compare_order.option.comap (fun t : Term ADT Field Fun => keyOf t.label) fun _ _ _ _ => trivial

theorem after_order (S : Set (Term ADT Field Fun)) : OrderOn after S := by
  refine OrderOn.chain ?_ ?_
  · exact (orderOn_symbols Field).comap (fun t : Term ADT Field Fun => fieldOf t.label) fun _ _ => trivial
  · exact Tau.compare_order.option.comap (fun t : Term ADT Field Fun => boundOf t.label) fun _ _ _ _ => trivial

theorem keyCmp_order {phi : Term ADT Field Fun → Term ADT Field Fun → Ordering} {S : Set (Term ADT Field Fun)}
    (h : OrderOn phi S) : OrderOn (keyCmp phi) {t | ∀ c ∈ t.children, c ∈ S} := by
  refine (before_order _).chain (OrderOn.chain ?_ (after_order _))
  exact (argCmp_order h).comap argsOf fun t ht x hx => ht x.2 (argsOf_children hx)

theorem compare_order {D : Set (Term ADT Field Fun)} (hD : Rose.Closed D) (hinv : ¬ Inverted D) :
    OrderOn (compare tau) D := by
  obtain ⟨r,hr⟩ := exists_rank hinv
  refine Rose.orderOn_of_children hD fun S hS h => ?_
  have hkeys : OrderOn (fun a b => (Ord.compare (r a) (r b)).then (keyCmp (compare tau) a b))
      {t | t ∈ D ∧ ∀ c ∈ t.children, c ∈ S} :=
    (OrderOn.of_key r Ord.compare _).chain ((keyCmp_order h).mono fun t ht => ht.2)
  have htau : OrderOn (fun a b => optCompare Tau.compare (tau a) (tau b)) {t | t ∈ D ∧ ∀ c ∈ t.children, c ∈ S} :=
    Tau.compare_order.option.comap tau fun _ _ _ _ => trivial
  refine (hkeys.chain htau).congr fun a ha b hb => ?_
  by_cases hab : a = b
  · subst hab
    have hself := (hkeys.chain htau).self ha
    rw [compare_eq,step,if_pos rfl]
    exact hself.symm
  · rw [compare_of_ne tau hab,hr _ a ha.1 b hb.1]

end COMPARE
end FramaC.Qed
