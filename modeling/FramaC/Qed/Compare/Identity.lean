import FramaC.Qed.Compare.Keys

/-! # Terms that compare equal

Closed terms that compare equal are identical. The comparison does not look at the types of bound variables: those are
known from the binders.
-/
set_option linter.unusedSectionVars false
namespace FramaC.Qed
open Comparison
variable {ADT Field Fun : Type}

theorem compareLex_eq_eq {α : Type} {c : α → α → Ordering} {l m : List α} (h : List.compareLex c l m = .eq) :
    List.Forall₂ (fun a b => c a b = .eq) l m := by
  induction l generalizing m with
  | nil =>
    cases m with
    | nil => exact .nil
    | cons b m => cases h
  | cons a l ih =>
    cases m with
    | nil => cases h
    | cons b m =>
      rw [List.compareLex_cons_cons,Ordering.then_eq_eq] at h
      exact .cons h.1 (ih h.2)

theorem optCompare_eq {α : Type} {c : α → α → Ordering} {o p : Option α}
    (hc : ∀ a ∈ o, ∀ b ∈ p, c a b = .eq → a = b) (h : optCompare c o p = .eq) : o = p := by
  cases o with
  | none =>
    cases p with
    | none => rfl
    | some b => cases h
  | some a =>
    cases p with
    | none => cases h
    | some b => rw [hc a rfl b rfl h]

theorem optCompare_symbols {S : Type} [Ord S] [Std.LawfulEqOrd S] {o p : Option S}
    (h : optCompare Ord.compare o p = .eq) : o = p :=
  optCompare_eq (fun _ _ _ _ hab => Std.LawfulEqOrd.eq_of_compare hab) h

theorem map_eq_of_argCmp {T β : Type} [Ord Field] [Std.LawfulEqOrd Field] {phi : T → T → Ordering} {f : T → β}
    {l m : List (Option Field × T)} (hf : ∀ x ∈ l, ∀ y ∈ m, phi x.2 y.2 = .eq → f x.2 = f y.2)
    (h : List.compareLex (argCmp phi) l m = .eq) :
    l.map Prod.fst = m.map Prod.fst ∧ l.map (fun x => f x.2) = m.map (fun x => f x.2) := by
  have hall := compareLex_eq_eq h
  induction hall with
  | nil => exact ⟨rfl,rfl⟩
  | @cons x y l m hxy hlm ih =>
    rw [argCmp,Ordering.then_eq_eq] at hxy
    rw [List.compareLex_cons_cons,Ordering.then_eq_eq] at h
    obtain ⟨hfields,hterms⟩ := ih (fun x hx y hy => hf x (by simp [hx]) y (by simp [hy])) h.2
    have hhead := hf x (by simp) y (by simp) hxy.2
    simp only [List.map_cons,hfields,hterms,hhead,optCompare_symbols hxy.1,and_self]

theorem map_snd_none {T : Type} (cs : List T) :
    (cs.map fun x => ((none : Option Field),x)).map Prod.snd = cs := by simp

theorem map_snd_some {T : Type} {fs : List Field} {cs : List T} (h : cs.length = fs.length) :
    ((fs.zip cs).map fun fx => (some fx.1,fx.2)).map Prod.snd = cs := by
  rw [List.map_map]
  exact List.map_snd_zip h.le

theorem filterMap_some {T : Type} {fs : List Field} {cs : List T} (h : cs.length = fs.length) :
    ((fs.zip cs).map fun fx => (some fx.1,fx.2)).filterMap Prod.fst = fs := by
  rw [List.filterMap_map]
  have hsome : (Prod.fst ∘ fun fx : Field × T => (some fx.1,fx.2)) = some ∘ Prod.fst := rfl
  rw [hsome,← List.filterMap_map,List.filterMap_some]
  exact List.map_fst_zip h.ge

namespace Tau
variable [Ord Field] [Ord ADT]

def arity : TauRepr ADT Field → ℕ → Prop
  | .bool, n | .int, n | .real, n | .prop, n | .tvar _, n => n = 0
  | .array, n => n = 2
  | .record fs, n => n = fs.length
  | .data _, _ => True

abbrev WellFormed (t : Tau ADT Field) : Prop := Rose.Nodes arity t

def ofKeys (rank : ℕ) (k : ℤ) (a : Option ADT) (fs : List Field) : TauRepr ADT Field :=
  match rank, a with
  | 0, _ => .bool
  | 1, _ => .int
  | 2, _ => .real
  | 3, _ => .prop
  | 4, _ => .tvar k
  | 5, _ => .array
  | _, some a => .data a
  | _, none => .record fs

theorem ofKeys_eq {t : Tau ADT Field} (h : WellFormed t) :
    t.label = ofKeys (rank t.label) (tvarOf t.label) (adtOf t.label) ((argsOf t).filterMap Prod.fst) := by
  obtain ⟨l,cs⟩ := t
  have harity := h.label
  cases l
  case record fs => exact congrArg TauRepr.record (filterMap_some harity).symm
  all_goals rfl

theorem argsOf_snd {t : Tau ADT Field} (h : WellFormed t) : (argsOf t).map Prod.snd = t.children := by
  obtain ⟨l,cs⟩ := t
  have harity := h.label
  cases l
  case record fs => exact map_snd_some harity
  case array | data a => exact map_snd_none cs
  all_goals exact (List.length_eq_zero_iff.mp harity).symm

variable [Std.LawfulEqOrd Field] [Std.LawfulEqOrd ADT]

theorem eq_of_compare {t u : Tau ADT Field} (ht : WellFormed t) (hu : WellFormed u) (h : compare t u = .eq) : t = u := by
  induction t using Rose.induct generalizing u with
  | h l cs ih =>
    rw [compare_eq,cmpTau_eq] at h
    split at h
    case isFalse hne => exact absurd (compare_eq_iff_eq.mp h) hne
    case isTrue hrank =>
      rw [keyCmp,Ordering.then_eq_eq,Ordering.then_eq_eq] at h
      obtain ⟨htvar,hadt,hargs⟩ := h
      have hpairs : ∀ x ∈ argsOf (.node l cs), ∀ y ∈ argsOf u, compare x.2 y.2 = .eq → x.2 = y.2 := by
        intro x hx y hy hxy
        have hxc := argsOf_children hx
        exact ih x.2 hxc (ht.child hxc) (hu.child (argsOf_children hy)) hxy
      obtain ⟨hfields,hterms⟩ := map_eq_of_argCmp (f := id) hpairs hargs
      have hfs : (argsOf (.node l cs)).filterMap Prod.fst = (argsOf u).filterMap Prod.fst := by
        have := congrArg (List.filterMap id) hfields
        rwa [List.filterMap_map,List.filterMap_map] at this
      have hlabel : l = u.label := by
        have hl := ofKeys_eq ht
        have hm := ofKeys_eq hu
        rw [hrank,compare_eq_iff_eq.mp htvar,optCompare_symbols hadt,hfs,← hm] at hl
        exact hl
      have hchildren : cs = u.children := (argsOf_snd ht).symm.trans (hterms.trans (argsOf_snd hu))
      obtain ⟨m,ds⟩ := u
      rw [hlabel,hchildren]
      rfl

end Tau

namespace COMPARE
variable [DecidableEq ADT] [DecidableEq Field] [DecidableEq Fun] [Ord ADT] [FieldSymbol Field] [FunSymbol Fun]

def arity : Repr ADT Field Fun → ℕ → Prop
  | .true, n | .false, n | .kint _, n | .kreal _, n | .fvar _, n | .bvar _ _, n => n = 0
  | .times _, n | .not, n | .rget _, n => n = 1
  | .acst t, n | .bind _ t, n => n = 1 ∧ Tau.WellFormed t
  | .div, n | .mod, n | .eq, n | .neq, n | .leq, n | .lt, n | .aget, n => n = 2
  | .aset, n | .ite, n => n = 3
  | .rdef fs, n => n = fs.length
  | .imply, n | .apply, n => 0 < n
  | .add, _ | .mul, _ | .and, _ | .or, _ | .func _, _ => True

abbrev WellFormed (t : Term ADT Field Fun) : Prop := Rose.Nodes arity t

/-- The terms of a state: with their sub-terms, and with distinct numbers for distinct variables. -/
structure IsState (D : Set (Term ADT Field Fun)) : Prop where
  closed : Rose.Closed D
  wellFormed : ∀ t ∈ D, WellFormed t
  variables_inj : ∀ x y, .node (.fvar x) [] ∈ D → .node (.fvar y) [] ∈ D → x.vid = y.vid → x = y

def visible : Repr ADT Field Fun → Repr ADT Field Fun
  | .bvar k _ => .bvar k (.node .prop [])
  | r => r

def erase : Term ADT Field Fun → Term ADT Field Fun := Rose.fold fun r ts => .node (visible r) ts

def ofKeys (head : ℕ) (z : ℤ) (q : ℚ) (x : Option (Var ADT Field)) (k : ℕ) (f : Option Fun) (t : Option (Tau ADT Field))
    (fs : List Field) (g : Option Field) (b : Option (Tau ADT Field)) : Repr ADT Field Fun :=
  match head, x, f, t, g, b with
  | 1, _, _, _, _, _ => .true
  | 2, _, _, _, _, _ => .kint z
  | 3, _, _, _, _, _ => .kreal q
  | 4, _, _, _, _, _ => .times z
  | 5, _, _, _, _, _ => .add
  | 6, _, _, _, _, _ => .mul
  | 7, _, _, _, _, _ => .and
  | 8, _, _, _, _, _ => .or
  | 9, _, _, _, _, _ => .div
  | 10, _, _, _, _, _ => .mod
  | 11, _, _, _, _, _ => .eq
  | 12, _, _, _, _, _ => .neq
  | 13, _, _, _, _, _ => .leq
  | 14, _, _, _, _, _ => .lt
  | 15, _, _, _, _, _ => .not
  | 16, _, _, _, _, _ => .imply
  | 17, _, _, _, _, _ => .ite
  | 18, _, some f, _, _, _ => .func f
  | 19, some x, _, _, _, _ => .fvar x
  | 20, _, _, _, _, _ => .bvar k (.node .prop [])
  | 21, _, _, _, _, some t => .bind (if k = 0 then .all else if k = 1 then .ex else .lambda) t
  | 22, _, _, _, _, _ => .apply
  | 23, _, _, _, _, _ => .aset
  | 24, _, _, _, _, _ => .aget
  | 25, _, _, some t, _, _ => .acst t
  | 26, _, _, _, _, _ => .rdef fs
  | 27, _, _, _, some g, _ => .rget g
  | _, _, _, _, _, _ => .false

theorem ofKeys_eq {t : Term ADT Field Fun} (h : WellFormed t) :
    visible t.label = ofKeys (hashHead t.label) (intOf t.label) (ratOf t.label) (varOf t.label) (indexOf t.label)
      (funOf t.label) (keyOf t.label) ((argsOf t).filterMap Prod.fst) (fieldOf t.label) (boundOf t.label) := by
  obtain ⟨l,cs⟩ := t
  have harity := h.label
  cases l
  case rdef fs => exact congrArg Repr.rdef (filterMap_some harity).symm
  case bind q t => cases q <;> rfl
  all_goals rfl

theorem argsOf_snd {t : Term ADT Field Fun} (h : WellFormed t) : (argsOf t).map Prod.snd = t.children := by
  obtain ⟨l,cs⟩ := t
  have harity := h.label
  cases l
  case rdef fs => exact map_snd_some harity
  case «true» | «false» | kint z | kreal q | fvar x | bvar k t => exact (List.length_eq_zero_iff.mp harity).symm
  all_goals exact map_snd_none cs

theorem wellFormed_key {t : Term ADT Field Fun} (h : WellFormed t) :
    (∀ u ∈ keyOf t.label, Tau.WellFormed u) ∧ ∀ u ∈ boundOf t.label, Tau.WellFormed u := by
  obtain ⟨l,cs⟩ := t
  have harity := h.label
  cases l <;> simp only [keyOf,boundOf,Rose.label_node,Option.mem_def,reduceCtorEq,false_implies,implies_true,and_true,
    true_and,Option.some.injEq]
  case acst t =>
    rintro u rfl
    exact harity.2
  case bind q t =>
    rintro u rfl
    exact harity.2

theorem varOf_mem {D : Set (Term ADT Field Fun)} (hD : IsState D) {t : Term ADT Field Fun} (ht : t ∈ D)
    {x : Var ADT Field} (hx : x ∈ varOf t.label) : .node (.fvar x) [] ∈ D := by
  obtain ⟨l,cs⟩ := t
  have harity := (hD.wellFormed _ ht).label
  cases l <;> simp only [varOf,Rose.label_node,Option.mem_def,reduceCtorEq,Option.some.injEq] at hx
  case fvar y =>
    rw [Rose.children_node,Rose.label_node,arity,List.length_eq_zero_iff] at harity
    rw [← hx,← harity]
    exact ht

theorem Var.eq_of_compare {D : Set (Term ADT Field Fun)} (hD : IsState D) {x y : Var ADT Field}
    (hx : .node (.fvar x) [] ∈ D) (hy : .node (.fvar y) [] ∈ D) (h : Var.compare x y = .eq) : x = y := by
  rw [Var.compare,Ordering.then_eq_eq,Ordering.then_eq_eq] at h
  exact hD.variables_inj x y hx hy (compare_eq_iff_eq.mp h.2.2)

variable (tau : Term ADT Field Fun → Option (Tau ADT Field))
variable [Std.LawfulEqOrd Field] [Std.LawfulEqOrd ADT] [Std.LawfulEqOrd Fun]

theorem erase_eq_of_compare {D : Set (Term ADT Field Fun)} (hD : IsState D) {a b : Term ADT Field Fun} (ha : a ∈ D)
    (hb : b ∈ D) (h : compare tau a b = .eq) : erase a = erase b := by
  induction a using Rose.induct generalizing b with
  | h l cs ih =>
    by_cases hab : .node l cs = b
    · rw [hab]
    rw [compare_of_ne tau hab,Ordering.then_eq_eq,cmpStruct_eq] at h
    replace h := h.1
    split at h
    case isFalse hne => exact absurd (hashHead_eq (compare_eq_iff_eq.mp h)) hne
    case isTrue hhead =>
      have hwa := hD.wellFormed _ ha
      have hwb := hD.wellFormed _ hb
      simp only [keyCmp,before,after,Ordering.then_eq_eq] at h
      obtain ⟨⟨-,-,hint,hrat,hvar,hindex,hfun,hkey⟩,hargs,hfield,hbound⟩ := h
      have hpairs : ∀ x ∈ argsOf (.node l cs), ∀ y ∈ argsOf b, compare tau x.2 y.2 = .eq → erase x.2 = erase y.2 := by
        intro x hx y hy hxy
        have hxc := argsOf_children hx
        exact ih x.2 hxc (hD.closed _ ha _ hxc) (hD.closed _ hb _ (argsOf_children hy)) hxy
      obtain ⟨hfields,hterms⟩ := map_eq_of_argCmp hpairs hargs
      have hfs : (argsOf (.node l cs)).filterMap Prod.fst = (argsOf b).filterMap Prod.fst := by
        have := congrArg (List.filterMap id) hfields
        rwa [List.filterMap_map,List.filterMap_map] at this
      have hvar' := optCompare_eq (fun x hx y hy => Var.eq_of_compare hD (varOf_mem hD ha hx) (varOf_mem hD hb hy)) hvar
      have hkey' := optCompare_eq (fun x hx y hy => Tau.eq_of_compare ((wellFormed_key hwa).1 x hx)
        ((wellFormed_key hwb).1 y hy)) hkey
      have hbound' := optCompare_eq (fun x hx y hy => Tau.eq_of_compare ((wellFormed_key hwa).2 x hx)
        ((wellFormed_key hwb).2 y hy)) hbound
      have hlabel : visible l = visible b.label := by
        have hl := ofKeys_eq hwa
        have hm := ofKeys_eq hwb
        rw [hhead,compare_eq_iff_eq.mp hint,compare_eq_iff_eq.mp hrat,hvar',compare_eq_iff_eq.mp hindex,
          optCompare_symbols hfun,hkey',hfs,optCompare_symbols hfield,hbound',← hm] at hl
        exact hl
      have hchildren : cs.map erase = b.children.map erase := by
        have hcs : ((argsOf (.node l cs)).map Prod.snd).map erase = ((argsOf b).map Prod.snd).map erase := by
          rw [List.map_map,List.map_map]
          exact hterms
        rwa [argsOf_snd hwa,argsOf_snd hwb] at hcs
      obtain ⟨m,ds⟩ := b
      rw [erase,Rose.fold_node,Rose.fold_node]
      exact congrArg₂ Rose.node hlabel hchildren

theorem bind_erase (t : Term ADT Field Fun) : (erase t).bind = t.bind := by
  induction t using Rose.induct with
  | h l cs ih =>
    have hchildren : (cs.map erase).map Term.bind = cs.map Term.bind := by
      rw [List.map_map]
      exact List.map_congr_left ih
    have hlabel : ∀ bs, bindRepr (visible l) bs = bindRepr l bs := by
      intro bs
      cases l <;> rfl
    rw [Term.bind,erase,Rose.fold_node,Rose.fold_node,Rose.fold_node]
    exact (hlabel _).trans (congrArg (bindRepr l) hchildren)

/-- The indices that no binder of the term binds have the types of the environment. A binder binds the index which is
the depth of the binders in its body. -/
inductive Binds : (ℕ → Option (Tau ADT Field)) → Term ADT Field Fun → Prop
  | bvar {env k t} : env k = some t → Binds env (.node (.bvar k t) [])
  | bind {env q t p} : Binds (Function.update env p.bind.order (some t)) p → Binds env (.node (.bind q t) [p])
  | node {env r ts} : (∀ k t, r ≠ .bvar k t) → (∀ q t, r ≠ .bind q t) → (∀ c ∈ ts, Binds env c) → Binds env (.node r ts)

def LcClosed (t : Term ADT Field Fun) : Prop := Binds (fun _ => none) t

theorem erase_node (r : Repr ADT Field Fun) (ts : List (Term ADT Field Fun)) :
    erase (.node r ts) = .node (visible r) (ts.map erase) := Rose.fold_node _ r ts

theorem visible_eq_bvar {r : Repr ADT Field Fun} {k : ℕ} {t : Tau ADT Field} (h : visible r = .bvar k t) :
    ∃ u, r = .bvar k u := by
  cases r <;> simp only [visible,reduceCtorEq,Repr.bvar.injEq] at h
  case bvar k' u => exact ⟨u,by rw [h.1]⟩

theorem visible_of_ne {r : Repr ADT Field Fun} (h : ∀ k t, r ≠ .bvar k t) : visible r = r := by
  cases r
  case bvar k t => exact absurd rfl (h k t)
  all_goals rfl

theorem eq_of_visible {r s : Repr ADT Field Fun} (h : visible r = visible s) (hr : ∀ k t, r ≠ .bvar k t) : r = s := by
  have hs : ∀ k t, s ≠ .bvar k t := by
    rintro k t rfl
    obtain ⟨u,hu⟩ := visible_eq_bvar h
    exact hr k u hu
  rwa [visible_of_ne hr,visible_of_ne hs] at h

theorem Binds.eq_of_erase {env : ℕ → Option (Tau ADT Field)} {a b : Term ADT Field Fun} (ha : Binds env a)
    (hb : Binds env b) (h : erase a = erase b) : a = b := by
  induction ha generalizing b with
  | @bvar env k t hk =>
    obtain ⟨s,us⟩ := b
    rw [erase_node,erase_node] at h
    obtain ⟨hlabel,hchildren⟩ := Rose.node.inj h
    obtain ⟨u,rfl⟩ := visible_eq_bvar hlabel.symm
    cases hb with
    | bvar hu => rw [Option.some.inj (hk.symm.trans hu)]
    | node hne _ _ => exact absurd rfl (hne k u)
  | @bind env q t p hp ih =>
    obtain ⟨s,us⟩ := b
    rw [erase_node,erase_node] at h
    obtain ⟨hlabel,hchildren⟩ := Rose.node.inj h
    have hs := eq_of_visible hlabel (by simp)
    subst hs
    cases hb with
    | @bind _ _ _ p' hp' =>
      have hpp : erase p = erase p' := (List.cons.inj hchildren).1
      have horder : p.bind.order = p'.bind.order := by rw [← bind_erase p,← bind_erase p',hpp]
      rw [ih (horder ▸ hp') hpp]
    | node _ hne _ => exact absurd rfl (hne q t)
  | @node env r ts hbvar hbind hts ih =>
    obtain ⟨s,us⟩ := b
    rw [erase_node,erase_node] at h
    obtain ⟨hlabel,hchildren⟩ := Rose.node.inj h
    have hs := eq_of_visible hlabel hbvar
    subst hs
    have hus : ∀ c ∈ us, Binds env c := by
      cases hb with
      | bvar _ => exact absurd rfl (hbvar _ _)
      | bind _ => exact absurd rfl (hbind _ _)
      | node _ _ h => exact h
    have hlist : ts = us := by
      clear h hb
      induction ts generalizing us with
      | nil => exact (List.map_eq_nil_iff.mp hchildren.symm).symm
      | cons t ts ihts =>
        cases us with
        | nil => cases hchildren
        | cons u us =>
          obtain ⟨htu,hrest⟩ := List.cons.inj hchildren
          have hhead := ih t (by simp) (hus u (by simp)) htu
          have htail := ihts (fun c hc => hts c (by simp [hc])) (fun c hc => ih c (by simp [hc])) us hrest
            fun c hc => hus c (by simp [hc])
          rw [hhead,htail]
    rw [hlist]

theorem eq_of_compare {D : Set (Term ADT Field Fun)} (hD : IsState D) {a b : Term ADT Field Fun} (ha : a ∈ D)
    (hb : b ∈ D) (hca : LcClosed a) (hcb : LcClosed b) (h : compare tau a b = .eq) : a = b :=
  hca.eq_of_erase hcb (erase_eq_of_compare tau hD ha hb h)

end COMPARE
end FramaC.Qed
