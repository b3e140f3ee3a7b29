import FramaC.Vlist.Soundness
import FramaC.Cint.Matching

/-! # Equality of lists

An equality is right when the copies from empty repetitions leave equal lists equal and different lists different.
-/
set_option linter.unusedSectionVars false
namespace FramaC.Vlist
open Qed Integer Cint
variable {ADT Field Fun Obj : Type} [DecidableEq Fun] [FunSymbol Fun] {S : Symbols Fun} {E : Build ADT Field Fun}
  {I : Interp ADT Field Fun Obj}

theorem Interp.Decides.congr {f : Term ADT Field Fun} {P Q : Prop} (h : I.Decides S f P) (hPQ : P ↔ Q) :
    I.Decides S f Q := by
  obtain ⟨p,hp,hb⟩ := h
  exact ⟨p,hp,hb.trans hPQ⟩

theorem Interp.Decides.iff_of {f : Term ADT Field Fun} {P Q : Prop} (h : I.Decides S f P) :
    I.Decides S f Q ↔ (P ↔ Q) := by
  constructor
  · rintro ⟨q,hq,hbq⟩
    obtain ⟨p,hp,hbp⟩ := h
    obtain rfl := Value.prop.inj (hp.symm.trans hq)
    exact hbp.symm.trans hbq
  · exact h.congr

theorem decides_eFalse : I.Decides S (eFalse : Term ADT Field Fun) False := ⟨false,value_eFalse ..,by simp⟩

theorem decides_pIsNil (hE : E.Sound S I) {a : Term ADT Field Fun} {l : List (Value Obj)} (ha : I.value S a = .list l) :
    I.Decides S (pIsNil S E a) (l = []) :=
  hE.eq_list ha (value_vNil hE)

theorem decides_pAllNil (hE : E.Sound S I) {es : List (Term ADT Field Fun)} {ls : List (List (Value Obj))}
    (h : I.Lists S es ls) : I.Decides S (pAllNil S E es) (ls.flatten = []) := by
  obtain ⟨bs,hbs,hiff⟩ : ∃ bs, List.Forall₂ (fun t b => I.value S t = .prop b) (es.map (pIsNil S E)) bs ∧
      (bs.all id = true ↔ ls.flatten = []) := by
    induction h with
    | nil => exact ⟨[],.nil,by simp⟩
    | cons ha _ ih =>
      obtain ⟨bs,hbs,hiff⟩ := ih
      obtain ⟨b,hb,hbl⟩ := decides_pIsNil hE ha
      refine ⟨b :: bs,.cons hb hbs,?_⟩
      rw [List.all_cons,Bool.and_eq_true,hiff,List.flatten_cons,List.append_eq_nil_iff]
      exact and_congr_left' hbl
  exact ⟨_,hE.and hbs,hiff⟩

theorem rewriteIsNil_decides (hE : E.Sound S I) {a f : Term ADT Field Fun} {l : List (Value Obj)}
    (ha : I.value S a = .list l) (h : rewriteIsNil S E a = .ok f) : I.Decides S f (l = []) := by
  unfold rewriteIsNil at h
  split at h
  · next g es =>
    split at h
    · next hg =>
      subst hg
      obtain rfl := Except.ok.inj h
      obtain ⟨ls,hls,rfl⟩ := value_concat.mp ha
      exact decides_pAllNil hE hls
    split at h
    · next hg =>
      obtain ⟨rfl,hlen⟩ := hg
      obtain ⟨x,rfl⟩ := List.length_eq_one_iff.mp hlen
      obtain rfl := Except.ok.inj h
      rw [value_elt] at ha
      obtain rfl := Value.list.inj ha
      exact decides_eFalse.congr (by simp)
    split at h
    · next u n =>
      split at h
      · next hg =>
        subst hg
        obtain rfl := Except.ok.inj h
        obtain ⟨l',z,hu,hz,rfl⟩ := value_repeat.mp ha
        obtain ⟨b,hb,hbl⟩ := decides_pIsNil hE hu
        refine ⟨_,hE.or (.cons (hE.leq hz (value_eZero ..)) (.cons hb .nil)),?_⟩
        rw [copies_eq_nil_iff]
        simp [hbl]
      · cases h
    · cases h
  · cases h

variable [DecidableEq ADT] [DecidableEq Field]

theorem omitElement_eq {rs : List (Term ADT Field Fun)} {x : Term ADT Field Fun} :
    ∀ {ys zs ys' : List (Term ADT Field Fun)}, omitElement rs x ys = .ok (zs,ys') →
      ∃ ws, ys = ws ++ x :: ys' ∧ zs = ws.reverse ++ rs := by
  intro ys
  induction ys generalizing rs with
  | nil =>
    intro zs ys' h
    cases h
  | cons y ys ih =>
    intro zs ys' h
    unfold omitElement at h
    split at h
    · next hx =>
      subst hx
      obtain ⟨rfl,rfl⟩ := Prod.mk.inj (Except.ok.inj h)
      exact ⟨[],rfl,rfl⟩
    · obtain ⟨ws,rfl,rfl⟩ := ih h
      exact ⟨y :: ws,rfl,by simp⟩

theorem subsequence_eq {rs xs ys zs : List (Term ADT Field Fun)} (h : subsequence rs xs ys = .ok zs)
    (f : Term ADT Field Fun → List (Value Obj)) : ∃ ws, zs = rs.reverse ++ ws ∧ (∀ w ∈ ws, w ∈ ys) ∧
      (ws.flatMap f = [] → ys.flatMap f = xs.flatMap f) ∧
      (ys.flatMap f).length = (xs.flatMap f).length + (ws.flatMap f).length := by
  induction xs generalizing rs ys with
  | nil =>
    obtain rfl := Except.ok.inj h
    exact ⟨ys,rfl,fun w hw => hw,fun hw => by simpa using hw,by simp⟩
  | cons x xs ih =>
    unfold subsequence at h
    simp only [bind_ok,Prod.exists] at h
    obtain ⟨rs',ys',homit,h⟩ := h
    obtain ⟨ws,rfl,rfl⟩ := omitElement_eq homit
    obtain ⟨ws',rfl,hmem,hnil,hlen⟩ := ih h
    refine ⟨ws ++ ws',by simp,?_,?_,?_⟩
    · intro w hw
      rcases List.mem_append.mp hw with hw | hw
      · exact List.mem_append_left _ hw
      · exact List.mem_append_right _ (List.mem_cons_of_mem _ (hmem w hw))
    · intro hw
      rw [List.flatMap_append,List.append_eq_nil_iff] at hw
      rw [List.flatMap_append,List.flatMap_cons,List.flatMap_cons,hw.1,hnil hw.2,List.nil_append]
    · simp only [List.flatMap_append,List.flatMap_cons,List.length_append]
      omega

theorem Interp.Lists.value_of_mem {ts : List (Term ADT Field Fun)} {ls : List (List (Value Obj))} (h : I.Lists S ts ls)
    {t : Term ADT Field Fun} (ht : t ∈ ts) : I.value S t = .list (I.listOf S t) := by
  induction h with
  | nil => cases ht
  | cons hl _ ih =>
    rcases List.mem_cons.mp ht with rfl | ht
    · rw [hl,listOf_eq hl]
    · exact ih ht

theorem Interp.Lists.of_mem {ts us : List (Term ADT Field Fun)} {ls : List (List (Value Obj))} (h : I.Lists S ts ls)
    (hus : ∀ u ∈ us, u ∈ ts) : I.Lists S us (us.map (I.listOf S)) := by
  induction us with
  | nil => exact .nil
  | cons u us ih =>
    have hmem : ∀ u' ∈ us, u' ∈ ts := fun u' hu' => hus u' (List.mem_cons_of_mem _ hu')
    exact List.Forall₂.cons (h.value_of_mem (hus u (List.mem_cons_self ..))) (ih hmem)

theorem elements_lists {a : Term ADT Field Fun} {l : List (Value Obj)} (ha : I.value S a = .list l) :
    ∃ ls, I.Lists S (elements S a) ls ∧ ls.flatten = l := by
  unfold elements
  split
  · next f es =>
    split
    · next hf =>
      obtain ⟨rfl,rfl⟩ := hf
      rw [value_nil] at ha
      exact ⟨[],.nil,Value.list.inj ha⟩
    split
    · next hf =>
      subst hf
      obtain ⟨ls,hls,rfl⟩ := value_concat.mp ha
      exact ⟨ls,hls,rfl⟩
    · exact ⟨[l],.cons ha .nil,by simp⟩
  · exact ⟨[l],.cons ha .nil,by simp⟩

theorem subsequence_decides (hE : E.Sound S I) {xs ys zs : List (Term ADT Field Fun)} {ls ms : List (List (Value Obj))}
    (h : subsequence [] xs ys = .ok zs) (hxs : I.Lists S xs ls) (hys : I.Lists S ys ms) :
    I.Decides S (pAllNil S E zs) (ls.flatten = ms.flatten) := by
  obtain ⟨ws,rfl,hmem,hnil,hlen⟩ := subsequence_eq h (I.listOf S)
  have hws := hys.of_mem hmem
  refine (decides_pAllNil hE (by simpa using hws)).congr ?_
  rw [hxs.flatten_eq,hys.flatten_eq,hws.flatten_eq]
  constructor
  · exact fun hw => (hnil hw).symm
  · intro heq
    rw [← heq] at hlen
    exact List.length_eq_zero_iff.mp (by omega)

/-- Ends and rests are equal exactly when the lists are: equal lists have the same ends and the same copies, and different lists
with the same ends are different with their copies. -/
theorem ends_iff {α : Type} {A B X Y a b u v : List α} (ha : a ++ u = X ++ A) (hb : b ++ v = Y ++ B) :
    ((a = b ∧ u = v) ↔ A = B) ↔ (A = B → a = b ∧ X = Y) ∧ (A ≠ B → a = b → X ++ A ≠ Y ++ B) := by
  have huv : a = b → (u = v ↔ X ++ A = Y ++ B) := by
    rintro rfl
    rw [← ha,← hb,List.append_cancel_left_eq]
  constructor
  · intro h
    refine ⟨?_,fun hne hab heq => hne (h.mp ⟨hab,(huv hab).mpr heq⟩)⟩
    rintro rfl
    obtain ⟨hab,heq⟩ := h.mpr rfl
    exact ⟨hab,List.append_cancel_right ((huv hab).mp heq)⟩
  · rintro ⟨hsame,hdiff⟩
    constructor
    · rintro ⟨hab,heq⟩
      by_contra hne
      exact hdiff hne hab ((huv hab).mp heq)
    · rintro rfl
      obtain ⟨hab,rfl⟩ := hsame rfl
      exact ⟨hab,(huv hab).mpr rfl⟩

theorem ends_iff' {α : Type} {A B X Y a b u v : List α} (ha : u ++ a = A ++ X) (hb : v ++ b = B ++ Y) :
    ((a = b ∧ u = v) ↔ A = B) ↔ (A = B → a = b ∧ X = Y) ∧ (A ≠ B → a = b → A ++ X ≠ B ++ Y) := by
  have h := ends_iff (a := a.reverse) (u := u.reverse) (X := X.reverse) (A := A.reverse) (b := b.reverse)
    (v := v.reverse) (Y := Y.reverse) (B := B.reverse) (by rw [← List.reverse_append,ha,List.reverse_append])
    (by rw [← List.reverse_append,hb,List.reverse_append])
  simpa only [← List.reverse_append,List.reverse_inj,ne_eq] using h

variable (S E I) in
/-- Equal lists have the same leftmost terms and the same copies from empty repetitions, and different lists with the same
leftmost terms are different with these copies. -/
def Interp.KeepsLeft (a b : Term ADT Field Fun) : Prop :=
  (I.listOf S a = I.listOf S b → I.listOf S (leftmost S E a []).1 = I.listOf S (leftmost S E b []).1 ∧
    I.extraLeft S E a = I.extraLeft S E b) ∧
  (I.listOf S a ≠ I.listOf S b → I.listOf S (leftmost S E a []).1 = I.listOf S (leftmost S E b []).1 →
    I.extraLeft S E a ++ I.listOf S a ≠ I.extraLeft S E b ++ I.listOf S b)

variable (S E I) in
def Interp.KeepsRight (a b : Term ADT Field Fun) : Prop :=
  (I.listOf S a = I.listOf S b → I.listOf S (rightmost S E [] a).2 = I.listOf S (rightmost S E [] b).2 ∧
    I.extraRight S E a = I.extraRight S E b) ∧
  (I.listOf S a ≠ I.listOf S b → I.listOf S (rightmost S E [] a).2 = I.listOf S (rightmost S E [] b).2 →
    I.listOf S a ++ I.extraRight S E a ≠ I.listOf S b ++ I.extraRight S E b)

variable (S E I) in
/-- The copies keep an equality where it is decided: on the left, or else on the right. -/
def Interp.KeepsEnds (a b : Term ADT Field Fun) : Prop :=
  ¬ isEmptyList S a → ¬ isEmptyList S b →
    ((leftmostEq S E a b).isOk → I.KeepsLeft S E a b) ∧
    (¬ (leftmostEq S E a b).isOk → (rightmostEq S E a b).isOk → I.KeepsRight S E a b)

variable {a b f : Term ADT Field Fun} {l m : List (Value Obj)}

theorem ends_decide (hE : E.Sound S I) {a' b' : Term ADT Field Fun} {u v : List (Term ADT Field Fun)}
    {l' m' : List (Value Obj)} {us vs : List (List (Value Obj))} (ha : I.value S a' = .list l')
    (hb : I.value S b' = .list m') (hu : I.Lists S u us) (hv : I.Lists S v vs)
    (h : (if u ≠ [] ∨ v ≠ [] then
        match isTrue (E.eEq a' b') with
        | some true => .ok (E.eEq (vConcat S E u) (vConcat S E v))
        | some false => .ok eFalse
        | none => .error .notFound
      else .error .notFound : Res (Term ADT Field Fun)) = .ok f) :
    I.Decides S f (l' = m' ∧ us.flatten = vs.flatten) := by
  obtain ⟨p,hp,hab⟩ := hE.eq_list ha hb
  split at h
  · split at h
    · next htrue =>
      obtain rfl := Except.ok.inj h
      obtain rfl := Value.prop.inj (hp.symm.trans (value_of_isTrue S I htrue))
      exact (hE.eq_list (value_vConcat hE hu) (value_vConcat hE hv)).congr (by simp [hab.mp rfl])
    · next hfalse =>
      obtain rfl := Except.ok.inj h
      obtain rfl := Value.prop.inj (hp.symm.trans (value_of_isTrue S I hfalse))
      have hne : l' ≠ m' := fun heq => Bool.false_ne_true (hab.mpr heq)
      exact decides_eFalse.congr (by simp [hne])
    · cases h
  · cases h

theorem leftmostEq_iff (hE : E.Sound S I) (ha : I.value S a = .list l) (hb : I.value S b = .list m)
    (h : leftmostEq S E a b = .ok f) : I.Decides S f (l = m) ↔ I.KeepsLeft S E a b := by
  obtain ⟨l',us,hl',hus,hleft⟩ := leftmost_peeled hE a [] ha .nil
  obtain ⟨m',vs,hm',hvs,hleft'⟩ := leftmost_peeled hE b [] hb .nil
  rw [(ends_decide hE hl' hm' hus hvs h).iff_of,Interp.KeepsLeft,listOf_eq ha,listOf_eq hb,listOf_eq hl',listOf_eq hm']
  exact ends_iff (by simpa using hleft) (by simpa using hleft')

theorem rightmostEq_iff (hE : E.Sound S I) (ha : I.value S a = .list l) (hb : I.value S b = .list m)
    (h : rightmostEq S E a b = .ok f) : I.Decides S f (l = m) ↔ I.KeepsRight S E a b := by
  obtain ⟨l',us,hl',hus,hright⟩ := rightmost_peeled hE [] a ha .nil
  obtain ⟨m',vs,hm',hvs,hright'⟩ := rightmost_peeled hE [] b hb .nil
  rw [(ends_decide hE hl' hm' hus hvs h).iff_of,Interp.KeepsRight,listOf_eq ha,listOf_eq hb,listOf_eq hl',listOf_eq hm']
  exact ends_iff' (by simpa using hright) (by simpa using hright')

theorem rewriteEq_iff (hE : E.Sound S I) (ha : I.value S a = .list l) (hb : I.value S b = .list m)
    (h : rewriteEq S E a b = .ok f) : I.Decides S f (l = m) ↔ I.KeepsEnds S E a b := by
  have hnil : ∀ {t : Term ADT Field Fun} {k : List (Value Obj)}, isEmptyList S t → I.value S t = .list k → k = [] := by
    intro t k ht hk
    unfold isEmptyList at ht
    split at ht
    · next g =>
      rw [of_decide_eq_true ht,value_nil] at hk
      exact (Value.list.inj hk).symm
    · cases ht
  unfold rewriteEq at h
  split at h
  · next hea =>
    obtain rfl := hnil hea ha
    exact iff_of_true ((rewriteIsNil_decides hE hb h).congr eq_comm) fun hne => absurd hea hne
  next hea =>
  split at h
  · next heb =>
    obtain rfl := hnil heb hb
    exact iff_of_true (rewriteIsNil_decides hE ha h) fun _ hne => absurd heb hne
  next heb =>
  rcases handle_ok.mp h with h | ⟨hleft,h⟩
  · rw [leftmostEq_iff hE ha hb h,Interp.KeepsEnds]
    simp [hea,heb,h,Except.isOk,Except.toBool]
  rcases handle_ok.mp h with h | ⟨hright,h⟩
  · rw [rightmostEq_iff hE ha hb h,Interp.KeepsEnds]
    simp [hea,heb,h,hleft,Except.isOk,Except.toBool]
  · refine iff_of_true ?_ fun _ _ => by simp [hleft,hright,Except.isOk,Except.toBool]
    obtain ⟨ls,hls,rfl⟩ := elements_lists ha
    obtain ⟨ms,hms,rfl⟩ := elements_lists hb
    simp only at h
    split at h
    · obtain ⟨zs,hzs,h⟩ := bind_ok.mp h
      obtain rfl := Except.ok.inj h
      exact subsequence_decides hE hzs hls hms
    · obtain ⟨zs,hzs,h⟩ := bind_ok.mp h
      obtain rfl := Except.ok.inj h
      exact (subsequence_decides hE hzs hms hls).congr eq_comm

section Examples

inductive ListSymbol
  | bits (s : Symbol)
  | nil
  | elt
  | concat
  | repeat
  | nth
  | length
  deriving DecidableEq, Ord

instance listFunSymbol : FunSymbol ListSymbol where
  category
    | .bits .lor => .operator opLor
    | .bits .land => .operator opLand
    | .bits .lxor => .operator opLxor
    | _ => .function
  sort
    | .bits .bitPositive => .prop
    | _ => .int

def listSymbols : Symbols ListSymbol where
  lnot := .bits .lnot
  lor := .bits .lor
  land := .bits .land
  lxor := .bits .lxor
  lsl := .bits .lsl
  lsr := .bits .lsr
  bitPositive := .bits .bitPositive
  nodup := by decide
  category_lor := rfl
  category_land := rfl
  category_lxor := rfl
  fNil := .nil
  fElt := .elt
  fConcat := .concat
  fRepeat := .repeat
  fNth := .nth
  fLength := .length
  lists_nodup := by decide
  lists_disjoint := by decide

variable (ADT Field Fun) in
/-- The constructors that simplify nothing but equalities of the same terms and inequalities of constants. -/
def Build.free : Build ADT Field Fun where
  toBuild := { Cint.Build.free ADT Field Fun with eEq := fun a b => if a = b then eTrue else .node .eq [a,b] }
  eOr ts := .node .not [.node .and (ts.map fun t => .node .not [t])]
  eSum ts := .node .add (eZero :: ts)
  eMul a b := .node .mul [a,b]
  eSub a b := .node .add [a,.node .mul [eMinusOne,b]]

theorem onInts_map_toArith {ts : List (Term ADT Field Fun)} {xs : List ℤ}
    (h : List.Forall₂ (fun t x => I.value S t = .int x) ts xs) (g : List ℤ → Cint.Value) :
    onInts g ((ts.map (I.value S)).map toArith) = g xs := by
  have hmap : (ts.map (I.value S)).map toArith = xs.map .int := by
    induction h with
    | nil => rfl
    | cons ht _ ih => rw [List.map_cons,List.map_cons,List.map_cons,ht,ih,toArith]
  rw [onInts,ints_eq_some.mpr hmap]

theorem onProps_map_toArith {ts : List (Term ADT Field Fun)} {bs : List Bool}
    (h : List.Forall₂ (fun t b => I.value S t = .prop b) ts bs) (g : List Bool → Bool) :
    onProps g ((ts.map (I.value S)).map toArith) = .prop (g bs) := by
  have hmap : (ts.map (I.value S)).map toArith = bs.map .prop := by
    induction h with
    | nil => rfl
    | cons ht _ ih => rw [List.map_cons,List.map_cons,List.map_cons,ht,ih,toArith]
  rw [onProps,props_eq_some.mpr hmap]

theorem value_add {ts : List (Term ADT Field Fun)} {x : ℤ} {xs : List ℤ}
    (h : List.Forall₂ (fun t x => I.value S t = .int x) ts (x :: xs)) :
    I.value S (.node .add ts) = .int (x :: xs).sum := by
  rw [value_node]
  simp only [Interp.node,Cint.Interp.node,onInts_map_toArith h,sum,ofArith]

theorem value_mul {a b : Term ADT Field Fun} {x y : ℤ} (ha : I.value S a = .int x) (hb : I.value S b = .int y) :
    I.value S (.node .mul [a,b]) = .int (x * y) := by
  rw [value_node]
  simp only [Interp.node,onInts_map_toArith (.cons ha (.cons hb .nil)),ofArith,List.prod_cons,List.prod_nil,mul_one]

theorem value_and {ts : List (Term ADT Field Fun)} {bs : List Bool}
    (h : List.Forall₂ (fun t b => I.value S t = .prop b) ts bs) : I.value S (.node .and ts) = .prop (bs.all id) := by
  rw [value_node]
  simp only [Interp.node,Cint.Interp.node,onProps_map_toArith h,ofArith]

theorem value_not {t : Term ADT Field Fun} {b : Bool} (h : I.value S t = .prop b) :
    I.value S (.node .not [t]) = .prop !b := by
  rw [value_node]
  simp only [Interp.node,Cint.Interp.node,onProps_map_toArith (.cons h .nil),ofArith,List.headD_cons]

theorem value_compareConstants {r : Repr ADT Field Fun} {cmp : ℤ → ℤ → Bool}
    (hr : ∀ x y : ℤ, I.node S r [.int x,.int y] = .prop (cmp x y)) {a b : Term ADT Field Fun} {x y : ℤ}
    (ha : I.value S a = .int x) (hb : I.value S b = .int y) : I.value S (compareConstants r cmp a b) = .prop (cmp x y) := by
  unfold compareConstants
  split
  · rw [value_kint] at ha hb
    obtain rfl := Value.int.inj ha
    obtain rfl := Value.int.inj hb
    split
    · next h => simp [h]
    · next h => simp [h]
  · rw [value_node]
    simp [ha,hb,hr]

theorem Build.free_sound (S : Symbols Fun) (I : Interp ADT Field Fun Obj) : (Build.free ADT Field Fun).Sound S I where
  eq_list {a b l m} ha hb := by
    simp only [Build.free]
    split
    · next h =>
      subst h
      exact ⟨true,value_eTrue ..,by simpa using Value.list.inj (ha.symm.trans hb)⟩
    · classical
      refine ⟨decide (l = m),?_,decide_eq_true_iff⟩
      rw [value_node,List.map_cons,List.map_cons,ha,hb]
      simp [Interp.node,eqValues]
  leq ha hb := value_compareConstants (by simp [Interp.node,Cint.Interp.node,onInts,ints,binary,toArith,ofArith]) ha hb
  lt ha hb := value_compareConstants (by simp [Interp.node,Cint.Interp.node,onInts,ints,binary,toArith,ofArith]) ha hb
  sum {ts xs} h := (value_add (.cons (value_eZero ..) h)).trans (by rw [List.sum_cons,zero_add])
  mul ha hb := value_mul ha hb
  sub {a b x y} ha hb := by
    have hneg := value_mul (value_eZint S I (-1)) hb
    refine (value_add (.cons ha (.cons hneg .nil))).trans (congrArg Value.int ?_)
    rw [List.sum_cons,List.sum_singleton]
    ring
  and h := value_and h
  or {ts bs} h := by
    have hnot : List.Forall₂ (fun t b => I.value S t = .prop b) (ts.map fun t => .node .not [t]) (bs.map (!·)) := by
      induction h with
      | nil => exact .nil
      | cons ht _ ih => exact .cons (value_not ht) ih
    refine (value_not (value_and hnot)).trans (congrArg Value.prop ?_)
    rw [List.all_map,List.not_all_eq_any_not]
    exact congrArg bs.any (funext Bool.not_not)
  func f ts _ := rfl

def Interp.constant (z : ℤ) : Interp Empty Empty ListSymbol Empty where
  arith := ⟨fun _ _ => .other,fun x _ => x,fun x _ => x,fun _ _ => false⟩
  atom _ _ := .int z
  outOfRange _ _ := .other

def lowBit : Term Empty Empty ListSymbol := .node (.func (.bits .land)) [.node (.fvar ⟨0,"x",0,.node .int []⟩) [],eZint 1]

def singleton : Term Empty Empty ListSymbol := vElt listSymbols (Build.free ..) (eZint 1)

def repeated : Term Empty Empty ListSymbol := vRepeat listSymbols (Build.free ..) singleton lowBit

theorem value_lowBit (z : ℤ) : (Interp.constant z).value listSymbols lowBit = .int (z.land 1) := by
  rw [← toArith_eq_int,lowBit,toArith_func (by decide)]
  exact congrArg (fun x => Cint.Value.int (z.land x)) (Bits.land_neg_one 1)

theorem value_singleton (z : ℤ) : (Interp.constant z).value listSymbols singleton = .list [.int 1] := value_elt ..

theorem value_repeated (z : ℤ) :
    (Interp.constant z).value listSymbols repeated = .list (copies [.int 1] (z.land 1)) :=
  value_repeat.mpr ⟨_,_,value_singleton z,value_lowBit z,rfl⟩

/-- What the equality of `repeated` and `singleton` becomes: no other copy is left. -/
def noMore : Term Empty Empty ListSymbol := .node .eq
  [vConcat listSymbols (Build.free ..) [vRepeat listSymbols (Build.free ..) singleton ((Build.free ..).eSub lowBit (eZint 1))],
    vConcat listSymbols (Build.free ..) []]

end Examples
end FramaC.Vlist
