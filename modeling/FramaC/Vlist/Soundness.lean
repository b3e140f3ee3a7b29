import FramaC.Vlist.Terms

/-! # Soundness of the rewriting of lists

Lengths, elements and repetitions keep their values. An equality is right when peeling is: the leftmost terms and the rests are
the same lists exactly when the whole lists are. Unfolding a repetition that is empty adds a copy that is not there.
-/
namespace FramaC.Vlist
open Qed Integer Cint
variable {ADT Field Fun Obj : Type} [DecidableEq Fun] [FunSymbol Fun] {S : Symbols Fun} {E : Build ADT Field Fun}
  {I : Interp ADT Field Fun Obj}

def Interp.Decides (S : Symbols Fun) (I : Interp ADT Field Fun Obj) (f : Term ADT Field Fun) (P : Prop) : Prop :=
  ∃ p : Bool, I.value S f = .prop p ∧ (p = true ↔ P)

/-- The constructors make terms with the values of what they construct. -/
structure Build.Sound (E : Build ADT Field Fun) (S : Symbols Fun) (I : Interp ADT Field Fun Obj) : Prop where
  eq_list : ∀ {a b : Term ADT Field Fun} {l m : List (Value Obj)}, I.value S a = .list l → I.value S b = .list m →
    I.Decides S (E.eEq a b) (l = m)
  leq : ∀ {a b : Term ADT Field Fun} {x y : ℤ}, I.value S a = .int x → I.value S b = .int y →
    I.value S (E.eLeq a b) = .prop (x ≤ y)
  lt : ∀ {a b : Term ADT Field Fun} {x y : ℤ}, I.value S a = .int x → I.value S b = .int y →
    I.value S (E.eLt a b) = .prop (x < y)
  sum : ∀ {ts : List (Term ADT Field Fun)} {xs : List ℤ}, List.Forall₂ (fun t x => I.value S t = .int x) ts xs →
    I.value S (E.eSum ts) = .int xs.sum
  mul : ∀ {a b : Term ADT Field Fun} {x y : ℤ}, I.value S a = .int x → I.value S b = .int y →
    I.value S (E.eMul a b) = .int (x * y)
  sub : ∀ {a b : Term ADT Field Fun} {x y : ℤ}, I.value S a = .int x → I.value S b = .int y →
    I.value S (E.eSub a b) = .int (x - y)
  and : ∀ {ts : List (Term ADT Field Fun)} {bs : List Bool}, List.Forall₂ (fun t b => I.value S t = .prop b) ts bs →
    I.value S (E.eAnd ts) = .prop (bs.all id)
  or : ∀ {ts : List (Term ADT Field Fun)} {bs : List Bool}, List.Forall₂ (fun t b => I.value S t = .prop b) ts bs →
    I.value S (E.eOr ts) = .prop (bs.any id)
  func : ∀ (f : Fun) (ts : List (Term ADT Field Fun)), I.value S (.node (.func f) ts) ≠ .other →
    I.value S (E.eFun f ts) = I.value S (.node (.func f) ts)

theorem toArith_func {f : Fun} (hf : f ∈ [S.lnot,S.lor,S.land,S.lxor,S.lsl,S.lsr,S.bitPositive])
    (ts : List (Term ADT Field Fun)) : toArith (I.value S (.node (.func f) ts)) =
      I.arith.func S.toCbits f (ts.map fun t => toArith (I.value S t)) := by
  have hl : f ∉ [S.fNil,S.fElt,S.fConcat,S.fRepeat,S.fNth,S.fLength] := fun h => S.lists_disjoint f h hf
  rw [value_node,Interp.node,if_neg hl,if_pos hf,toArith_ofArith,List.map_map]
  rfl

theorem Build.Sound.arithmetic (hE : E.Sound S I) :
    Arithmetic S.toCbits E.toBuild fun t => toArith (I.value S t) where
  leq h hx := by
    have hv := value_of_isTrue S I h
    rw [hE.leq (value_eZero S I) (toArith_eq_int.mp hx)] at hv
    simpa using hv
  lt h hx := by
    have hv := value_of_isTrue S I h
    rw [hE.lt (toArith_eq_int.mp hx) (value_eZero S I)] at hv
    simpa using hv
  lnot h := by
    rw [toArith_func (by simp),func_lnot] at h
    exact onInts_unary_eq.mp h
  lor h := by
    rw [toArith_func (by simp),func_lor] at h
    exact onInts_list_eq.mp h
  land h := by
    rw [toArith_func (by simp),func_land] at h
    exact onInts_list_eq.mp h
  lxor h := by
    rw [toArith_func (by simp),func_lxor] at h
    exact onInts_list_eq.mp h
  lsl h := by
    rw [toArith_func (by simp),func_lsl] at h
    obtain ⟨x,n,hxs,rfl⟩ := onInts_binary_eq.mp h
    exact ⟨x,n,hxs,shl_neg_iff I.arith⟩
  lsr h := by
    rw [toArith_func (by simp),func_lsr] at h
    obtain ⟨x,n,hxs,rfl⟩ := onInts_binary_eq.mp h
    exact ⟨x,n,hxs,shr_neg_iff I.arith⟩
  add {ts z} h := by
    rw [value_node] at h
    simp only [Interp.node,Cint.Interp.node,toArith_ofArith,List.map_map] at h
    exact onInts_sum_eq.mp h

theorem nonneg_of_isPositiveOrNull (hE : E.Sound S I) {n : Term ADT Field Fun}
    (h : isPositiveOrNull S.toCbits E.toBuild n = true) {z : ℤ} (hz : I.value S n = .int z) : 0 ≤ z :=
  (signsRight hE.arithmetic n).1 h z (toArith_eq_int.mpr hz)

theorem value_vNil (hE : E.Sound S I) : I.value S (vNil S E) = .list [] := by
  rw [vNil,hE.func _ _ (by simp [value_nil]),value_nil]

theorem value_vConcat (hE : E.Sound S I) {ts : List (Term ADT Field Fun)} {ls : List (List (Value Obj))}
    (h : I.Lists S ts ls) : I.value S (vConcat S E ts) = .list ls.flatten := by
  have hv := value_concat.mpr ⟨ls,h,rfl⟩
  rw [vConcat,hE.func _ _ (by simp [hv]),hv]

theorem value_vRepeat (hE : E.Sound S I) {u n : Term ADT Field Fun} {l : List (Value Obj)} {z : ℤ}
    (hu : I.value S u = .list l) (hn : I.value S n = .int z) : I.value S (vRepeat S E u n) = .list (copies l z) := by
  have hv := value_repeat.mpr ⟨l,z,hu,hn,rfl⟩
  rw [vRepeat,hE.func _ _ (by simp [hv]),hv]

theorem value_vLength (hE : E.Sound S I) {u : Term ADT Field Fun} {l : List (Value Obj)} (hu : I.value S u = .list l) :
    I.value S (vLength S E u) = .int l.length := by
  have hv := value_length hu
  rw [vLength,hE.func _ _ (by simp [hv]),hv]

theorem copies_nonpos {l : List (Value Obj)} {n : ℤ} (h : n ≤ 0) : copies l n = [] := by
  simp [copies,Int.toNat_of_nonpos h]

theorem copies_one (l : List (Value Obj)) : copies l 1 = l := by simp [copies]

theorem copies_pos {l : List (Value Obj)} {n : ℤ} (h : 1 ≤ n) : copies l n = l ++ copies l (n - 1) := by
  obtain ⟨k,hk⟩ : ∃ k : ℕ, n.toNat = k + 1 := ⟨n.toNat - 1,by omega⟩
  have hk' : (n - 1).toNat = k := by omega
  rw [copies,copies,hk,hk',List.replicate_succ,List.flatten_cons]

theorem copies_pos' {l : List (Value Obj)} {n : ℤ} (h : 1 ≤ n) : copies l n = copies l (n - 1) ++ l := by
  obtain ⟨k,hk⟩ : ∃ k : ℕ, n.toNat = k + 1 := ⟨n.toNat - 1,by omega⟩
  have hk' : (n - 1).toNat = k := by omega
  rw [copies,copies,hk,hk',List.replicate_succ',List.flatten_append]
  simp

theorem copies_copies {l : List (Value Obj)} {m n : ℤ} (hm : 0 ≤ m) (hn : 0 ≤ n) :
    copies (copies l m) n = copies l (m * n) := by
  obtain ⟨m,rfl⟩ := Int.eq_ofNat_of_zero_le hm
  obtain ⟨n,rfl⟩ := Int.eq_ofNat_of_zero_le hn
  rw [← Int.natCast_mul]
  simp only [copies,Int.toNat_natCast]
  induction n with
  | zero => simp
  | succ n ih => rw [List.replicate_succ,List.flatten_cons,ih (by omega),Nat.mul_succ,Nat.add_comm,List.replicate_add,
      List.flatten_append]

theorem length_copies {l : List (Value Obj)} {n : ℤ} (hn : 0 ≤ n) : ((copies l n).length : ℤ) = l.length * n := by
  obtain ⟨n,rfl⟩ := Int.eq_ofNat_of_zero_le hn
  simp [copies,mul_comm]

theorem copies_eq_nil_iff {l : List (Value Obj)} {n : ℤ} : copies l n = [] ↔ n ≤ 0 ∨ l = [] := by
  simp only [copies,List.flatten_eq_nil_iff,List.mem_replicate]
  constructor
  · intro h
    by_cases hn : n ≤ 0
    · exact .inl hn
    · exact .inr (h l ⟨by omega,rfl⟩)
  · rintro (hn | rfl) l' ⟨hne,rfl⟩
    · omega
    · rfl

theorem lengths (hE : E.Sound S I) {es : List (Term ADT Field Fun)} {ls : List (List (Value Obj))}
    (h : I.Lists S es ls) :
    List.Forall₂ (fun t x => I.value S t = .int x) (es.map (vLength S E)) (ls.map fun l => (l.length : ℤ)) := by
  induction h with
  | nil => exact .nil
  | cons hl _ ih => exact .cons (value_vLength hE hl) ih

theorem rewriteLength_sound (hE : E.Sound S I) {e r : Term ADT Field Fun} {l : List (Value Obj)}
    (he : I.value S e = .list l) (h : rewriteLength S E e = .ok r) : I.value S r = .int l.length := by
  unfold rewriteLength at h
  split at h
  · next f es =>
    split at h
    · next hf =>
      obtain ⟨rfl,rfl⟩ := hf
      obtain rfl := Except.ok.inj h
      rw [value_nil] at he
      obtain rfl := Value.list.inj he
      exact value_eZero ..
    split at h
    · next hf =>
      obtain ⟨rfl,hlen⟩ := hf
      obtain ⟨x,rfl⟩ := List.length_eq_one_iff.mp hlen
      obtain rfl := Except.ok.inj h
      rw [value_elt] at he
      obtain rfl := Value.list.inj he
      exact value_eZint ..
    split at h
    · next hf =>
      subst hf
      obtain rfl := Except.ok.inj h
      obtain ⟨ls,hls,rfl⟩ := value_concat.mp he
      rw [hE.sum (lengths hE hls),List.length_flatten,Nat.cast_list_sum,List.map_map]
      rfl
    split at h
    · next u n =>
      split at h
      · next hf =>
        obtain ⟨rfl,hn⟩ := hf
        obtain rfl := Except.ok.inj h
        obtain ⟨l',z,hu,hz,rfl⟩ := value_repeat.mp he
        rw [hE.mul (value_vLength hE hu) hz,length_copies (nonneg_of_isPositiveOrNull hE hn hz)]
      · cases h
    · cases h
  · cases h

theorem getNthList_sound {es : List (Term ADT Field Fun)} {ls : List (List (Value Obj))} (hls : I.Lists S es ls) :
    ∀ {k : ℤ} {r : Term ADT Field Fun}, 0 ≤ k → getNthList S k es = .ok r → ls.flatten[k.toNat]? = some (I.value S r) := by
  induction hls with
  | nil =>
    intro k r _ h
    cases h
  | @cons head l tail ls hl hls ih =>
    intro k r hk h
    unfold getNthList at h
    split at h
    · next f x =>
      split at h
      · next hf =>
        subst hf
        rw [value_elt] at hl
        obtain rfl := Value.list.inj hl
        split at h
        · next hk0 =>
          subst hk0
          obtain rfl := Except.ok.inj h
          rfl
        · next hk0 =>
          obtain ⟨j,rfl⟩ : ∃ j : ℕ, k = j + 1 := ⟨(k - 1).toNat,by omega⟩
          have hj := ih (by omega) h
          have htn : ((j : ℤ) + 1 - 1).toNat = j := by omega
          have htn' : ((j : ℤ) + 1).toNat = j + 1 := by omega
          rw [htn] at hj
          rw [htn',List.flatten_cons,List.singleton_append,List.getElem?_cons_succ,hj]
      · cases h
    · cases h

theorem rewriteNth_sound {s k r : Term ADT Field Fun} {l : List (Value Obj)} {z : ℤ} (hs : I.value S s = .list l)
    (hk : I.value S k = .int z) (h : rewriteNth S s k = .ok r) :
    I.value S r = I.value S (.node (.func S.fNth) [s,k]) := by
  have hget : ∀ k' : ℤ, 0 ≤ k' → getNth S k' s = .ok r → l[k'.toNat]? = some (I.value S r) := by
    intro k' hk' h
    unfold getNth at h
    split at h
    · next f es =>
      split at h
      · next hf =>
        subst hf
        obtain ⟨ls,hls,rfl⟩ := value_concat.mp hs
        exact getNthList_sound hls hk' h
      split at h
      · next x =>
        split at h
        · next hf =>
          obtain ⟨rfl,rfl⟩ := hf
          obtain rfl := Except.ok.inj h
          rw [value_elt] at hs
          obtain rfl := Value.list.inj hs
          rfl
        · cases h
      · cases h
    · cases h
  unfold rewriteNth at h
  split at h
  · next z' ts =>
    rw [value_kint] at hk
    obtain rfl := Value.int.inj hk
    split at h
    · next k' hk' =>
      obtain rfl : z' = k' := by
        unfold toInt at hk'
        split at hk'
        · exact Except.ok.inj hk'
        · cases hk'
      split at h
      · next h0 => rw [value_nth hs (value_kint ..),Interp.nth,if_pos h0,hget _ h0 h,Option.getD_some]
      · cases h
    · cases h
  · cases h

variable [DecidableEq ADT] [DecidableEq Field]

theorem rewriteRepeat_sound (hE : E.Sound S I) {s n r : Term ADT Field Fun} {l : List (Value Obj)}
    (h : rewriteRepeat S E s n = .ok r) (hl : I.value S (.node (.func S.fRepeat) [s,n]) = .list l) :
    I.value S r = .list l := by
  obtain ⟨m,z,hs,hn,rfl⟩ := value_repeat.mp hl
  unfold rewriteRepeat at h
  split at h
  · next h0 =>
    subst h0
    obtain rfl := Except.ok.inj h
    rw [value_eZero] at hn
    obtain rfl := Value.int.inj hn
    rw [value_vNil hE,copies_nonpos le_rfl]
  split at h
  · next h1 =>
    subst h1
    obtain rfl := Except.ok.inj h
    rw [value_eZint] at hn
    obtain rfl := Value.int.inj hn
    rw [hs,copies_one]
  split at h
  · next hnil =>
    obtain rfl := Except.ok.inj h
    have hm : m = [] := by
      unfold isNil at hnil
      split at hnil
      · next f es =>
        rw [of_decide_eq_true hnil,value_listFun (by simp)] at hs
        unfold Interp.listFun at hs
        rw [if_pos rfl] at hs
        split at hs
        · exact (Value.list.inj hs).symm
        · cases hs
      · cases hnil
    rw [hs,hm,(copies_eq_nil_iff).mpr (.inr rfl)]
  split at h
  · next f s0 n0 =>
    split at h
    · next hf =>
      obtain ⟨rfl,hpos,hpos0⟩ := hf
      obtain rfl := Except.ok.inj h
      obtain ⟨l0,z0,hs0,hn0,rfl⟩ := value_repeat.mp hs
      have hz := nonneg_of_isPositiveOrNull hE hpos hn
      have hz0 := nonneg_of_isPositiveOrNull hE hpos0 hn0
      rw [value_vRepeat hE hs0 (hE.mul hn0 hn),copies_copies hz0 hz]
    · cases h
  · cases h

end FramaC.Vlist

/-! ## Ends of a list

An end and the rest make the whole list, with the copies that the empty repetitions on the way have added to it.
-/
namespace FramaC.Vlist
open Qed Integer Cint
variable {ADT Field Fun Obj : Type} [DecidableEq Fun] [FunSymbol Fun] {S : Symbols Fun} {E : Build ADT Field Fun}
  {I : Interp ADT Field Fun Obj}

/-- The list that a term is. -/
noncomputable def Interp.listOf (S : Symbols Fun) (I : Interp ADT Field Fun Obj) (t : Term ADT Field Fun) :
    List (Value Obj) :=
  match I.value S t with
  | .list l => l
  | _ => []

theorem listOf_eq {t : Term ADT Field Fun} {l : List (Value Obj)} (h : I.value S t = .list l) : I.listOf S t = l := by
  rw [Interp.listOf,h]

theorem Interp.Lists.flatten_eq {ts : List (Term ADT Field Fun)} {ls : List (List (Value Obj))} (h : I.Lists S ts ls) :
    ls.flatten = ts.flatMap (I.listOf S) := by
  induction h with
  | nil => rfl
  | cons ht _ ih => rw [List.flatten_cons,List.flatMap_cons,listOf_eq ht,ih]

theorem Interp.Lists.append {ts us : List (Term ADT Field Fun)} {ls ms : List (List (Value Obj))} (h : I.Lists S ts ls)
    (h' : I.Lists S us ms) : I.Lists S (ts ++ us) (ls ++ ms) :=
  List.rel_append h h'

theorem Interp.Lists.reverse {ts : List (Term ADT Field Fun)} {ls : List (List (Value Obj))} (h : I.Lists S ts ls) :
    I.Lists S ts.reverse ls.reverse :=
  List.rel_reverse h

variable (S E I) in
/-- What `leftmost` puts before the list. -/
noncomputable def Interp.extraLeft (a : Term ADT Field Fun) : List (Value Obj) := by
  classical exact match a with
  | .node (.func f) (e :: es) =>
    if f = S.fConcat then extraLeft e
    else
      match es with
      | [n] =>
        if f = S.fRepeat ∧ isPositiveOrNull S.toCbits E.toBuild n then
          if I.value S n = .int 0 then extraLeft e ++ I.listOf S e else extraLeft e
        else []
      | _ => []
  | _ => []

variable (S E I) in
/-- What `rightmost` puts after the list. -/
noncomputable def Interp.extraRight (a : Term ADT Field Fun) : List (Value Obj) := by
  classical exact match a with
  | .node (.func f) es =>
    if f = S.fConcat then
      match _ : es.reverse with
      | [] => []
      | e :: _ => extraRight e
    else
      match es with
      | [u,n] =>
        if f = S.fRepeat ∧ isPositiveOrNull S.toCbits E.toBuild n then
          if I.value S n = .int 0 then I.listOf S u ++ extraRight u else extraRight u
        else []
      | _ => []
  | _ => []
termination_by a.height
decreasing_by
  · next h => exact Rose.height_lt (List.mem_reverse.mp (by rw [h]; exact List.mem_cons_self ..))
  all_goals exact Rose.height_lt (List.mem_cons_self ..)

def Interp.Peeled (S : Symbols Fun) (I : Interp ADT Field Fun Obj) (a : Term ADT Field Fun)
    (ms : List (Term ADT Field Fun)) (P : List (Value Obj) → List (Value Obj) → Prop) : Prop :=
  ∃ l ls, I.value S a = .list l ∧ I.Lists S ms ls ∧ P l ls.flatten

theorem leftmost_peeled (hE : E.Sound S I) (a : Term ADT Field Fun) (ms : List (Term ADT Field Fun)) :
    ∀ {l : List (Value Obj)} {ls : List (List (Value Obj))}, I.value S a = .list l → I.Lists S ms ls →
      I.Peeled S (leftmost S E a ms).1 (leftmost S E a ms).2 fun l' rest =>
        l' ++ rest = I.extraLeft S E a ++ l ++ ls.flatten := by
  induction a,ms using leftmost.induct S E with
  | case1 ms e es ih =>
    intro l ls hl hls
    obtain ⟨_,hes,rfl⟩ := value_concat.mp hl
    obtain _ | ⟨he,hes⟩ := hes
    obtain ⟨l',us,hl',hus,h⟩ := ih he (Interp.Lists.append hes hls)
    unfold leftmost Interp.extraLeft
    rw [if_pos rfl,if_pos rfl]
    refine ⟨l',us,hl',hus,?_⟩
    simpa using h
  | case2 ms f e hf n hn ih =>
    intro l ls hl hls
    obtain ⟨rfl,hpos⟩ := hn
    obtain ⟨m,z,he,hz,rfl⟩ := value_repeat.mp hl
    have hz0 := nonneg_of_isPositiveOrNull hE hpos hz
    obtain ⟨l',us,hl',hus,h⟩ := ih he (.cons (value_vRepeat hE he (hE.sub hz (value_eZint ..))) hls)
    unfold leftmost Interp.extraLeft
    simp only [hf,if_false,hpos,and_self,if_true,hz,Value.int.injEq]
    refine ⟨l',us,hl',hus,h.trans ?_⟩
    split
    · next h0 =>
      subst h0
      simp [copies_nonpos,listOf_eq he]
    · next h0 => rw [copies_pos (n := z) (by omega)]; simp
  | case3 ms f e hf n hn =>
    intro l ls hl hls
    unfold leftmost Interp.extraLeft
    simp only [hf,if_false,hn]
    exact ⟨l,ls,hl,hls,rfl⟩
  | case4 ms f e es hf hes =>
    intro l ls hl hls
    rw [leftmost,Interp.extraLeft]
    · simp only [hf,if_false]
      exact ⟨l,ls,hl,hls,rfl⟩
    · exact hes
    · exact hes
  | case5 a ms ha =>
    intro l ls hl hls
    rw [leftmost,Interp.extraLeft]
    · exact ⟨l,ls,hl,hls,rfl⟩
    · exact ha
    · exact ha

theorem rightmost_concat {ms es es' : List (Term ADT Field Fun)} {e : Term ADT Field Fun} (h : es.reverse = e :: es') :
    rightmost S E ms (.node (.func S.fConcat) es) = rightmost S E (ms ++ es'.reverse) e := by
  rw [rightmost.eq_def]
  simp only [if_true]
  split
  · next h' => cases h.symm.trans h'
  · next h' =>
    obtain ⟨rfl,rfl⟩ := List.cons.inj (h.symm.trans h')
    rfl

theorem extraRight_concat {es es' : List (Term ADT Field Fun)} {e : Term ADT Field Fun} (h : es.reverse = e :: es') :
    I.extraRight S E (.node (.func S.fConcat) es) = I.extraRight S E e := by
  rw [Interp.extraRight.eq_def]
  simp only [if_true]
  split
  · next h' => cases h.symm.trans h'
  · next h' =>
    obtain ⟨rfl,rfl⟩ := List.cons.inj (h.symm.trans h')
    rfl

theorem rightmost_peeled (hE : E.Sound S I) (ms : List (Term ADT Field Fun)) (a : Term ADT Field Fun) :
    ∀ {l : List (Value Obj)} {ls : List (List (Value Obj))}, I.value S a = .list l → I.Lists S ms ls →
      I.Peeled S (rightmost S E ms a).2 (rightmost S E ms a).1 fun l' rest =>
        rest ++ l' = ls.flatten ++ l ++ I.extraRight S E a := by
  induction ms,a using rightmost.induct S E with
  | case1 ms es hes =>
    intro l ls hl hls
    obtain rfl := List.reverse_eq_nil_iff.mp hes
    unfold rightmost Interp.extraRight
    rw [if_pos rfl,if_pos rfl]
    exact ⟨l,ls,hl,hls,by simp⟩
  | case2 ms es e es' hes ih =>
    intro l ls hl hls
    obtain ⟨_,hls',rfl⟩ := value_concat.mp hl
    have hrev := Interp.Lists.reverse hls'
    rw [hes] at hrev
    rename_i ls'
    obtain ⟨l₁,ls₁,he,hes',hrls⟩ := List.forall₂_cons_left_iff.mp hrev
    have hls₁ : ls' = ls₁.reverse ++ [l₁] := by rw [← List.reverse_reverse ls',hrls,List.reverse_cons]
    obtain ⟨l',us,hl',hus,h⟩ := ih he (hls.append (Interp.Lists.reverse hes'))
    rw [rightmost_concat hes,extraRight_concat hes]
    refine ⟨l',us,hl',hus,h.trans ?_⟩
    simp [hls₁]
  | case3 ms f hf u n hn ih =>
    intro l ls hl hls
    obtain ⟨rfl,hpos⟩ := hn
    obtain ⟨m,z,hu,hz,rfl⟩ := value_repeat.mp hl
    have hz0 := nonneg_of_isPositiveOrNull hE hpos hz
    obtain ⟨l',us,hl',hus,h⟩ :=
      ih hu (hls.append (.cons (value_vRepeat hE hu (hE.sub hz (value_eZint ..))) .nil))
    unfold rightmost Interp.extraRight
    simp only [hf,if_false,hpos,and_self,if_true,hz,Value.int.injEq]
    refine ⟨l',us,hl',hus,h.trans ?_⟩
    split
    · next h0 =>
      subst h0
      simp [copies_nonpos,listOf_eq hu]
    · next h0 => rw [copies_pos' (n := z) (by omega)]; simp
  | case4 ms f hf u n hn =>
    intro l ls hl hls
    unfold rightmost Interp.extraRight
    simp only [hf,if_false,hn]
    exact ⟨l,ls,hl,hls,by simp⟩
  | case5 =>
    rename ¬ _ = S.fConcat => hf
    intro l ls hl hls
    unfold rightmost Interp.extraRight
    simp only [hf,if_false]
    exact ⟨l,ls,hl,hls,by simp⟩
  | case6 ms a ha =>
    intro l ls hl hls
    rw [rightmost,Interp.extraRight]
    · exact ⟨l,ls,hl,hls,by simp⟩
    · exact ha
    · exact ha

end FramaC.Vlist
