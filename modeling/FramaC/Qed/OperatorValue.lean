import FramaC.Qed.Operator

/-! # Values of operator applications

Flattening, sorting, absorption, the removal of neutral elements and of duplicates keep the fold of an operator.
-/
set_option linter.unusedSectionVars false
namespace FramaC.Qed
open Comparison
variable {ADT Field Fun : Type}
variable [DecidableEq ADT] [DecidableEq Field] [DecidableEq Fun] [Ord ADT] [FieldSymbol Field] [FunSymbol Fun]

mutual

theorem isElement_iff : ∀ (e : Element Fun) (x : Term ADT Field Fun), isElement e x = true ↔ element e = some x
  | .none, x => by
    obtain ⟨r,ts⟩ := x
    simp [isElement,element]
  | .true, x => by
    obtain ⟨r,ts⟩ := x
    cases r <;> cases ts <;> simp [isElement,element,eTrue]
  | .false, x => by
    obtain ⟨r,ts⟩ := x
    cases r <;> cases ts <;> simp [isElement,element,eFalse]
  | .int k, x => by
    obtain ⟨r,ts⟩ := x
    cases r <;> cases ts <;> simp [isElement,element]
  | .func f l, x => by
    obtain ⟨r,ts⟩ := x
    have hl := areElements_iff l ts
    cases r <;> simp [isElement,element,Option.map_eq_some_iff]
    case func g =>
      rw [hl]
      exact ⟨fun h => ⟨h.2,h.1⟩,fun h => ⟨h.2,h.1⟩⟩

theorem areElements_iff : ∀ (es : List (Element Fun)) (xs : List (Term ADT Field Fun)),
    areElements es xs = true ↔ elements es = some xs
  | [], xs => by cases xs <;> simp [areElements,elements]
  | e :: es, xs => by
    cases xs with
    | nil =>
      simp only [areElements,elements]
      cases (element e : Option (Term ADT Field Fun)) <;>
        cases (elements es : Option (List (Term ADT Field Fun))) <;> simp
    | cons x xs =>
      have he := isElement_iff e x
      have hes := areElements_iff es xs
      simp only [areElements,elements,Bool.and_eq_true,he,hes]
      cases (element e : Option (Term ADT Field Fun)) <;>
        cases (elements es : Option (List (Term ADT Field Fun))) <;> simp

end

def IsConstant : Element Fun → Prop
  | .func g _ => FunSymbol.category g = .constructor
  | _ => True

theorem element_ne {f : Fun} {op : Operator Fun} (hf : FunSymbol.category f = .operator op) {e : Element Fun}
    (he : IsConstant e) (ts : List (Term ADT Field Fun)) : element e ≠ some (.node (.func f) ts) := by
  cases e with
  | func g l =>
    intro h
    simp only [element,Option.map_eq_some_iff,Rose.node.injEq,Repr.func.injEq] at h
    obtain ⟨_,_,rfl,_⟩ := h
    rw [IsConstant,hf] at he
    cases he
  | _ => simp [element,eTrue,eFalse]

section Flatten
variable {f : Fun}

theorem opRevassoc_cons (acc : List (Term ADT Field Fun)) (x : Term ADT Field Fun) (xs : List (Term ADT Field Fun)) :
    opRevassoc f acc (x :: xs) = opRevassoc f (opRevassocTerm f acc x) xs := by rw [opRevassoc]

theorem opRevassocTerm_node (acc : List (Term ADT Field Fun)) (r : Repr ADT Field Fun) (ts : List (Term ADT Field Fun)) :
    opRevassocTerm f acc (.node r ts) = if r = .func f then opRevassoc f acc ts else .node r ts :: acc := by
  rw [opRevassocTerm]

theorem opRevassoc_acc_of {xs : List (Term ADT Field Fun)}
    (h : ∀ x ∈ xs, ∀ acc, opRevassocTerm f acc x = opRevassocTerm f [] x ++ acc) (acc : List (Term ADT Field Fun)) :
    opRevassoc f acc xs = opRevassoc f [] xs ++ acc := by
  induction xs generalizing acc with
  | nil => rfl
  | cons x xs ih =>
    have hxs := ih fun y hy => h y (by simp [hy])
    rw [opRevassoc_cons,opRevassoc_cons,h x (by simp) acc,hxs,hxs (opRevassocTerm f [] x),List.append_assoc]

theorem opRevassocTerm_acc (x : Term ADT Field Fun) (acc : List (Term ADT Field Fun)) :
    opRevassocTerm f acc x = opRevassocTerm f [] x ++ acc := by
  induction x using Rose.induct generalizing acc with
  | h r ts ih =>
    rw [opRevassocTerm_node,opRevassocTerm_node]
    split
    · exact opRevassoc_acc_of ih acc
    · rfl

theorem opRevassoc_nil_cons (x : Term ADT Field Fun) (xs : List (Term ADT Field Fun)) :
    opRevassoc f [] (x :: xs) = opRevassoc f [] xs ++ opRevassocTerm f [] x := by
  rw [opRevassoc_cons,opRevassoc_acc_of fun x _ => opRevassocTerm_acc x]

theorem mem_opRevassoc {xs : List (Term ADT Field Fun)} :
    (∀ ts, .node (.func f) ts ∉ opRevassoc f [] xs) ∧
      ∀ x ∈ xs, x.label ≠ .func f → x ∈ opRevassoc f [] xs := by
  have hlist : ∀ ys : List (Term ADT Field Fun), (∀ y ∈ ys, ∀ ts, .node (.func f) ts ∉ opRevassocTerm f [] y) →
      ∀ ts, .node (.func f) ts ∉ opRevassoc f [] ys := by
    intro ys hys ts
    induction ys with
    | nil => simp [opRevassoc]
    | cons y ys ih =>
      rw [opRevassoc_nil_cons,List.mem_append,not_or]
      exact ⟨ih fun z hz => hys z (by simp [hz]),hys y (by simp) ts⟩
  have hterm : ∀ y : Term ADT Field Fun, ∀ ts, .node (.func f) ts ∉ opRevassocTerm f [] y := by
    intro y
    induction y using Rose.induct with
    | h r us ih =>
      intro ts
      rw [opRevassocTerm_node]
      split
      · exact hlist us ih ts
      · next hr => simp [Ne.symm hr]
  refine ⟨hlist xs fun y _ => hterm y,fun x hx hlabel => ?_⟩
  induction xs with
  | nil => cases hx
  | cons y ys ih =>
    rw [opRevassoc_nil_cons,List.mem_append]
    rcases List.mem_cons.mp hx with rfl | hx
    · obtain ⟨r,ts⟩ := x
      rw [Rose.label_node] at hlabel
      rw [opRevassocTerm_node,if_neg hlabel]
      simp
    · exact Or.inl (ih hx)

end Flatten

variable {V : Type}

/-- The values interpret the operator as the fold of `star`, which has the declared properties. -/
structure Interprets (f : Fun) (op : Operator Fun) (val : Term ADT Field Fun → V) (star : V → V → V) : Prop where
  apply : ∀ t ts, val (.node (.func f) (t :: ts)) = (ts.map val).foldl star (val t)
  assoc : op.associative = true → ∀ a b c, star (star a b) c = star a (star b c)
  comm : op.commutative = true → ∀ a b, star a b = star b a
  idem : op.idempotent = true → ∀ a, star a a = a
  neutral : ∀ e, element op.neutral = some e → ∀ a, star (val e) a = a ∧ star a (val e) = a
  absorbant : ∀ z, element op.absorbant = some z → ∀ a, star (val z) a = val z ∧ star a (val z) = val z

/-- Neutral and absorbant elements are constants, for associative operators only. -/
structure Declared (op : Operator Fun) : Prop where
  neutral : isNone op.neutral = true ∨ op.associative = true
  absorbant : isNone op.absorbant = true ∨ op.associative = true
  neutral_constant : IsConstant op.neutral
  absorbant_constant : IsConstant op.absorbant

def Applied (f : Fun) (t : Term ADT Field Fun) : Prop := Rose.Nodes (fun r n => r = .func f → 0 < n) t

section Value
variable {f : Fun} {op : Operator Fun} {val : Term ADT Field Fun → V} {star : V → V → V}

theorem value_application (h : Interprets f op val star) {ts : List (Term ADT Field Fun)} (hts : ts ≠ []) :
    some (val (.node (.func f) ts)) = foldOne star (ts.map val) := by
  cases ts with
  | nil => exact absurd rfl hts
  | cons t ts => exact congrArg some (h.apply t ts)

theorem value_opRevassoc_of (h : Interprets f op val star) (hassoc : op.associative = true)
    {xs : List (Term ADT Field Fun)}
    (hxs : ∀ x ∈ xs, foldOne star ((opRevassocTerm f [] x).reverse.map val) = some (val x)) :
    foldOne star ((opRevassoc f [] xs).reverse.map val) = foldOne star (xs.map val) := by
  induction xs with
  | nil => rfl
  | cons x xs ih =>
    rw [opRevassoc_nil_cons,List.reverse_append,List.map_append,foldOne_append (h.assoc hassoc),hxs x (by simp),
      ih fun y hy => hxs y (by simp [hy]),List.map_cons,foldOne_cons (h.assoc hassoc)]

theorem value_opRevassocTerm (h : Interprets f op val star) (hassoc : op.associative = true) {x : Term ADT Field Fun}
    (hx : Applied f x) : foldOne star ((opRevassocTerm f [] x).reverse.map val) = some (val x) := by
  induction x using Rose.induct with
  | h r ts ih =>
    rw [opRevassocTerm_node]
    split
    · next hr =>
      subst hr
      have hts : ts ≠ [] := List.ne_nil_of_length_pos (Rose.Nodes.label hx rfl)
      rw [value_opRevassoc_of h hassoc fun t ht => ih t ht (Rose.Nodes.child hx ht),value_application h hts]
    · rfl

theorem value_opRevassoc (h : Interprets f op val star) (hassoc : op.associative = true)
    {xs : List (Term ADT Field Fun)} (hxs : ∀ x ∈ xs, Applied f x) :
    foldOne star ((opRevassoc f [] xs).reverse.map val) = foldOne star (xs.map val) :=
  value_opRevassoc_of h hassoc fun x hx => value_opRevassocTerm h hassoc (hxs x hx)

variable (B : Builtins ADT Field Fun)

theorem sortTerms_perm (xs : List (Term ADT Field Fun)) : (sortTerms B xs).Perm xs := List.mergeSort_perm xs _

/-- Where the arguments are not changed, or their order does not matter. -/
def Foldable (op : Operator Fun) (xs : List (Term ADT Field Fun)) : Prop :=
  op.associative = true ∨ xs.length = 2 ∨ op.commutative = false ∧ op.idempotent = false

theorem value_opArguments (h : Interprets f op val star) {xs : List (Term ADT Field Fun)}
    (hxs : ∀ x ∈ xs, Applied f x) (hfold : Foldable op xs) :
    foldOne star ((opArguments B f op xs).map val) = foldOne star (xs.map val) := by
  unfold opArguments
  split
  · next hassoc =>
    have hflat := value_opRevassoc h hassoc hxs
    split
    · next hcomm =>
      have hperm := ((sortTerms_perm B (opRevassoc f [] xs)).trans (List.reverse_perm _).symm).map val
      rw [foldOne_perm (h.assoc hassoc) (h.comm hcomm) hperm,hflat]
    · exact hflat
  next hassoc =>
  split
  · next hcomm =>
    rcases hfold with hfold | hfold | hfold
    · exact absurd hfold hassoc
    · obtain ⟨x,y,rfl⟩ := List.length_eq_two.mp hfold
      have hperm := sortTerms_perm B [x,y]
      obtain ⟨x',y',hsort⟩ := List.length_eq_two.mp hperm.length_eq
      rw [hsort] at hperm ⊢
      have hx' : x' ∈ [x,y] := hperm.subset (by simp)
      rcases List.mem_cons.mp hx' with rfl | hx'
      · have hy' : y' = y := by simpa using hperm.cons_inv
        rw [hy']
      · rw [List.mem_singleton] at hx'
        subst hx'
        have hy' : y' = x := by simpa using (hperm.trans (List.Perm.swap x' x [])).cons_inv
        rw [hy']
        exact congrArg some (h.comm hcomm _ _)
    · rw [hfold.1] at hcomm
      cases hcomm
  · rfl

theorem opIdempotent_subset {xs : List (Term ADT Field Fun)} : ∀ x ∈ opIdempotent xs, x ∈ xs := by
  fun_induction opIdempotent xs with
  | case1 => simp
  | case2 x => simp
  | case3 x w ih => exact fun y hy => List.mem_cons_of_mem _ (ih y hy)
  | case4 x y w hne ih =>
    intro z hz
    rcases List.mem_cons.mp hz with rfl | hz
    · simp
    · exact List.mem_cons_of_mem _ (ih z hz)

theorem value_opIdempotent (h : Interprets f op val star) (hidem : op.idempotent = true)
    {xs : List (Term ADT Field Fun)} (hfold : op.associative = true ∨ xs.length = 2) :
    foldOne star ((opIdempotent xs).map val) = foldOne star (xs.map val) := by
  rcases hfold with hassoc | htwo
  · fun_induction opIdempotent xs with
    | case1 => rfl
    | case2 x => rfl
    | case3 x w ih =>
      rw [ih,List.map_cons,List.map_cons,List.map_cons,foldOne_cons (h.assoc hassoc) _ (_ :: _),
        foldOne_cons (h.assoc hassoc),← joinOne_assoc (h.assoc hassoc)]
      simp only [joinOne,h.idem hidem]
    | case4 x y w hne ih =>
      rw [List.map_cons,List.map_cons,foldOne_cons (h.assoc hassoc),foldOne_cons (h.assoc hassoc),ih]
  · obtain ⟨x,y,rfl⟩ := List.length_eq_two.mp htwo
    rw [opIdempotent]
    split
    · next hxy =>
      subst hxy
      exact congrArg some (h.idem hidem (val x)).symm
    · rfl

theorem cBuiltinFun_eq (hbuiltin : B.builtinsFun f = none) {xs : List (Term ADT Field Fun)}
    (hxs : ∀ x ∈ xs, x.label ≠ .ite) (tau : Option (Tau ADT Field)) : cBuiltinFun B f xs tau = .node (.func f) xs := by
  have hfun : ∀ ys, builtinFun B tau f ys = .node (.func f) ys := by
    intro ys
    rw [builtinFun,hbuiltin]
  unfold cBuiltinFun distribute
  split
  · next c a b => exact absurd rfl (hxs (.node .ite [c,a,b]) (by simp))
  · next a b =>
    have ha := hxs a (by simp)
    have hb := hxs b (by simp)
    obtain ⟨r,us⟩ := a
    obtain ⟨s,vs⟩ := b
    rw [Rose.label_node] at ha hb
    unfold distributeIfOverOperation
    split
    · next heq _ => exact absurd (Rose.node.inj heq).1 ha
    · next heq _ => exact absurd (Rose.node.inj heq).1 ha
    · next heq _ => exact absurd (Rose.node.inj heq).1 hb
    · exact hfun _
  · exact hfun _

def opNonneutral (op : Operator Fun) (xs : List (Term ADT Field Fun)) : List (Term ADT Field Fun) :=
  if !isNone op.neutral then xs.filter (isnotElement op.neutral) else xs

/-- What is left after the neutral elements and the duplicates are dropped. -/
def opRest (op : Operator Fun) (xs : List (Term ADT Field Fun)) : List (Term ADT Field Fun) :=
  if op.idempotent then opIdempotent (opNonneutral op xs) else opNonneutral op xs

theorem opNonneutral_subset {xs : List (Term ADT Field Fun)} : ∀ x ∈ opNonneutral op xs, x ∈ xs := by
  intro x hx
  unfold opNonneutral at hx
  split at hx
  · exact List.mem_of_mem_filter hx
  · exact hx

theorem opRest_subset {xs : List (Term ADT Field Fun)} : ∀ x ∈ opRest op xs, x ∈ opNonneutral op xs := by
  intro x hx
  unfold opRest at hx
  split at hx
  · exact opIdempotent_subset x hx
  · exact hx

theorem not_isNone {e : Element Fun} {t : Term ADT Field Fun} (he : element e = some t) : (!isNone e) = true := by
  cases e with
  | none => simp [element] at he
  | _ => rfl

theorem opNonneutral_neutral {xs : List (Term ADT Field Fun)} {e : Term ADT Field Fun}
    (he : element op.neutral = some e) : e ∉ opNonneutral op xs := by
  rw [opNonneutral,if_pos (not_isNone he)]
  simp [isnotElement,(isElement_iff op.neutral e).mpr he]

theorem opArguments_subset_ne {xs : List (Term ADT Field Fun)} (hassoc : op.associative = true)
    (ts : List (Term ADT Field Fun)) : .node (.func f) ts ∉ opArguments B f op xs := by
  have hflat : .node (.func f) ts ∉ opRevassoc f [] xs := mem_opRevassoc.1 ts
  unfold opArguments
  rw [if_pos hassoc]
  dsimp only
  split
  · rwa [(sortTerms_perm B _).mem_iff]
  · rwa [List.mem_reverse]

theorem mem_opArguments {xs : List (Term ADT Field Fun)} {x : Term ADT Field Fun} (hx : x ∈ xs)
    (hlabel : x.label ≠ .func f) : x ∈ opArguments B f op xs := by
  have hflat := (mem_opRevassoc (f := f)).2 x hx hlabel
  unfold opArguments
  split
  · dsimp only
    split
    · rwa [(sortTerms_perm B _).mem_iff]
    · rwa [List.mem_reverse]
  split
  · rwa [(sortTerms_perm B _).mem_iff]
  · exact hx

theorem length_opArguments {xs : List (Term ADT Field Fun)} (hassoc : ¬op.associative = true) :
    (opArguments B f op xs).length = xs.length := by
  unfold opArguments
  rw [if_neg hassoc]
  split
  · exact (sortTerms_perm B xs).length_eq
  · rfl

theorem value_opNonneutral (h : Interprets f op val star) (hassoc : op.associative = true)
    (xs : List (Term ADT Field Fun)) :
    joinOne star ((element op.neutral).map val) (foldOne star ((opNonneutral op xs).map val)) =
      joinOne star ((element op.neutral).map val) (foldOne star (xs.map val)) := by
  unfold opNonneutral
  split
  swap
  · rfl
  cases he : (element op.neutral : Option (Term ADT Field Fun)) with
  | none =>
    -- an element without term matches no argument
    have hall : xs.filter (isnotElement op.neutral) = xs := by
      refine List.filter_eq_self.mpr fun x _ => ?_
      cases hx : isElement op.neutral x with
      | true =>
        rw [(isElement_iff op.neutral x).mp hx] at he
        cases he
      | false => simp [isnotElement,hx]
    rw [hall]
  | some e =>
    refine foldOne_filter (h.assoc hassoc) (h.neutral e he) xs fun x _ hx => ?_
    rw [isnotElement,Bool.not_eq_false',isElement_iff,he] at hx
    exact congrArg val (Option.some.inj hx).symm

theorem value_opRest (h : Interprets f op val star) (hdecl : Declared op) {xs : List (Term ADT Field Fun)}
    (hfold : op.associative = true ∨ xs.length = 2 ∨ op.idempotent = false) :
    joinOne star ((element op.neutral).map val) (foldOne star ((opRest op xs).map val)) =
      joinOne star ((element op.neutral).map val) (foldOne star (xs.map val)) := by
  by_cases hassoc : op.associative = true
  · unfold opRest
    split
    · next hidem => rw [value_opIdempotent h hidem (Or.inl hassoc),value_opNonneutral h hassoc]
    · exact value_opNonneutral h hassoc xs
  have hnone := hdecl.neutral.resolve_right hassoc
  have hall : opNonneutral op xs = xs := by
    unfold opNonneutral
    simp [hnone]
  rw [opRest,hall]
  split
  · next hidem =>
    rcases hfold with hfold | hfold | hfold
    · exact absurd hfold hassoc
    · rw [value_opIdempotent h hidem (Or.inr hfold)]
    · rw [hfold] at hidem
      cases hidem
  · rfl

theorem opFun_eq (xs : List (Term ADT Field Fun)) (tau : Option (Tau ADT Field)) :
    opFun B f op xs tau =
      if !isNone op.absorbant && (opArguments B f op xs).any (isElement op.absorbant) then element op.absorbant
      else
        match opRest op (opArguments B f op xs) with
        | [] => if !isNone op.neutral then element op.neutral else some (cBuiltinFun B f [] tau)
        | [x] => if op.associative then some x else some (cBuiltinFun B f [x] tau)
        | xs => some (cBuiltinFun B f xs tau) := rfl

theorem value_neutral (h : Interprets f op val star) (a : V) :
    joinOne star ((element op.neutral).map val) (some a) = some a := by
  cases he : (element op.neutral : Option (Term ADT Field Fun)) with
  | none => rfl
  | some e => exact congrArg some (h.neutral e he a).1

theorem opRest_value (h : Interprets f op val star) (hdecl : Declared op) {xs : List (Term ADT Field Fun)}
    (hne : xs ≠ []) (hfold : Foldable op xs) (happ : ∀ x ∈ xs, Applied f x) :
    joinOne star ((element op.neutral).map val) (foldOne star ((opRest op (opArguments B f op xs)).map val)) =
      foldOne star (xs.map val) := by
  have hargs := value_opArguments B h happ hfold
  have hrest : op.associative = true ∨ (opArguments B f op xs).length = 2 ∨ op.idempotent = false := by
    by_cases hassoc : op.associative = true
    · exact Or.inl hassoc
    · rcases hfold with hfold | hfold | hfold
      · exact absurd hfold hassoc
      · exact Or.inr (Or.inl ((length_opArguments B hassoc).trans hfold))
      · exact Or.inr (Or.inr hfold.2)
  rw [value_opRest h hdecl hrest,hargs]
  cases xs with
  | nil => exact absurd rfl hne
  | cons x xs => exact value_neutral h _

/-- The application has the value of the fold. It is the absorbing element if that is an argument, and no argument that
is left is the neutral element. -/
theorem eFun_value (hf : FunSymbol.category f = .operator op) (hbuiltin : B.builtinsFun f = none) (hdecl : Declared op)
    (h : Interprets f op val star) (tau : Option (Tau ADT Field)) {xs : List (Term ADT Field Fun)} (hlen : 2 ≤ xs.length)
    (hfold : Foldable op xs) (happ : ∀ x ∈ xs, Applied f x) (hcond : ∀ x ∈ opArguments B f op xs, x.label ≠ .ite) :
    ∃ t, eFun B tau f xs = some t ∧ some (val t) = foldOne star (xs.map val) ∧
      (∀ z ∈ xs, element op.absorbant = some z → t = z) ∧
      ∀ ys, t = .node (.func f) ys → ∀ e, element op.neutral = some e → e ∉ ys := by
  have hne : xs ≠ [] := List.ne_nil_of_length_pos (by omega)
  rw [eFun,eFungen,hf]
  simp only [opFun_eq]
  split
  · next habs =>
    rw [Bool.and_eq_true,List.any_eq_true] at habs
    obtain ⟨hsome,z,hz,hzel⟩ := habs
    have hzel := (isElement_iff op.absorbant z).mp hzel
    have hassoc : op.associative = true := hdecl.absorbant.resolve_left (by simpa using hsome)
    refine ⟨z,hzel,?_,fun z' _ hz' => Option.some.inj (hzel.symm.trans hz'),fun ys hys => ?_⟩
    · rw [← value_opArguments B h happ hfold]
      exact (foldOne_of_mem (h.assoc hassoc) (h.absorbant z hzel) (List.mem_map_of_mem hz)).symm
    · subst hys
      exact absurd hzel (element_ne hf hdecl.absorbant_constant ys)
  next habs =>
  have habsorbant : ∀ (t : Term ADT Field Fun), ∀ z ∈ xs, element op.absorbant = some z → t = z := by
    intro t z hz hzel
    have hlabel : z.label ≠ .func f := by
      intro hlabel
      obtain ⟨r,ts⟩ := z
      rw [Rose.label_node] at hlabel
      subst hlabel
      exact element_ne hf hdecl.absorbant_constant ts hzel
    refine absurd ?_ habs
    rw [Bool.and_eq_true,List.any_eq_true]
    exact ⟨not_isNone hzel,z,mem_opArguments B hz hlabel,(isElement_iff op.absorbant z).mpr hzel⟩
  have hvalue := opRest_value B h hdecl hne hfold happ
  have hsub : ∀ x ∈ opRest op (opArguments B f op xs), x ∈ opArguments B f op xs := fun x hx =>
    opNonneutral_subset x (opRest_subset x hx)
  have hneutral : ∀ e, element op.neutral = some e → e ∉ opRest op (opArguments B f op xs) := fun e he hmem =>
    opNonneutral_neutral he (opRest_subset e hmem)
  have hbuild : opRest op (opArguments B f op xs) ≠ [] → ∃ t,
      some (cBuiltinFun B f (opRest op (opArguments B f op xs)) tau) = some t ∧
        some (val t) = foldOne star (xs.map val) ∧
        (∀ z ∈ xs, element op.absorbant = some z → t = z) ∧
        ∀ ys, t = .node (.func f) ys → ∀ e, element op.neutral = some e → e ∉ ys := by
    intro hrest
    refine ⟨_,congrArg some (cBuiltinFun_eq B hbuiltin (fun x hx => hcond x (hsub x hx)) tau),?_,habsorbant _,?_⟩
    · rw [value_application h hrest,← hvalue]
      cases hr : opRest op (opArguments B f op xs) with
      | nil => exact absurd hr hrest
      | cons y ys => exact (value_neutral h _).symm
    · intro ys hys e he
      rw [← (Rose.node.inj hys).2]
      exact hneutral e he
  cases hr : opRest op (opArguments B f op xs) with
  | nil =>
    rw [hr,List.map_nil,foldOne,joinOne_none_right] at hvalue
    obtain ⟨a,ha⟩ : ∃ a, foldOne star (xs.map val) = some a := by
      cases xs with
      | nil => exact absurd rfl hne
      | cons x xs => exact ⟨_,rfl⟩
    rw [ha,Option.map_eq_some_iff] at hvalue
    obtain ⟨e,he,hea⟩ := hvalue
    refine ⟨e,?_,?_,habsorbant e,fun ys hys => ?_⟩
    · simpa only [not_isNone he,if_true] using he
    · rw [ha,hea]
    · subst hys
      exact absurd he (element_ne hf hdecl.neutral_constant ys)
  | cons x rest =>
    cases rest with
    | nil =>
      dsimp only
      split
      · next hassoc =>
        rw [hr,List.map_cons,List.map_nil,foldOne_singleton,value_neutral h] at hvalue
        refine ⟨x,rfl,hvalue,habsorbant x,fun ys hys => ?_⟩
        subst hys
        exact absurd (hsub _ (by rw [hr]; simp)) (opArguments_subset_ne B hassoc ys)
      · rw [hr] at hbuild
        exact hbuild (by simp)
    | cons y rest =>
      rw [hr] at hbuild
      exact hbuild (by simp)

end Value

section Samples

inductive SampleFun
  | distance
  | maximum
  | product
  deriving DecidableEq, Ord

def sampleFlags : SampleFun → Operator SampleFun
  | .distance => ⟨false,false,true,false,.none,.none⟩
  | .maximum => ⟨false,true,true,true,.none,.none⟩
  | .product => ⟨false,true,true,false,.int 1,.int 0⟩

local instance sampleFieldSymbol : FieldSymbol ℕ := { instOrdNat with sort := fun _ => .int }
local instance sampleFunSymbol : FunSymbol SampleFun :=
  { (inferInstance : Ord SampleFun) with category := fun f => .operator (sampleFlags f), sort := fun _ => .int }

def sampleStar : SampleFun → ℤ → ℤ → ℤ
  | .distance => fun a b => |a - b|
  | .maximum => max
  | .product => fun a b => a * b

def sampleVal : Term ℕ ℕ SampleFun → ℤ := Rose.fold fun r vs =>
  match r, vs with
  | .kint z, _ => z
  | .func f, v :: vs => vs.foldl (sampleStar f) v
  | _, _ => 0

def sampleBuiltins : Builtins ℕ ℕ SampleFun where
  not t := t
  ite _ a _ := a
  func f ts := .node (.func f) ts
  builtinsFun _ := none
  tau _ := none

def sampleInt (z : ℤ) : Term ℕ ℕ SampleFun := .node (.kint z) []

theorem sample_interprets : ∀ f, Interprets f (sampleFlags f) sampleVal (sampleStar f) := by
  have happly : ∀ (f : SampleFun) (t : Term ℕ ℕ SampleFun) (ts : List (Term ℕ ℕ SampleFun)),
      sampleVal (.node (.func f) (t :: ts)) = (ts.map sampleVal).foldl (sampleStar f) (sampleVal t) := by
    intro f t ts
    simp only [sampleVal,Rose.fold_node,List.map_cons]
  intro f
  cases f with
  | distance =>
    refine ⟨happly _,fun h => absurd h (by decide),fun _ a b => abs_sub_comm a b,fun h => absurd h (by decide),?_,?_⟩
    · simp [sampleFlags,element]
    · simp [sampleFlags,element]
  | maximum =>
    refine ⟨happly _,fun _ => max_assoc,fun _ => max_comm,fun _ => max_self,?_,?_⟩
    · simp [sampleFlags,element]
    · simp [sampleFlags,element]
  | product =>
    refine ⟨happly _,fun _ => mul_assoc,fun _ => mul_comm,fun h => absurd h (by decide),?_,?_⟩
    · simp [sampleFlags,element,sampleStar,sampleVal,Rose.fold_node]
    · simp [sampleFlags,element,sampleStar,sampleVal,Rose.fold_node]

theorem sample_declared (f : SampleFun) : Declared (sampleFlags f) := by
  cases f <;> exact ⟨by decide,by decide,trivial,trivial⟩

theorem sample_sorted : sortTerms sampleBuiltins [sampleInt 4,sampleInt 2,sampleInt 1] =
    [sampleInt 1,sampleInt 2,sampleInt 4] := by
  have h42 : (compare sampleBuiltins.tau sampleBuiltins.not (sampleInt 4) (sampleInt 2)).isLE = false := by decide
  have h21 : (compare sampleBuiltins.tau sampleBuiltins.not (sampleInt 2) (sampleInt 1)).isLE = false := by decide
  simp [sortTerms,List.mergeSort,List.MergeSort.Internal.splitInTwo,h42,h21]

def sampleProduct : Term ℕ ℕ SampleFun := .node (.func .product) [sampleInt 3,sampleInt 1]

theorem eFun_value_product : ∃ t, eFun sampleBuiltins none .product [sampleProduct,sampleInt 2] = some t ∧
    some (sampleVal t) = foldOne (sampleStar .product) ([sampleProduct,sampleInt 2].map sampleVal) ∧
    (∀ z ∈ [sampleProduct,sampleInt 2], element (sampleFlags .product).absorbant = some z → t = z) ∧
    ∀ ys, t = .node (.func .product) ys → ∀ e, element (sampleFlags .product).neutral = some e → e ∉ ys := by
  have hint : ∀ z, Applied .product (sampleInt z) := fun z => .node (by simp) (by simp)
  refine eFun_value sampleBuiltins rfl rfl (sample_declared .product) (sample_interprets .product) none (by decide)
    (Or.inl rfl) ?_ ?_
  · have hproduct : Applied .product sampleProduct :=
      .node (by simp) (List.forall_mem_cons.mpr ⟨hint 3,List.forall_mem_singleton.mpr (hint 1)⟩)
    exact List.forall_mem_cons.mpr ⟨hproduct,List.forall_mem_singleton.mpr (hint 2)⟩
  · intro x hx
    have hx : x = sampleInt 2 ∨ x = sampleInt 1 ∨ x = sampleInt 3 := by
      simpa [opArguments,sampleFlags,opRevassoc,opRevassocTerm,sampleInt,sampleProduct,
        (sortTerms_perm sampleBuiltins _).mem_iff] using hx
    rcases hx with rfl | rfl | rfl <;> simp [sampleInt]

/-- Sorting the arguments of an operator that is not associative, or dropping an application without arguments, changes
the value. -/
theorem eFun_value_wrong : (∀ f, Interprets f (sampleFlags f) sampleVal (sampleStar f)) ∧
    (∀ f, Declared (sampleFlags f)) ∧ ∃ t u : Term ℕ ℕ SampleFun,
    eFun sampleBuiltins none .distance [sampleInt 4,sampleInt 2,sampleInt 1] = some t ∧
      some (sampleVal t) ≠ foldOne (sampleStar .distance) ([sampleInt 4,sampleInt 2,sampleInt 1].map sampleVal) ∧
      eFun sampleBuiltins none .maximum [.node (.func .maximum) [],sampleInt (-1)] = some u ∧
      some (sampleVal u) ≠
        foldOne (sampleStar .maximum) ([.node (.func .maximum) [],sampleInt (-1)].map sampleVal) := by
  refine ⟨sample_interprets,sample_declared,.node (.func .distance) [sampleInt 1,sampleInt 2,sampleInt 4],
    sampleInt (-1),?_,?_,?_,?_⟩
  · have harguments : opArguments sampleBuiltins .distance (sampleFlags .distance)
        [sampleInt 4,sampleInt 2,sampleInt 1] = [sampleInt 1,sampleInt 2,sampleInt 4] := sample_sorted
    show opFun sampleBuiltins .distance (sampleFlags .distance) [sampleInt 4,sampleInt 2,sampleInt 1] none = _
    rw [opFun_eq,harguments]
    decide
  · decide
  · have harguments : opArguments sampleBuiltins .maximum (sampleFlags .maximum)
        [.node (.func .maximum) [],sampleInt (-1)] = [sampleInt (-1)] := by
      simp [opArguments,sampleFlags,opRevassoc,opRevassocTerm,sampleInt,sortTerms]
    show opFun sampleBuiltins .maximum (sampleFlags .maximum) [.node (.func .maximum) [],sampleInt (-1)] none = _
    rw [opFun_eq,harguments]
    decide
  · decide

end Samples
end FramaC.Qed
