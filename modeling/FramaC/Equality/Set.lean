import FramaC.Lib.Classes
import FramaC.EqualityDomain.State

/-! # Sets of equalities

`Set` of `equality.ml`: a map from each term to the equality it belongs to and, for an lvalue, to the terms that read it
and to those that contain its address. The hash-consed terms enter by what the code asks of them; `elements` is the order
in which a set is enumerated and `shape` the tree along which the keys common to two maps are visited.
-/
namespace FramaC.Equality

set_option linter.unusedSectionVars false

open EqualityDomain

structure Lvalues (E : Type) where
  read : Finset E
  addr : Finset E

def emptyLvalues {E : Type} : Lvalues E := ⟨∅,∅⟩

/-- The trees along which two maps are visited together. -/
inductive Shape (E : Type)
  | empty
  | leaf (key : E)
  | node (left right : Shape E)

def Shape.keys {E : Type} : Shape E → List E
  | empty => []
  | leaf key => [key]
  | node left right => left.keys ++ right.keys

structure Terms (E : Type) where
  isLval : E → Bool
  syntacticLvalues : E → Lvalues E
  /-- `none` where the replacement raises `NonExchangeable`. -/
  replace : KillType → E → E → E → Option E
  heightExpr : E → ℕ
  elements : Finset E → List E
  mem_elements : ∀ s e, e ∈ elements s ↔ e ∈ s
  nodup_elements : ∀ s, (elements s).Nodup
  shape : Finset E → Finset E → Shape E
  mem_shape : ∀ s t e, e ∈ (shape s t).keys ↔ e ∈ s ∧ e ∈ t

structure Data (E : Type) where
  equality : Finset E
  deps : Finset E
  addrDeps : Finset E

structure Map (E : Type) where
  find : E → Option (Data E)
  dom : Finset E
  mem_dom : ∀ e, e ∈ dom ↔ (find e).isSome = true

variable {E : Type} [DecidableEq E]

namespace Data

def inter (l r : Data E) : Option (Data E) :=
  if 1 < (l.equality ∩ r.equality).card then
    some ⟨l.equality ∩ r.equality,l.deps ∩ r.deps,l.addrDeps ∩ r.addrDeps⟩
  else if l.deps ∩ r.deps = ∅ ∧ l.addrDeps ∩ r.addrDeps = ∅ then none
  else some ⟨∅,l.deps ∩ r.deps,l.addrDeps ∩ r.addrDeps⟩

def union (l r : Data E) : Data E :=
  ⟨l.equality ∪ r.equality,l.deps ∪ r.deps,l.addrDeps ∪ r.addrDeps⟩

end Data

namespace Map

def empty : Map E := ⟨fun _ => none,∅,by simp⟩

def bind (m : Map E) (e : E) (v : Option (Data E)) : Map E where
  find := Function.update m.find e v
  dom := if v.isSome = true then insert e m.dom else m.dom.erase e
  mem_dom x := by
    by_cases hx : x = e
    · subst hx
      rw [Function.update_self]
      split <;> simp [*]
    · rw [Function.update_of_ne hx]
      split <;> simp [hx,m.mem_dom]

def replace (f : Option (Data E) → Option (Data E)) (e : E) (m : Map E) : Map E := m.bind e (f (m.find e))

def remove (e : E) (m : Map E) : Map E := m.bind e none

def findOption (m : Map E) (e : E) : Finset E := (m.find e).elim ∅ Data.equality

theorem find_bind (m : Map E) (e : E) (v : Option (Data E)) (x : E) :
    (m.bind e v).find x = if x = e then v else m.find x := by
  simp only [bind,Function.update_apply]

theorem findOption_bind (m : Map E) (e : E) (v : Option (Data E)) (x : E) :
    (m.bind e v).findOption x = if x = e then v.elim ∅ Data.equality else m.findOption x := by
  unfold findOption
  rw [find_bind]
  split <;> rfl

theorem find_isSome_of_mem {m : Map E} {x y : E} (h : y ∈ m.findOption x) : (m.find x).isSome = true := by
  unfold findOption at h
  cases hx : m.find x with
  | none =>
    rw [hx] at h
    cases h
  | some d => rfl

end Map

variable (T : Terms E)

def addRead (term : E) : Option (Data E) → Option (Data E)
  | none => some ⟨∅,{term},∅⟩
  | some d => some ⟨d.equality,insert term d.deps,d.addrDeps⟩

def addAddr (term : E) : Option (Data E) → Option (Data E)
  | none => some ⟨∅,∅,{term}⟩
  | some d => some ⟨d.equality,d.deps,insert term d.addrDeps⟩

def register (lvalues : Lvalues E) (term : E) (map : Map E) : Map E :=
  let map := (T.elements lvalues.read).foldl (fun map lv => map.replace (addRead term) lv) map
  (T.elements lvalues.addr).foldl (fun map lv => map.replace (addAddr term) lv) map

def update (equality : Finset E) : Option (Data E) → Option (Data E)
  | some d => some ⟨equality,d.deps,d.addrDeps⟩
  | none => some ⟨equality,∅,∅⟩

def updateEquality (equality : Finset E) (map : Map E) : Map E :=
  (T.elements equality).foldl (fun map e => map.replace (update equality) e) map

/-- One term of the new pair: its equality joins the closure, a term without one is registered. -/
def uniteTerm (a : E) (aLvalues : Lvalues E) (b : E) (bLvalues : Lvalues E) (acc : Finset E × Map E) (elt : E) :
    Finset E × Map E :=
  if acc.2.findOption elt = ∅ then
    (acc.1,if elt = a then register T aLvalues a acc.2 else register T bLvalues b acc.2)
  else (acc.2.findOption elt ∪ acc.1,acc.2)

def unite (a : E) (aLvalues : Lvalues E) (b : E) (bLvalues : Lvalues E) (map : Map E) : Map E :=
  if a = b then map
  else
    let acc := (T.elements {a,b}).foldl (uniteTerm T a aLvalues b bLvalues) ({a,b},map)
    updateEquality T acc.1 acc.2

/-- The new binding of a member of the equality; an lvalue related to other terms is kept. -/
def rebind (equality : Finset E) (key : E) (d : Data E) : Option (Data E) :=
  if equality.card ≤ 1 then
    if T.isLval key ∧ ¬ (d.deps = ∅ ∧ d.addrDeps = ∅) then some ⟨∅,d.deps,d.addrDeps⟩ else none
  else some ⟨equality,d.deps,d.addrDeps⟩

def replaceByEquality (equality : Finset E) (map : Map E) : Option (Map E) :=
  (T.elements equality).foldlM (fun map key => (map.find key).map fun d => map.bind key (rebind T equality key d)) map

def removeFromEqualities (elt : E) (map : Map E) : Option (Map E) :=
  if map.findOption elt = ∅ then some map
  else (replaceByEquality T ((map.findOption elt).erase elt) map).map fun map => map.remove elt

def replaceInElement (kind : KillType) (elt late heir : E) (map : Map E) : Option (Map E) :=
  if (map.find elt).isSome = true then
    match T.replace kind late heir elt with
    | none => removeFromEqualities T elt map
    | some newElt =>
      let newLvalues := if T.isLval newElt then emptyLvalues else T.syntacticLvalues newElt
      let map := unite T elt emptyLvalues newElt newLvalues map
      replaceByEquality T ((map.findOption elt).erase elt) (map.remove elt)
  else some map

def pickRepresentative (set : Finset E) (default : E) : E :=
  let head := (T.elements set).headD default
  (T.elements (set.erase head)).foldl
    (fun current elt => if T.heightExpr elt < T.heightExpr current then elt else current) head

def remove (kind : KillType) (elt : E) (map : Map E) : Option (Map E) :=
  match map.find elt with
  | none => some map
  | some d =>
    (if kind = .deleted then (T.elements d.addrDeps).foldlM (fun map e => removeFromEqualities T e map) map
      else some map).bind fun map =>
    (replaceByEquality T (d.equality.erase elt) map).bind fun map =>
      let map := map.remove elt
      let equality := d.equality.erase elt \ d.deps
      if equality = ∅ then (T.elements d.deps).foldlM (fun map e => removeFromEqualities T e map) map
      else
        let rep := pickRepresentative T equality elt
        (T.elements d.deps).foldlM (fun map e => replaceInElement T kind e elt rep map) map

def naiveUnion (a b : Map E) : Map E where
  find e := Option.merge Data.union (a.find e) (b.find e)
  dom := a.dom ∪ b.dom
  mem_dom e := by
    rw [Finset.mem_union,a.mem_dom,b.mem_dom]
    cases a.find e <;> cases b.find e <;> simp [Option.merge]

/-- The join of the two equalities of a key, when these are not empty and differ. -/
def both (a b : Map E) (key : E) : Map E :=
  if a.findOption key = ∅ ∨ b.findOption key = ∅ ∨ a.findOption key = b.findOption key then Map.empty
  else Map.empty.bind key (some ⟨a.findOption key ∪ b.findOption key,∅,∅⟩)

def process (set : Map E) (acc : List E × Finset E) (elt : E) : List E × Finset E :=
  if set.findOption elt = ∅ then acc else (elt :: acc.1,acc.2 ∪ set.findOption elt)

def add (key : E) (equality : Finset E) (set : Map E) : Map E :=
  let acc := (T.elements equality).foldl (process set) ([key],equality)
  acc.1.foldl (fun map k => map.bind k (some ⟨acc.2,∅,∅⟩)) set

def join (set set' : Map E) : Map E :=
  (T.elements set'.dom).foldl (fun acc elt => add T elt (set'.findOption elt) acc) set

def closureAlong (a b : Map E) : Shape E → Map E
  | .empty => Map.empty
  | .leaf key => both a b key
  | .node left right => join T (closureAlong a b left) (closureAlong a b right)

def transitiveClosure (a b : Map E) : Map E := closureAlong T a b (T.shape a.dom b.dom)

def updateMissing (missing : Map E) (acc : Map E × Finset E) (key : E) : Map E × Finset E :=
  if key ∈ acc.2 then acc
  else (updateEquality T (missing.findOption key) acc.1,missing.findOption key ∪ acc.2)

def union (a b : Map E) : Map E :=
  let missing := transitiveClosure T a b
  ((T.elements missing.dom).foldl (updateMissing T missing) (naiveUnion a b,∅)).1

def inter (a b : Map E) : Map E where
  find e := (a.find e).bind fun l => (b.find e).bind fun r => l.inter r
  dom := (a.dom ∩ b.dom).filter fun e => ((a.find e).bind fun l => (b.find e).bind fun r => l.inter r).isSome = true
  mem_dom e := by
    rw [Finset.mem_filter,and_iff_right_iff_imp,Finset.mem_inter,a.mem_dom,b.mem_dom]
    intro h
    cases ha : a.find e with
    | none => simp [ha] at h
    | some l =>
      cases hb : b.find e with
      | none => simp [ha,hb] at h
      | some r => exact ⟨rfl,rfl⟩

end FramaC.Equality

/-! ## Unions of two terms and removals

The equalities after `unite` and after `remove`, as operations on classes. A removal rebinds the members of the equality
it has read first, so it succeeds as long as none of them has left the map since.
-/
namespace FramaC.Equality

set_option linter.unusedSectionVars false

open EqualityDomain Classes

variable {E : Type} [DecidableEq E] (T : Terms E)

theorem findOption_foldl_replace (f : Option (Data E) → Option (Data E))
    (hf : ∀ v, (f v).elim ∅ Data.equality = v.elim ∅ Data.equality) (l : List E) (m : Map E) :
    (l.foldl (fun m e => m.replace f e) m).findOption = m.findOption := by
  induction l generalizing m with
  | nil => rfl
  | cons e l ih =>
    rw [List.foldl_cons,ih]
    funext x
    unfold Map.replace
    rw [Map.findOption_bind]
    split
    · rename_i hx
      subst hx
      exact hf _
    · rfl

theorem findOption_register (lvalues : Lvalues E) (term : E) (m : Map E) :
    (register T lvalues term m).findOption = m.findOption := by
  unfold register
  rw [findOption_foldl_replace,findOption_foldl_replace]
  · rintro (_ | d) <;> rfl
  · rintro (_ | d) <;> rfl

theorem findOption_foldl_update (equality : Finset E) (l : List E) (m : Map E) (x : E) :
    (l.foldl (fun m e => m.replace (update equality) e) m).findOption x =
      if x ∈ l then equality else m.findOption x := by
  induction l generalizing m with
  | nil => rfl
  | cons e l ih =>
    rw [List.foldl_cons,ih]
    by_cases hl : x ∈ l
    · simp [hl]
    · rw [if_neg hl]
      unfold Map.replace
      rw [Map.findOption_bind]
      have hupdate : (update equality (m.find e)).elim ∅ Data.equality = equality := by
        cases m.find e <;> rfl
      rw [hupdate]
      simp [hl]

theorem findOption_updateEquality (equality : Finset E) (m : Map E) (x : E) :
    (updateEquality T equality m).findOption x = if x ∈ equality then equality else m.findOption x := by
  unfold updateEquality
  rw [findOption_foldl_update]
  simp only [T.mem_elements]

theorem foldl_uniteTerm (a : E) (la : Lvalues E) (b : E) (lb : Lvalues E) (l : List E) (acc : Finset E × Map E) :
    (l.foldl (uniteTerm T a la b lb) acc).2.findOption = acc.2.findOption ∧
    ∀ x, x ∈ (l.foldl (uniteTerm T a la b lb) acc).1 ↔ x ∈ acc.1 ∨ ∃ e ∈ l, x ∈ acc.2.findOption e := by
  induction l generalizing acc with
  | nil => simp
  | cons e l ih =>
    rw [List.foldl_cons]
    obtain ⟨ih2,ih1⟩ := ih (uniteTerm T a la b lb acc e)
    have hstep : (uniteTerm T a la b lb acc e).2.findOption = acc.2.findOption ∧
        ∀ x, x ∈ (uniteTerm T a la b lb acc e).1 ↔ x ∈ acc.1 ∨ x ∈ acc.2.findOption e := by
      unfold uniteTerm
      split
      · rename_i hempty
        constructor
        · split
          · exact findOption_register T la a acc.2
          · exact findOption_register T lb b acc.2
        · intro x
          simp [hempty]
      · constructor
        · rfl
        · intro x
          rw [Finset.mem_union,or_comm]
    constructor
    · rw [ih2,hstep.1]
    · intro x
      rw [ih1,hstep.2,hstep.1,or_assoc]
      simp

theorem findOption_unite {a b : E} (hab : a ≠ b) (la lb : Lvalues E) (m : Map E) :
    (unite T a la b lb m).findOption = merge m.findOption a b := by
  unfold unite
  rw [if_neg hab]
  obtain ⟨h2,h1⟩ := foldl_uniteTerm T a la b lb (T.elements {a,b}) ({a,b},m)
  have hset : ((T.elements {a,b}).foldl (uniteTerm T a la b lb) ({a,b},m)).1 =
      {a,b} ∪ m.findOption a ∪ m.findOption b := by
    ext x
    rw [h1]
    simp [T.mem_elements,or_assoc]
  funext x
  simp only [findOption_updateEquality,hset,h2]
  rfl

theorem unite_partition {m : Map E} (h : Partition m.findOption) (a : E) (la : Lvalues E) (b : E) (lb : Lvalues E) :
    Partition (unite T a la b lb m).findOption := by
  by_cases hab : a = b
  · unfold unite
    rw [if_pos hab]
    exact h
  · rw [findOption_unite T hab]
    exact h.merge hab

theorem foldlM_rebind (equality : Finset E) (l : List E) (hl : l.Nodup) (m : Map E)
    (hb : ∀ k ∈ l, (m.find k).isSome = true) :
    ∃ m', l.foldlM (fun m key => (m.find key).map fun d => m.bind key (rebind T equality key d)) m = some m' ∧
      ∀ x, m'.findOption x = if x ∈ l then proper equality else m.findOption x := by
  induction l generalizing m with
  | nil => exact ⟨m,rfl,fun x => rfl⟩
  | cons e l ih =>
    obtain ⟨hel,hl⟩ := List.nodup_cons.1 hl
    obtain ⟨d,hd⟩ := Option.isSome_iff_exists.1 (hb e List.mem_cons_self)
    have hb' : ∀ k ∈ l, ((m.bind e (rebind T equality e d)).find k).isSome = true := by
      intro k hk
      have hke : k ≠ e := by
        rintro rfl
        exact hel hk
      rw [Map.find_bind,if_neg hke]
      exact hb k (List.mem_cons_of_mem e hk)
    obtain ⟨m',hm',hfind⟩ := ih hl (m.bind e (rebind T equality e d)) hb'
    refine ⟨m',?_,?_⟩
    · rw [List.foldlM_cons,hd]
      exact hm'
    · intro x
      have hrebind : (rebind T equality e d).elim ∅ Data.equality = proper equality := by
        unfold rebind proper
        split
        · split <;> rfl
        · rfl
      rw [hfind,Map.findOption_bind,hrebind]
      by_cases hxl : x ∈ l
      · simp [hxl]
      · simp [hxl]

theorem replaceByEquality_spec (equality : Finset E) (m : Map E) (hb : ∀ k ∈ equality, (m.find k).isSome = true) :
    ∃ m', replaceByEquality T equality m = some m' ∧
      ∀ x, m'.findOption x = if x ∈ equality then proper equality else m.findOption x := by
  obtain ⟨m',hm',hfind⟩ := foldlM_rebind T equality (T.elements equality) (T.nodup_elements equality) m
    (fun k hk => hb k ((T.mem_elements _ _).1 hk))
  refine ⟨m',hm',?_⟩
  intro x
  rw [hfind]
  simp only [T.mem_elements]

theorem Map.findOption_remove (m : Map E) (e x : E) :
    (m.remove e).findOption x = if x = e then ∅ else m.findOption x := Map.findOption_bind m e none x

theorem find_isSome_of_mem_class {m : Map E} (h : Partition m.findOption) {x y : E} (hy : y ∈ m.findOption x) :
    (m.find y).isSome = true := Map.find_isSome_of_mem (h.mem_comm hy)

theorem rebind_spec {m : Map E} (h : Partition m.findOption) (e : E) :
    ∃ m', replaceByEquality T ((m.findOption e).erase e) m = some m' ∧
      (m'.remove e).findOption = shrink m.findOption e := by
  obtain ⟨m',hm',hfind⟩ := replaceByEquality_spec T ((m.findOption e).erase e) m
    (fun k hk => find_isSome_of_mem_class h (Finset.mem_of_mem_erase hk))
  refine ⟨m',hm',?_⟩
  funext x
  rw [Map.findOption_remove,hfind]
  unfold shrink
  by_cases hxe : x = e
  · simp [hxe]
  · simp [hxe]

theorem removeFromEqualities_spec {m : Map E} (h : Partition m.findOption) (e : E) :
    ∃ m', removeFromEqualities T e m = some m' ∧ m'.findOption = shrink m.findOption e := by
  unfold removeFromEqualities
  by_cases hempty : m.findOption e = ∅
  · rw [if_pos hempty]
    refine ⟨m,rfl,?_⟩
    funext x
    by_cases hxe : x = e
    · rw [hxe,shrink_self,hempty]
    · rw [shrink_of_notMem hxe (by simp [hempty])]
  · rw [if_neg hempty]
    obtain ⟨m',hm',hfind⟩ := rebind_spec T h e
    rw [hm']
    exact ⟨m'.remove e,rfl,hfind⟩

theorem foldlM_removeFromEqualities (l : List E) {m : Map E} (h : Partition m.findOption) :
    ∃ m', l.foldlM (fun m e => removeFromEqualities T e m) m = some m' ∧ Partition m'.findOption ∧
      ∀ x, (∀ e ∈ l, e ∉ m.findOption x) → m'.findOption x = m.findOption x := by
  refine Outcome.foldlM_returns ⟨h,fun _ _ => rfl⟩ ?_
  rintro m1 e he ⟨h1,hkeep⟩
  obtain ⟨m2,hm2,hfind⟩ := removeFromEqualities_spec T h1 e
  refine ⟨m2,hm2,?_,?_⟩
  · rw [hfind]
    exact h1.shrink e
  · intro x hx
    have hm1x := hkeep x hx
    rw [hfind,h1.shrink_of_notMem (by rw [hm1x]; exact hx e he),hm1x]

theorem replaceInElement_spec (kind : KillType) (e late heir : E) {m : Map E} (h : Partition m.findOption) :
    ∃ m', replaceInElement T kind e late heir m = some m' ∧ Partition m'.findOption := by
  unfold replaceInElement
  split
  · cases T.replace kind late heir e with
    | none =>
      obtain ⟨m',hm',hfind⟩ := removeFromEqualities_spec T h e
      refine ⟨m',hm',?_⟩
      rw [hfind]
      exact h.shrink e
    | some newElt =>
      simp only
      generalize (if T.isLval newElt = true then emptyLvalues else T.syntacticLvalues newElt) = newLvalues
      have hu := unite_partition T h e emptyLvalues newElt newLvalues
      generalize unite T e emptyLvalues newElt newLvalues m = m1 at hu
      obtain ⟨m',hm',hfind⟩ := replaceByEquality_spec T ((m1.findOption e).erase e) (m1.remove e) (by
        intro k hk
        obtain ⟨hke,hk⟩ := Finset.mem_erase.1 hk
        unfold Map.remove
        rw [Map.find_bind,if_neg hke]
        exact find_isSome_of_mem_class hu hk)
      refine ⟨m',hm',?_⟩
      have heq : m'.findOption = shrink m1.findOption e := by
        funext x
        rw [hfind,Map.findOption_remove]
        unfold shrink
        by_cases hxe : x = e
        · simp [hxe]
        · simp [hxe]
      rw [heq]
      exact hu.shrink e
  · exact ⟨m,rfl,h⟩

theorem foldlM_replaceInElement (kind : KillType) (late heir : E) (l : List E) {m : Map E}
    (h : Partition m.findOption) :
    ∃ m', l.foldlM (fun m e => replaceInElement T kind e late heir m) m = some m' ∧ Partition m'.findOption :=
  Outcome.foldlM_returns h fun _ e _ h1 => replaceInElement_spec T kind e late heir h1

/-- No term of the equality of the lvalue contains its address, when the lvalue goes out of scope. -/
def Apart (kind : KillType) (elt : E) (m : Map E) : Prop :=
  kind = .deleted → ∀ d, m.find elt = some d → ∀ e ∈ d.addrDeps, e ∉ d.equality

theorem remove_spec {kind : KillType} {elt : E} {m : Map E} (h : Partition m.findOption) (ha : Apart kind elt m) :
    ∃ m', remove T kind elt m = some m' ∧ Partition m'.findOption := by
  unfold remove
  cases hd : m.find elt with
  | none => exact ⟨m,rfl,h⟩
  | some d =>
    have hdeq : m.findOption elt = d.equality := by
      unfold Map.findOption
      rw [hd]
      rfl
    have hfirst : ∃ m1, (if kind = .deleted then
        (T.elements d.addrDeps).foldlM (fun m e => removeFromEqualities T e m) m else some m) = some m1 ∧
        Partition m1.findOption ∧ m1.findOption elt = d.equality := by
      by_cases hk : kind = .deleted
      · rw [if_pos hk]
        obtain ⟨m1,hm1,hpart,hkeep⟩ := foldlM_removeFromEqualities T (T.elements d.addrDeps) h
        refine ⟨m1,hm1,hpart,?_⟩
        rw [hkeep elt (fun e he => by rw [hdeq]; exact ha hk d hd e ((T.mem_elements _ _).1 he)),hdeq]
      · rw [if_neg hk]
        exact ⟨m,rfl,h,hdeq⟩
    obtain ⟨m1,hm1,hpart1,heq1⟩ := hfirst
    obtain ⟨m2,hm2,hfind2⟩ := rebind_spec T hpart1 elt
    rw [heq1] at hm2
    have hpart2 : Partition (m2.remove elt).findOption := by
      rw [hfind2]
      exact hpart1.shrink elt
    simp only [hm1,Option.bind_some,hm2]
    split
    · obtain ⟨m',hm',hpart,_⟩ := foldlM_removeFromEqualities T (T.elements d.deps) hpart2
      exact ⟨m',hm',hpart⟩
    · exact foldlM_replaceInElement T kind elt _ (T.elements d.deps) hpart2

end FramaC.Equality
