import FramaC.Hptmap.PredicateRuns
import FramaC.IntIntervals.Algebra

/-! # Folds over the intervals of a set

`fold_join_itvs` descends an offsetmap and a set of intervals at once, and calls a function on their
common intervals. The calls do not depend on the results: they are those of the fold into lists.
-/
namespace FramaC.Offsetmap
open BinaryCache Memo Simulation IntIntervalsMap
variable {V R : Type}

structure FoldJoin (V R : Type) where
  f : ℤ → ℤ → V → R
  join : R → R → R
  empty : R

namespace FoldJoin

section Source
variable {M : Type → Type} [Monad M] (g : FoldJoin V R)

/-- One step of the descent, `cache` being called on the subtrees. The positions that are in the set
and not in the map are not presented to `f`. -/
@[grind =] def aux (cache : ℤ × Offsetmap V → Itvs → M R) (o1 : ℤ) (t1 : Offsetmap V) (o2 : ℤ) : Offsetmap Bool → M R
  | .empty => pure g.empty
  | .node max2 offl2 subl2 offr2 subr2 rem2 modu2 v2 =>
    match t1 with
    | .empty => pure g.empty
    | .node max1 offl1 subl1 offr1 subr1 rem1 modu1 v =>
      match v2 with
      | false =>
        match subl2, subr2 with
        | .empty, .empty => pure g.empty
        | .empty, .node max offl subl offr subr rem modu v' =>
          aux cache o1 (.node max1 offl1 subl1 offr1 subr1 rem1 modu1 v) (o2 + offr2)
            (.node max offl subl offr subr rem modu v')
        | .node max offl subl offr subr rem modu v', .empty =>
          aux cache o1 (.node max1 offl1 subl1 offr1 subr1 rem1 modu1 v) (o2 + offl2)
            (.node max offl subl offr subr rem modu v')
        | subl2, subr2 => do
          let r ← cache (o1,.node max1 offl1 subl1 offr1 subr1 rem1 modu1 v) (o2 + offl2,subl2)
          let r' ← cache (o1,.node max1 offl1 subl1 offr1 subr1 rem1 modu1 v) (o2 + offr2,subr2)
          pure (g.join r r')
      | true => do
        let t1 : Offsetmap V := .node max1 offl1 subl1 offr1 subr1 rem1 modu1 v
        let t2 : Offsetmap Bool := .node max2 offl2 subl2 offr2 subr2 rem2 modu2 true
        let amin1 := o1
        let amax1 := max1 + o1
        let amin2 := o2
        let amax2 := max2 + o2
        let ol1 := o1 + offl1
        let ol2 := o2 + offl2
        let or1 := o1 + offr1
        let or2 := o2 + offr2
        if amax1 < amin2 then
          let r ← cache (o1,t1) (ol2,subl2)
          let r' ← cache (or1,subr1) (o2,t2)
          pure (g.join r r')
        else if amin1 > amax2 then
          let r ← cache (o1,t1) (or2,subr2)
          let r' ← cache (ol1,subl1) (o2,t2)
          pure (g.join r r')
        else
          -- the end of the intersection, and what is at its right
          let treatRightNodes (mabsMin : ℤ) : M R :=
            if amax1 = amax2 then do
              let r ← cache (or1,subr1) (or2,subr2)
              pure (g.join (g.f mabsMin amax1 v) r)
            else if amax1 > amax2 then do
              let r ← cache (o1,t1) (or2,subr2)
              pure (g.join (g.f mabsMin amax2 v) r)
            else do
              let r ← cache (or1,subr1) (o2,t2)
              pure (g.join (g.f mabsMin amax1 v) r)
          if amin1 = amin2 then
            let foo ← treatRightNodes amin1
            let r ← cache (ol1,subl1) (ol2,subl2)
            pure (g.join foo r)
          else if amin1 > amin2 then
            let r ← treatRightNodes amin1
            let r' ← cache (ol1,subl1) (o2,t2)
            pure (g.join r r')
          else
            let r ← treatRightNodes amin2
            let r' ← cache (o1,t1) (ol2,subl2)
            pure (g.join r r')

/-- Calls `aux` through the cache. The number bounds the depth. -/
def compute {σ : Type}
    (merge : (ℤ × Offsetmap V → Itvs → StateT σ Option R) → ℤ × Offsetmap V → Itvs → StateT σ Option R)
    (g : FoldJoin V R) : ℕ → ℤ × Offsetmap V → Itvs → StateT σ Option R
  | 0, _, _ => failure
  | fuel + 1, x, y =>
    match x.2, y.2 with
    | .empty, _ => pure g.empty
    | _, .empty => pure g.empty
    | _, _ => merge (fun x y => g.aux (compute merge g fuel) x.1 x.2 y.1 y.2) x y

end Source

inductive Field (V R : Type)
  | left (x : ℤ × Offsetmap V)
  | right (y : Itvs)
  | result (r : R)

instance : Inhabited (Field V R) := ⟨.left (-1,.empty)⟩

section Cache
variable [DecidableEq V]

def leftCacheable (hash : ℤ × Offsetmap V → NativeInt) : Cacheable (Field V R) where
  hash
    | .left x => hash x
    | _ => 0
  sentinel := .left (-1,.empty)
  equal
    | .left x, .left x' => x == x'
    | _, _ => false
  eq_of_equal := by
    intro x y h
    cases x <;> cases y <;> simp_all

def rightCacheable (hash : Itvs → NativeInt) : Cacheable (Field V R) where
  hash
    | .right y => hash y
    | _ => 0
  sentinel := .right (-1,.empty)
  equal
    | .right y, .right y' => y == y'
    | _, _ => false
  eq_of_equal := by
    intro x y h
    cases x <;> cases y <;> simp_all

def table (env : Option (Option ℤ)) (hash : ℤ × Offsetmap V → NativeInt) (hashItvs : Itvs → NativeInt) (r : R) :
    Table (Field V R × Field V R) (Field V R) :=
  arityTwo env (leftCacheable hash) (rightCacheable hashItvs) (.result r)

def merge (cache : Hptmap.CacheType) (t : Table (Field V R × Field V R) (Field V R))
    (f : ℤ × Offsetmap V → Itvs → t.M R) (x : ℤ × Offsetmap V) (y : Itvs) : t.M R :=
  match cache with
  | .noCache => f x y
  | .persistentCache _ | .temporaryCache _ => do
    let r ← t.memo (.left x,.right y) do
      let r ← f x y
      pure (.result r)
    match r with
    | .result r => pure r
    | _ => failure

end Cache
end FoldJoin

section Functions
variable [DecidableEq V] (cache : Hptmap.CacheType) (env : Option (Option ℤ)) (hash : ℤ × Offsetmap V → NativeInt)
  (hashItvs : Itvs → NativeInt) (g : FoldJoin V R)

def foldJoinItvsMapOffset (x : ℤ × Offsetmap V) (y : Itvs) : (FoldJoin.table env hash hashItvs g.empty).M R :=
  g.compute (FoldJoin.merge cache (FoldJoin.table env hash hashItvs g.empty)) (count x.2 + count y.2 + 1) x y

def boundsAsItv (m : Offsetmap V) : IntIntervals :=
  match m with
  | .empty => .bottom
  | .node .. =>
    let (min,max) := boundsOffset 0 m
    IntIntervals.injectBounds min max

def foldJoinItvs (itvs : IntIntervals) (m : Offsetmap V) : (FoldJoin.table env hash hashItvs g.empty).M R :=
  match itvs with
  | .bottom => pure g.empty
  | .intervals currOff itvs _ _ => foldJoinItvsMapOffset cache env hash hashItvs g (0,m) (currOff,itvs)
  | .top =>
    match boundsAsItv m with
    | .bottom => pure g.empty
    | .intervals currOff itvs _ _ => foldJoinItvsMapOffset cache env hash hashItvs g (0,m) (currOff,itvs)
    -- `assert false`
    | .top => failure

end Functions

namespace FoldJoin

/-- A call of the function on an interval. -/
structure Call (V : Type) where
  lo : ℤ
  hi : ℤ
  v : V
  deriving DecidableEq

def listFold : FoldJoin V (List (Call V)) := ⟨fun lo hi v => [⟨lo,hi,v⟩],(· ++ ·),[]⟩

def callsAt : ℕ → ℤ × Offsetmap V → Itvs → List (Call V)
  | 0, _, _ => []
  | fuel + 1, x, y => listFold.aux (M := Id) (callsAt fuel) x.1 x.2 y.1 y.2

def calls (x : ℤ × Offsetmap V) (y : Itvs) : List (Call V) := callsAt (count x.2 + count y.2 + 1) x y

theorem aux_congr {M : Type → Type} [Monad M] {g : FoldJoin V R} {c c' : ℤ × Offsetmap V → Itvs → M R} {o1 : ℤ}
    {t1 : Offsetmap V} {o2 : ℤ} {t2 : Offsetmap Bool}
    (h : ∀ x y, count x.2 + count y.2 < count t1 + count t2 → c x y = c' x y) :
    g.aux c o1 t1 o2 t2 = g.aux c' o1 t1 o2 t2 := by
  induction t2 generalizing o2 with
  | empty => rfl
  | node max2 offl2 subl2 offr2 subr2 rem2 modu2 v2 ihl ihr =>
    cases t1 with
    | empty => rfl
    | node max1 offl1 subl1 offr1 subr1 rem1 modu1 v =>
      simp only [count] at h ihl ihr
      cases v2 with
      | false =>
        cases subl2 with
        | empty =>
          cases subr2 with
          | empty => rfl
          | node => exact ihr fun x y hlt => h x y (by simp only [count] at hlt ⊢; omega)
        | node maxl offll subll offlr sublr reml modul vl =>
          cases subr2 with
          | empty => exact ihl fun x y hlt => h x y (by simp only [count] at hlt ⊢; omega)
          | node maxr offrl subrl offrr subrr remr modur vr =>
            have hl := h (o1,.node max1 offl1 subl1 offr1 subr1 rem1 modu1 v)
              (o2 + offl2,.node maxl offll subll offlr sublr reml modul vl) (by simp only [count]; omega)
            have hr := h (o1,.node max1 offl1 subl1 offr1 subr1 rem1 modu1 v)
              (o2 + offr2,.node maxr offrl subrl offrr subrr remr modur vr) (by simp only [count]; omega)
            simp only [aux,hl,hr]
      | true =>
        have hfst : ∀ x : ℤ × Offsetmap V, count x.2 < count subl1 + count subr1 + 1 →
            c x (o2,.node max2 offl2 subl2 offr2 subr2 rem2 modu2 true) =
              c' x (o2,.node max2 offl2 subl2 offr2 subr2 rem2 modu2 true) :=
          fun x hlt => h x _ (by simp only [count]; omega)
        have hsnd : ∀ y : Itvs, count y.2 < count subl2 + count subr2 + 1 →
            c (o1,.node max1 offl1 subl1 offr1 subr1 rem1 modu1 v) y =
              c' (o1,.node max1 offl1 subl1 offr1 subr1 rem1 modu1 v) y :=
          fun y hlt => h _ y (by simp only [count]; omega)
        have hboth : ∀ (x : ℤ × Offsetmap V) (y : Itvs), count x.2 < count subl1 + count subr1 + 1 →
            count y.2 < count subl2 + count subr2 + 1 → c x y = c' x y := fun x y h1 h2 => h x y (by omega)
        have hl1 : count subl1 < count subl1 + count subr1 + 1 := by omega
        have hr1 : count subr1 < count subl1 + count subr1 + 1 := by omega
        have hl2 : count subl2 < count subl2 + count subr2 + 1 := by omega
        have hr2 : count subr2 < count subl2 + count subr2 + 1 := by omega
        simp only [aux,hfst (o1 + offl1,subl1) hl1,hfst (o1 + offr1,subr1) hr1,hsnd (o2 + offl2,subl2) hl2,
          hsnd (o2 + offr2,subr2) hr2,hboth (o1 + offl1,subl1) (o2 + offl2,subl2) hl1 hl2,
          hboth (o1 + offr1,subr1) (o2 + offr2,subr2) hr1 hr2]

theorem callsAt_eq {fuel fuel' : ℕ} {x : ℤ × Offsetmap V} {y : Itvs} (h : count x.2 + count y.2 < fuel)
    (h' : count x.2 + count y.2 < fuel') : callsAt fuel x y = callsAt fuel' x y := by
  induction fuel generalizing fuel' x y with
  | zero => omega
  | succ fuel ih =>
    cases fuel' with
    | zero => omega
    | succ fuel' => exact aux_congr fun x y hlt => ih (by omega) (by omega)

theorem calls_eq (x : ℤ × Offsetmap V) (y : Itvs) : calls x y = listFold.aux (M := Id) calls x.1 x.2 y.1 y.2 :=
  aux_congr fun _ _ hlt => callsAt_eq (by omega) (by omega)

@[simp] theorem calls_empty_left (o1 : ℤ) (y : Itvs) : calls ((o1,.empty) : ℤ × Offsetmap V) y = [] := by
  rw [calls_eq]
  obtain ⟨o2,t2⟩ := y
  cases t2 <;> rfl

@[simp] theorem calls_empty_right (x : ℤ × Offsetmap V) (o2 : ℤ) : calls x (o2,.empty) = [] := by
  rw [calls_eq]
  rfl

theorem calls_false (x : ℤ × Offsetmap V) (o2 max2 offl2 : ℤ) (subl2 : Offsetmap Bool) (offr2 : ℤ)
    (subr2 : Offsetmap Bool) (rem2 modu2 : ℤ) :
    calls x (o2,.node max2 offl2 subl2 offr2 subr2 rem2 modu2 false) =
      calls x (o2 + offl2,subl2) ++ calls x (o2 + offr2,subr2) := by
  obtain ⟨o1,t1⟩ := x
  cases t1 with
  | empty => simp
  | node max1 offl1 subl1 offr1 subr1 rem1 modu1 v =>
    rw [calls_eq]
    cases subl2 with
    | empty =>
      cases subr2 with
      | empty =>
        rw [calls_empty_right,calls_empty_right]
        rfl
      | node =>
        rw [calls_empty_right,List.nil_append,calls_eq (o1,_) (o2 + offr2,_)]
        rfl
    | node =>
      cases subr2 with
      | empty =>
        rw [calls_empty_right,List.append_nil,calls_eq (o1,_) (o2 + offl2,_)]
        rfl
      | node => rfl

def rightCalls (o1 : ℤ) (c1 : Cell V) (o2 : ℤ) (c2 : Cell Bool) : List (Call V) :=
  if c1.max + o1 = c2.max + o2 then calls (o1 + c1.offr,c1.subr) (o2 + c2.offr,c2.subr)
  else if c1.max + o1 > c2.max + o2 then calls (o1,c1.node) (o2 + c2.offr,c2.subr)
  else calls (o1 + c1.offr,c1.subr) (o2,c2.node)

def leftCalls (o1 : ℤ) (c1 : Cell V) (o2 : ℤ) (c2 : Cell Bool) : List (Call V) :=
  if o1 = o2 then calls (o1 + c1.offl,c1.subl) (o2 + c2.offl,c2.subl)
  else if o1 > o2 then calls (o1 + c1.offl,c1.subl) (o2,c2.node)
  else calls (o1,c1.node) (o2 + c2.offl,c2.subl)

theorem calls_true (o1 : ℤ) (c1 : Cell V) (o2 : ℤ) (c2 : Cell Bool) (hv : c2.v = true) :
    calls (o1,c1.node) (o2,c2.node) =
      if c1.max + o1 < o2 then calls (o1,c1.node) (o2 + c2.offl,c2.subl) ++ calls (o1 + c1.offr,c1.subr) (o2,c2.node)
      else if o1 > c2.max + o2 then
        calls (o1,c1.node) (o2 + c2.offr,c2.subr) ++ calls (o1 + c1.offl,c1.subl) (o2,c2.node)
      else ⟨max o1 o2,min (c1.max + o1) (c2.max + o2),c1.v⟩ :: rightCalls o1 c1 o2 c2 ++ leftCalls o1 c1 o2 c2 := by
  obtain ⟨max1,offl1,subl1,offr1,subr1,rem1,modu1,v⟩ := c1
  obtain ⟨max2,offl2,subl2,offr2,subr2,rem2,modu2,v2⟩ := c2
  subst hv
  have hmin : max o1 o2 = if o1 = o2 then o1 else if o1 > o2 then o1 else o2 := by split_ifs <;> omega
  have hmax : min (max1 + o1) (max2 + o2) = if max1 + o1 = max2 + o2 then max1 + o1
      else if max1 + o1 > max2 + o2 then max2 + o2 else max1 + o1 := by
    split_ifs <;> omega
  rw [calls_eq,hmin,hmax]
  unfold rightCalls leftCalls
  simp only [Cell.node,aux]
  split_ifs <;> rfl

/-- The join is associative and `empty` is neutral. -/
structure Lawful (g : FoldJoin V R) : Prop where
  assoc : ∀ a b c, g.join (g.join a b) c = g.join a (g.join b c)
  empty_join : ∀ a, g.join g.empty a = a
  join_empty : ∀ a, g.join a g.empty = a

def eval (g : FoldJoin V R) (l : List (Call V)) : R := l.foldr (fun c r => g.join (g.f c.lo c.hi c.v) r) g.empty

section Returns
variable {g : FoldJoin V R} (hg : g.Lawful)
include hg

theorem eval_append (l l' : List (Call V)) : g.eval (l ++ l') = g.join (g.eval l) (g.eval l') := by
  induction l with
  | nil => exact (hg.empty_join _).symm
  | cons c l ih =>
    rw [List.cons_append,eval,List.foldr_cons]
    change g.join _ (g.eval (l ++ l')) = _
    rw [ih,← hg.assoc]
    rfl

variable {σ : Type} {I : σ → Prop} {c : ℤ × Offsetmap V → Itvs → StateT σ Option R}

theorem returns_join {l l' : List (Call V)} {m m' : StateT σ Option R} (h : Returns I (g.eval l) m)
    (h' : Returns I (g.eval l') m') :
    Returns I (g.eval (l ++ l')) (m >>= fun r => m' >>= fun r' => pure (g.join r r')) := by
  rw [eval_append hg]
  exact Returns.bind h (Returns.bind h' (Returns.pure _))

omit hg in
theorem returns_cons (lo hi : ℤ) (v : V) {l : List (Call V)} {m : StateT σ Option R} (h : Returns I (g.eval l) m) :
    Returns I (g.eval (⟨lo,hi,v⟩ :: l)) (m >>= fun r => pure (g.join (g.f lo hi v) r)) :=
  Returns.bind h (Returns.pure _)

theorem aux_returns {o1 : ℤ} {t1 : Offsetmap V} {o2 : ℤ} {t2 : Offsetmap Bool}
    (h : ∀ x y, count x.2 + count y.2 < count t1 + count t2 → Returns I (g.eval (calls x y)) (c x y)) :
    Returns I (g.eval (calls (o1,t1) (o2,t2))) (g.aux c o1 t1 o2 t2) := by
  induction t2 generalizing o2 with
  | empty =>
    rw [calls_empty_right]
    exact Returns.pure _
  | node max2 offl2 subl2 offr2 subr2 rem2 modu2 v2 ihl ihr =>
    cases t1 with
    | empty =>
      rw [calls_empty_left]
      exact Returns.pure _
    | node max1 offl1 subl1 offr1 subr1 rem1 modu1 v =>
      simp only [count] at h ihl ihr
      cases v2 with
      | false =>
        rw [calls_false]
        cases subl2 with
        | empty =>
          cases subr2 with
          | empty =>
            rw [calls_empty_right,calls_empty_right]
            exact Returns.pure _
          | node =>
            rw [calls_empty_right,List.nil_append]
            exact ihr fun x y hlt => h x y (by simp only [count] at hlt ⊢; omega)
        | node maxl offll subll offlr sublr reml modul vl =>
          cases subr2 with
          | empty =>
            rw [calls_empty_right,List.append_nil]
            exact ihl fun x y hlt => h x y (by simp only [count] at hlt ⊢; omega)
          | node maxr offrl subrl offrr subrr remr modur vr =>
            exact returns_join hg (h _ _ (by simp only [count]; omega)) (h _ _ (by simp only [count]; omega))
      | true =>
        have hcalls := calls_true o1 ⟨max1,offl1,subl1,offr1,subr1,rem1,modu1,v⟩ o2
          ⟨max2,offl2,subl2,offr2,subr2,rem2,modu2,true⟩ rfl
        have hmin : max o1 o2 = if o1 = o2 then o1 else if o1 > o2 then o1 else o2 := by split_ifs <;> omega
        have hmax : min (max1 + o1) (max2 + o2) = if max1 + o1 = max2 + o2 then max1 + o1
            else if max1 + o1 > max2 + o2 then max2 + o2 else max1 + o1 := by
          split_ifs <;> omega
        simp only [Cell.node,rightCalls,leftCalls,hmin,hmax] at hcalls
        rw [hcalls]
        simp only [aux]
        split_ifs
        · exact returns_join hg (h _ _ (by simp only [count]; omega)) (h _ _ (by simp only [count]; omega))
        · exact returns_join hg (h _ _ (by simp only [count]; omega)) (h _ _ (by simp only [count]; omega))
        all_goals
          refine returns_join hg (returns_cons _ _ _ (h _ _ ?_)) (h _ _ ?_)
          · simp only [count]
            omega
          · simp only [count]
            omega

theorem compute_returns
    {merge : (ℤ × Offsetmap V → Itvs → StateT σ Option R) → ℤ × Offsetmap V → Itvs → StateT σ Option R}
    (hmerge : ∀ (f : ℤ × Offsetmap V → Itvs → StateT σ Option R) x y, Returns I (g.eval (calls x y)) (f x y) →
      Returns I (g.eval (calls x y)) (merge f x y)) (fuel : ℕ) {x : ℤ × Offsetmap V} {y : Itvs}
    (hlt : count x.2 + count y.2 < fuel) : Returns I (g.eval (calls x y)) (compute merge g fuel x y) := by
  induction fuel generalizing x y with
  | zero => omega
  | succ fuel ih =>
    obtain ⟨o1,t1⟩ := x
    obtain ⟨o2,t2⟩ := y
    cases t1 with
    | empty =>
      rw [calls_empty_left]
      exact Returns.pure _
    | node =>
      cases t2 with
      | empty =>
        rw [calls_empty_right]
        exact Returns.pure _
      | node =>
        refine hmerge _ _ _ (aux_returns hg fun x y hxy => ih ?_)
        dsimp only at hlt
        omega

end Returns

def resultOf (g : FoldJoin V R) : Field V R × Field V R → Field V R
  | (.left x,.right y) => .result (g.eval (calls x y))
  | _ => .result g.empty

section Cache
variable [DecidableEq V] (env : Option (Option ℤ)) (hash : ℤ × Offsetmap V → NativeInt) (hashItvs : Itvs → NativeInt)
variable (g : FoldJoin V R)

def TableInv : Option (table env hash hashItvs g.empty).State → Prop :=
  (table env hash hashItvs g.empty).Inv (Sized env array3) (fun _ => True) g.resultOf

theorem table_blanks : (table env hash hashItvs g.empty).Blanks (Sized env array3)
    (fun a => a = (.left (-1,.empty),.right (-1,.empty))) (.result g.empty) :=
  arityTwo_blanks env (leftCacheable hash) (rightCacheable hashItvs) (.result g.empty) rfl rfl

omit [DecidableEq V] in
theorem resultOf_sentinel (a : Field V R × Field V R) (ha : a = (.left (-1,.empty),.right (-1,.empty))) :
    g.resultOf a = .result g.empty := by
  subst ha
  rw [resultOf,calls_empty_left]
  rfl

theorem merge_returns (cache : Hptmap.CacheType)
    {f : ℤ × Offsetmap V → Itvs → (table env hash hashItvs g.empty).M R} {x : ℤ × Offsetmap V} {y : Itvs}
    (hf : Returns (g.TableInv env hash hashItvs) (g.eval (calls x y)) (f x y)) :
    Returns (g.TableInv env hash hashItvs) (g.eval (calls x y))
      (merge cache (table env hash hashItvs g.empty) f x y) := by
  have hstarts : (table env hash hashItvs g.empty).Starts (Sized env array3) (fun _ => True) g.resultOf :=
    (table_blanks env hash hashItvs g).starts fun a _ ha => resultOf_sentinel g a ha
  have hstores : (table env hash hashItvs g.empty).Stores (Sized env array3) (fun _ => True) Eq :=
    arityTwo_stores env _ _ _
  have hresult : Returns (g.TableInv env hash hashItvs) (g.resultOf (.left x,.right y))
      (f x y >>= fun r => pure (.result r)) := Returns.bind hf (Returns.pure _)
  have hmemo := hstores.memo_returns hstarts (fun a b h => by rw [h]) trivial hresult
  cases cache with
  | noCache => exact hf
  | persistentCache name => exact Returns.bind hmemo (Returns.pure _)
  | temporaryCache name => exact Returns.bind hmemo (Returns.pure _)

end Cache
end FoldJoin

def itvsCalls (itvs : IntIntervals) (m : Offsetmap V) : List (FoldJoin.Call V) :=
  match itvs with
  | .bottom => []
  | .intervals currOff itvs _ _ => FoldJoin.calls (0,m) (currOff,itvs)
  | .top =>
    match boundsAsItv m with
    | .intervals currOff itvs _ _ => FoldJoin.calls (0,m) (currOff,itvs)
    | _ => []

section Runs
variable [DecidableEq V] (cache : Hptmap.CacheType) (env : Option (Option ℤ)) (hash : ℤ × Offsetmap V → NativeInt)
  (hashItvs : Itvs → NativeInt) {g : FoldJoin V R} (hg : g.Lawful)
include hg

theorem foldJoinItvsMapOffset_returns (x : ℤ × Offsetmap V) (y : Itvs) :
    Returns (g.TableInv env hash hashItvs) (g.eval (FoldJoin.calls x y))
      (foldJoinItvsMapOffset cache env hash hashItvs g x y) :=
  FoldJoin.compute_returns hg (fun _ _ _ hf => FoldJoin.merge_returns env hash hashItvs g cache hf) _
    (Nat.lt_succ_self _)

theorem foldJoinItvs_returns (itvs : IntIntervals) (m : Offsetmap V) :
    Returns (g.TableInv env hash hashItvs) (g.eval (itvsCalls itvs m))
      (foldJoinItvs cache env hash hashItvs g itvs m) := by
  unfold itvsCalls foldJoinItvs
  cases itvs with
  | bottom => exact Returns.pure _
  | intervals currOff itvs min max => exact foldJoinItvsMapOffset_returns cache env hash hashItvs hg _ _
  | top =>
    cases m with
    | empty => exact Returns.pure _
    | node max offl subl offr subr rem modu v =>
      dsimp only
      have htop := (IntIntervals.injectBounds_spec (boundsOffset 0 (Offsetmap.node max offl subl offr subr rem modu v)).1
        (boundsOffset 0 (Offsetmap.node max offl subl offr subr rem modu v)).2).2.1
      rw [boundsAsItv]
      generalize boundsOffset 0 (Offsetmap.node max offl subl offr subr rem modu v) = bounds at htop ⊢
      dsimp only
      cases hb : IntIntervals.injectBounds bounds.1 bounds.2 with
      | top => exact absurd hb htop
      | intervals currOff itvs min' max' => exact foldJoinItvsMapOffset_returns cache env hash hashItvs hg _ _
      | bottom => exact Returns.pure _

theorem foldJoinItvs_runs (steps : List (Step (IntIntervals × Offsetmap V))) :
    ∃ st, runSteps (fun a => foldJoinItvs cache env hash hashItvs g a.1 a.2)
        (Hptmap.clearRegistered cache (FoldJoin.table env hash hashItvs g.empty)) steps none =
      some ((steps.filterMap Step.call?).map fun a => g.eval (itvsCalls a.1 a.2),st) := by
  obtain ⟨st,h1,-⟩ := runSteps_ok
    (fun (a : IntIntervals × Offsetmap V) _ => foldJoinItvs_returns cache env hash hashItvs hg a.1 a.2)
    (Hptmap.clearRegistered_inv cache fun _ => (FoldJoin.table_blanks env hash hashItvs g).restarts fun a _ ha =>
      FoldJoin.resultOf_sentinel g a ha) Table.inv_none
  exact ⟨st,h1⟩

end Runs
end FramaC.Offsetmap
