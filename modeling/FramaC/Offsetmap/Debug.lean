import FramaC.Offsetmap.Find
import FramaC.Offsetmap.Bindings

/-! # Updates in debug mode

In debug mode `add_node` asserts that its interval is not empty. The functions of this module are those that an update runs,
with this assertion; a failed one gives `none`. They return what the functions without assertion return.
-/
namespace FramaC.Offsetmap.Debug
open OffsetmapLattice Integer
variable {V : Type} [DecidableEq V] [OffsetmapLattice V]

def addNode (min max rem modu : ℤ) (v : V) (currOff : ℤ) (tree : Offsetmap V) : Option (ℤ × Offsetmap V) :=
  if min ≤ max then some (Offsetmap.addNode min max rem modu v currOff tree) else none

def keepBelow (offset currOff : ℤ) : Offsetmap V → Option (ℤ × Offsetmap V)
  | .empty => some (offset,.empty)
  | .node max offl subl offr subr rem m v =>
    let newOffl := offl + currOff
    if offset < currOff then keepBelow offset newOffl subl
    else if offset = currOff then some (newOffl,subl)
    else
      let sup := currOff + max
      if offset > sup then do
        let (newOffr,newSubr) ← keepBelow offset (currOff + offr) subr
        some (currOff,.node max offl subl (newOffr - currOff) newSubr rem m v)
      else
        let newMax := offset - currOff - 1
        addNode currOff (newMax + currOff) rem m v (currOff + offl) subl

def keepAbove (offset currOff : ℤ) : Offsetmap V → Option (ℤ × Offsetmap V)
  | .empty => some (offset + 1,.empty)
  | .node max offl subl offr subr rem m v =>
    let newOffr := offr + currOff
    let absMax := currOff + max
    if offset > absMax then keepAbove offset newOffr subr
    else if offset = absMax then some (newOffr,subr)
    else if offset < currOff then do
      let (newOffl,newSubl) ← keepAbove offset (currOff + offl) subl
      some (currOff,.node max (newOffl - currOff) newSubl offr subr rem m v)
    else
      let min := offset + 1
      let newReml := realign currOff min rem m
      addNode min absMax newReml m v newOffr subr

def updateLoop (offset absMax size rem : ℤ) (v : V) : ℕ → ℤ → Cell V → Zipper V → ℤ → Offsetmap V →
    Option (ℤ × Offsetmap V)
  | 0,_,_,_,_,_ => none
  | fuel + 1,o,c,z,leftOffset,leftTree =>
    if o ≤ absMax then
      let newOffset := max offset o
      let remAt := realign offset newOffset rem size
      let rNode := realign o newOffset c.rem c.modu
      let (newR,newM,newV) := joinedNode remAt size v rNode c.modu c.v
      let nodeAbsMax := o + c.max
      let (endReached,writeMax) := if nodeAbsMax ≥ absMax then (true,absMax) else (false,nodeAbsMax)
      match addNode newOffset writeMax newR newM newV leftOffset leftTree with
      | none => none
      | some (newLeftOffset,newLeftTree) =>
        if endReached then some (newLeftOffset,newLeftTree)
        else
          match moveRight o c z with
          | none => none
          | some (o',c',z') => updateLoop offset absMax size rem v fuel o' c' z' newLeftOffset newLeftTree
    else some (leftOffset,leftTree)

def updateItvWithRem (exact : Bool) (offset absMax size rem : ℤ) (v : V) (currOff : ℤ) (tree : Offsetmap V) :
    Option (ℤ × Offsetmap V) :=
  if size = 0 then some (currOff,tree)
  else do
    let (off1,t1) ← keepAbove absMax currOff tree
    let (off2,t2) ← keepBelow offset currOff tree
    if exact then do
      let (offAdd,tAdd) ← addNode offset absMax rem size v off1 t1
      some (union off2 t2 offAdd tAdd)
    else do
      let (z,o,c) ← findBitOffset offset .endZ currOff tree
      let (leftOffset,leftTree) ← updateLoop offset absMax size rem v (count tree) o c z off2 t2
      some (union leftOffset leftTree off1 t1)

def updateItv (exact : Bool) (offset absMax size : ℤ) (v : V) (currOff : ℤ) (tree : Offsetmap V) :
    Option (ℤ × Offsetmap V) := updateItvWithRem exact offset absMax size 0 v currOff tree

def updateSeries (exact : Bool) (max period size : ℤ) (v : V) :
    ℕ → ℤ → ℤ → Offsetmap V → Option (ℤ × Offsetmap V)
  | 0,_,_,_ => none
  | fuel + 1,offset,o,t =>
    if offset ≤ max then
      match updateItv exact offset (size + offset - 1) size v o t with
      | none => none
      | some (o',t') => updateSeries exact max period size v fuel (offset + period) o' t'
    else some (o,t)

def updateItvsAux (exact : Bool) (r period size : ℤ) (v : V) (mn mx currOff : ℤ) :
    Offsetmap V → Option (ℤ × Offsetmap V)
  | .empty => some (currOff,.empty)
  | .node max offl subl offr subr rNode mNode vNode => do
    let absOffl := offl + currOff
    let absOffr := offr + currOff
    let absMax := currOff + max
    let ((newOffl,newSubl),undoneL) ←
      match undoneLeft r mn mx period size currOff with
      | none => some ((absOffl,subl),some mn)
      | some (newMx,undone) => (·,undone) <$> updateItvsAux exact r period size v mn newMx absOffl subl
    let ((newOffr,newSubr),undoneR) ←
      match undoneRight r mn mx period absMax with
      | none => some ((absOffr,subr),some mx)
      | some (newMn,undone) => (·,undone) <$> updateItvsAux exact r period size v newMn mx absOffr subr
    let (o,t) ← addNode currOff (currOff + max) rNode mNode vNode newOffl newSubl
    let (currOff,tree) := union o t newOffr newSubr
    match undoneL,undoneR with
    | some min,some max =>
      if size = period then updateItv exact min (size + max - 1) size v currOff tree
      else updateSeries exact max period size v ((max - min).toNat + 2) min currOff tree
    | _,_ => some (currOff,tree)

def updateItvs (exact : Bool) (mn mx period size : ℤ) (v : V) (currOff : ℤ) (tree : Offsetmap V) :
    Option (ℤ × Offsetmap V) :=
  if mx ≥ mn then updateItvsAux exact (mn % period) period size v mn mx currOff tree else none

section Adequacy
variable {lo hi o offset absMax size rem min max modu x : ℤ} {v : V} {t : Offsetmap V}

theorem addNode_eq (hle : min ≤ max) : addNode min max rem modu v o t = some (Offsetmap.addNode min max rem modu v o t) :=
  if_pos hle

theorem keepBelow_eq (x o : ℤ) (t : Offsetmap V) : keepBelow x o t = some (Offsetmap.keepBelow x o t) := by
  induction t generalizing o with
  | empty => rfl
  | node max offl subl offr subr rem modu v ihl ihr =>
    rw [keepBelow,Offsetmap.keepBelow]
    dsimp only
    split
    · exact ihl _
    · split
      · rfl
      · split
        · rw [ihr]
          rfl
        · exact addNode_eq (by omega)

theorem keepAbove_eq (x o : ℤ) (t : Offsetmap V) : keepAbove x o t = some (Offsetmap.keepAbove x o t) := by
  induction t generalizing o with
  | empty => rfl
  | node max offl subl offr subr rem modu v ihl ihr =>
    rw [keepAbove,Offsetmap.keepAbove]
    dsimp only
    split
    · exact ihr _
    · split
      · rfl
      · split
        · rw [ihl]
          rfl
        · exact addNode_eq (by omega)

theorem updateLoop_eq {fuel : ℕ} {c : Cell V} {z : Zipper V} {lo' : ℤ} {lt : Offsetmap V}
    (htiles : Tiles o hi (c.seg o :: following o c z)) (hoff : offset ≤ o + c.max) (hle : offset ≤ absMax) (hhi : absMax ≤ hi) :
    updateLoop offset absMax size rem v fuel o c z lo' lt = Offsetmap.updateLoop offset absMax size rem v fuel o c z lo' lt := by
  induction fuel generalizing o c z lo' lt with
  | zero => rfl
  | succ fuel ih =>
    obtain ⟨h1,h2,h3⟩ := htiles
    have h2 : o ≤ o + c.max := h2
    have h3 : Tiles (o + c.max + 1) hi (following o c z) := h3
    rw [updateLoop,Offsetmap.updateLoop]
    split
    · rename_i ho
      dsimp only
      by_cases hend : o + c.max ≥ absMax
      · rw [if_pos hend]
        simp only [addNode_eq (show Max.max offset o ≤ absMax by omega),if_true]
      · rw [if_neg hend]
        have hfol : following o c z ≠ [] := by
          intro hnil
          rw [hnil] at h3
          have : hi = o + c.max + 1 - 1 := h3
          omega
        obtain ⟨s,l,hsl⟩ := List.exists_cons_of_ne_nil hfol
        obtain ⟨o',c',z',k1,rfl,rfl⟩ := moveRight_spec hsl
        simp only [addNode_eq (show Max.max offset o ≤ o + c.max by omega),Bool.false_eq_true,if_false,k1]
        rw [hsl] at h3
        have hc' : o' ≤ o' + c'.max := h3.2.1
        have ho' : o' = o + c.max + 1 := h3.1
        exact ih (ho' ▸ h3) (by omega)
    · rfl

theorem updateItv_eq (h : Shape lo hi o t) (hlo : lo ≤ offset) (hle : offset ≤ absMax) (hhi : absMax ≤ hi) (exact : Bool) :
    updateItv exact offset absMax size v o t = Offsetmap.updateItv exact offset absMax size v o t := by
  rw [updateItv,Offsetmap.updateItv,updateItvWithRem,Offsetmap.updateItvWithRem]
  split
  · rfl
  · rw [keepAbove_eq,keepBelow_eq]
    dsimp only [Option.bind_eq_bind,Option.bind_some]
    cases exact with
    | true =>
      simp only [if_true,addNode_eq hle,Option.bind_some]
    | false =>
      obtain ⟨z,o',c,l,e1,e2,e3,e4,e5⟩ := findBitOffset_spec h hlo (show offset ≤ hi by omega) .endZ
      rw [Zipper.after,List.append_nil] at e4
      obtain ⟨m,f1,f2⟩ := (e4 ▸ h.tiles : Tiles lo hi (l ++ c.seg o' :: following o' c z)).split
      have f2 : Tiles o' hi (c.seg o' :: following o' c z) := ⟨rfl,f2.2.1,f2.2.2⟩
      simp only [e1,Bool.false_eq_true,if_false,Option.bind_some,updateLoop_eq f2 e3 hle hhi]
      split
      · rename_i hnone
        rw [hnone]
        rfl
      · rename_i hsome
        rw [hsome]
        rfl

end Adequacy

end FramaC.Offsetmap.Debug

/-! ## Periodic writes

`update_itvs` distributes the writes of a series on both sides of the root, and runs on the root what remains. Each bit is
written at most once, so that only the offsets at which the series is cut matter.
-/
namespace FramaC.Offsetmap
open OffsetmapLattice Integer Progression
variable {V : Type}

section Series
variable [OffsetmapLattice V] {exact : Bool} {v : V} {size period mn mx a c b : ℤ} {x : Binding V}

/-- What the writes of `v` at the offsets from `mn` to `mx`, every `period`, bind to the bit `b`. -/
def Binding.writeEvery (exact : Bool) (v : V) (size period mn mx b : ℤ) (x : Binding V) : Binding V :=
  if mn ≤ b ∧ b ≤ mx + size - 1 ∧ (b - mn) % period < size then x.write exact v size ((b - mn) % period) else x

theorem emod_sub_congr (h : a % period = mn % period) (b : ℤ) : (b - a) % period = (b - mn) % period := by
  rw [Int.sub_emod,h,← Int.sub_emod]

theorem writeEvery_of_lt (h : a % period = mn % period) (hlt : a < mn) (hsize : size ≤ period) :
    Binding.writeEvery exact v size period mn a b x = x := by
  have := add_le_of_emod_eq h rfl hlt
  rw [Binding.writeEvery,if_neg (by omega)]

theorem writeEvery_split (hsize : 1 ≤ size) (hperiod : size ≤ period) (hmod : a % period = mn % period)
    (h1 : mn ≤ a + period) (h2 : a ≤ mx) :
    (x.writeEvery exact v size period mn a b).writeEvery exact v size period (a + period) mx b =
      x.writeEvery exact v size period mn mx b := by
  have hmod' : (a + period) % period = mn % period := by rw [Int.add_emod_right,hmod]
  have hpos := emod_sub_congr hmod b
  have hpos' := emod_sub_congr hmod' b
  have hgap : a < b → b < a + period → size ≤ b - a → ¬ (b - mn) % period < size := by
    intro h3 h4 h5
    rw [← hpos,Int.emod_eq_of_lt (by omega) (by omega)]
    omega
  by_cases hb : a + period ≤ b
  · have hleft : x.writeEvery exact v size period mn a b = x := if_neg (by omega)
    rw [hleft,Binding.writeEvery,Binding.writeEvery,hpos']
    by_cases hin : b ≤ mx + size - 1 ∧ (b - mn) % period < size
    · rw [if_pos ⟨hb,hin⟩,if_pos ⟨by omega,hin⟩]
    · rw [if_neg fun h => hin h.2,if_neg fun h => hin h.2]
  · have hright : ∀ y : Binding V, y.writeEvery exact v size period (a + period) mx b = y := fun y => if_neg (by omega)
    rw [hright,Binding.writeEvery,Binding.writeEvery]
    by_cases hin : mn ≤ b ∧ (b - mn) % period < size
    · have hle : b ≤ a + size - 1 := by
        by_contra hgt
        exact hgap (by omega) (by omega) (by omega) hin.2
      rw [if_pos ⟨hin.1,hle,hin.2⟩,if_pos ⟨hin.1,by omega,hin.2⟩]
    · rw [if_neg fun h => hin ⟨h.1,h.2.2⟩,if_neg fun h => hin ⟨h.1,h.2.2⟩]

theorem writeEvery_comm (h : a + size ≤ c) (mn' : ℤ) :
    (x.writeEvery exact v size period c mx b).writeEvery exact v size period mn' a b =
      (x.writeEvery exact v size period mn' a b).writeEvery exact v size period c mx b := by
  rcases lt_or_ge b c with hlt | hge
  · have hright : ∀ y : Binding V, y.writeEvery exact v size period c mx b = y := fun y => if_neg (by omega)
    rw [hright,hright]
  · have hleft : ∀ y : Binding V, y.writeEvery exact v size period mn' a b = y := fun y => if_neg (by omega)
    rw [hleft,hleft]

end Series

section Rewriting
variable [DecidableEq V] [OffsetmapLattice V] {lo hi o o' offset absMax size period mn mx : ℤ} {v : V} {t t' : Offsetmap V}
  {f g : ℤ → Binding V → Binding V} {r rDebug : Option (ℤ × Offsetmap V)}

/-- An operation on the tree at `o` and its debug mode return the same tree, which has the bindings of the first one
rewritten by `f`. -/
def Rewrites (lo hi : ℤ) (f : ℤ → Binding V → Binding V) (o : ℤ) (t : Offsetmap V) (r rDebug : Option (ℤ × Offsetmap V)) :
    Prop :=
  ∃ o' t', r = some (o',t') ∧ rDebug = some (o',t') ∧ Canon lo hi o' t' ∧ ∀ b, bindingAt o' t' b = (bindingAt o t b).map (f b)

theorem Rewrites.congr (h : Rewrites lo hi f o t r rDebug) (hfg : ∀ b x, f b x = g b x) : Rewrites lo hi g o t r rDebug := by
  obtain rfl : f = g := funext fun b => funext (hfg b)
  exact h

theorem Rewrites.trans (h : ∀ b, bindingAt o' t' b = (bindingAt o t b).map (f b)) (h' : Rewrites lo hi g o' t' r rDebug) :
    Rewrites lo hi (fun b x => g b (f b x)) o t r rDebug := by
  obtain ⟨o2,t2,h1,h2,h3,h4⟩ := h'
  refine ⟨o2,t2,h1,h2,h3,fun b => ?_⟩
  rw [h4,h,Option.map_map]
  rfl

theorem rewrites_self (h : Canon lo hi o t) : Rewrites lo hi (fun _ x => x) o t (some (o,t)) (some (o,t)) :=
  ⟨o,t,rfl,rfl,h,fun _ => Option.map_id'.symm⟩

variable (hsize : 1 ≤ size)
include hsize

theorem rewrites_updateItv (exact : Bool) (v : V) (h : Canon lo hi o t) (hlo : lo ≤ offset) (hle : offset ≤ absMax)
    (hhi : absMax ≤ hi) : Rewrites lo hi (fun b x => if offset ≤ b ∧ b ≤ absMax then x.write exact v size ((b - offset) % size) else x)
      o t (updateItv exact offset absMax size v o t) (Debug.updateItv exact offset absMax size v o t) := by
  obtain ⟨o',t',h1,h2,h3⟩ := updateItvWithRem_bindings (v := v) h hlo hle hhi (show size ≠ 0 by omega)
    (.inr ⟨le_rfl,by omega⟩) exact
  simp only [add_zero] at h3
  exact ⟨o',t',h1,(Debug.updateItv_eq h.1 hlo hle hhi exact).trans h1,h2,h3⟩

variable (hperiod : size ≤ period)
include hperiod

theorem rewrites_one (exact : Bool) (v : V) (h : Canon lo hi o t) (hlo : lo ≤ offset) (hhi : offset + size - 1 ≤ hi) :
    Rewrites lo hi (fun b => Binding.writeEvery exact v size period offset offset b) o t
      (updateItv exact offset (size + offset - 1) size v o t) (Debug.updateItv exact offset (size + offset - 1) size v o t) := by
  refine (rewrites_updateItv hsize exact v h hlo (by omega) (by omega)).congr fun b x => ?_
  rw [Binding.writeEvery]
  by_cases hb : offset ≤ b ∧ b ≤ size + offset - 1
  · rw [Int.emod_eq_of_lt (a := b - offset) (b := size) (by omega) (by omega),
      Int.emod_eq_of_lt (a := b - offset) (b := period) (by omega) (by omega),if_pos hb,if_pos (by omega)]
  · rw [if_neg hb,if_neg (by omega)]

omit hperiod in
theorem rewrites_contiguous (exact : Bool) (v : V) (h : Canon lo hi o t) (hlo : lo ≤ mn) (hle : mn ≤ mx)
    (hhi : mx + size - 1 ≤ hi) (he : size = period) : Rewrites lo hi (fun b => Binding.writeEvery exact v size period mn mx b)
      o t (updateItv exact mn (size + mx - 1) size v o t) (Debug.updateItv exact mn (size + mx - 1) size v o t) := by
  refine (rewrites_updateItv hsize exact v h hlo (by omega) (by omega)).congr fun b x => ?_
  have hlt := Int.emod_lt_of_pos (b - mn) (by omega : 0 < size)
  rw [Binding.writeEvery,← he]
  by_cases hb : mn ≤ b ∧ b ≤ size + mx - 1
  · rw [if_pos hb,if_pos ⟨hb.1,by omega,hlt⟩]
  · rw [if_neg hb,if_neg (by omega)]

theorem rewrites_updateSeries (exact : Bool) (v : V) {fuel : ℕ} (h : Canon lo hi o t) (hlo : lo ≤ mn) (hhi : mx + size - 1 ≤ hi)
    (hmod : mx % period = mn % period) (hle : mn ≤ mx + period) (hfuel : mx - mn + 2 ≤ fuel) (hpos : 1 ≤ fuel) :
    Rewrites lo hi (fun b => Binding.writeEvery exact v size period mn mx b) o t
      (updateSeries exact mx period size v fuel mn o t) (Debug.updateSeries exact mx period size v fuel mn o t) := by
  induction fuel generalizing mn o t with
  | zero => omega
  | succ fuel ih =>
    rw [updateSeries,Debug.updateSeries]
    split
    · rename_i hin
      obtain ⟨o1,t1,h1,h2,h3,h4⟩ := rewrites_one hsize hperiod exact v h hlo (by omega)
      rw [h1,h2]
      have hstep : mx ≠ mn → mn + period ≤ mx := fun hne => add_le_of_emod_eq rfl hmod (by omega)
      have hrest := ih h3 (by omega : lo ≤ mn + period) (by rw [Int.add_emod_right,hmod]) (by omega) (by omega) (by omega)
      exact (hrest.trans h4).congr fun b x => writeEvery_split hsize hperiod rfl (by omega) hin
    · rename_i hout
      exact (rewrites_self h).congr fun b x => (writeEvery_of_lt hmod (by omega) hperiod).symm

theorem rewrites_steps (exact : Bool) (v : V) {n : ℕ} (h : Canon lo hi o t) (hlo : lo ≤ mn)
    (hhi : mn + period * n - period + size - 1 ≤ hi) :
    Rewrites lo hi (fun b => Binding.writeEvery exact v size period mn (mn + period * n - period) b) o t
      ((steps period n mn).foldlM (fun r offset => updateItv exact offset (size + offset - 1) size v r.1 r.2) (o,t))
      ((steps period n mn).foldlM (fun r offset => Debug.updateItv exact offset (size + offset - 1) size v r.1 r.2) (o,t)) := by
  induction n generalizing mn o t with
  | zero =>
    have hmod : (mn + period * (0 : ℕ) - period) % period = mn % period := by simp
    exact (rewrites_self h).congr fun b x => (writeEvery_of_lt hmod (by push_cast; omega) hperiod).symm
  | succ n ih =>
    have hlen : mn + period * (n + 1 : ℕ) - period = mn + period * n := by
      push_cast
      ring
    have hn : 0 ≤ period * n := Int.mul_nonneg (by omega) (by omega)
    rw [hlen] at hhi ⊢
    obtain ⟨o1,t1,h1,h2,h3,h4⟩ := rewrites_one hsize hperiod exact v h hlo (by omega)
    rw [steps,List.foldlM_cons,List.foldlM_cons,h1,h2]
    have hend : mn + period + period * n - period = mn + period * n := by ring
    have hrest := ih h3 (by omega : lo ≤ mn + period) (by omega)
    rw [hend] at hrest
    exact (hrest.trans h4).congr fun b x => writeEvery_split hsize hperiod rfl (by omega) (by omega)

end Rewriting

section Cuts
variable {size period mn mx currOff absMax : ℤ} (hsize : 1 ≤ size) (hperiod : size ≤ period)
  (hmod : mx % period = mn % period) (hle : mn ≤ mx)
include hsize hperiod hmod hle

theorem undoneLeft_spec (currOff : ℤ) : ∃ a, a % period = mn % period ∧ a ≤ mx ∧ mn ≤ a + period ∧ (mn ≤ a → a + size ≤ currOff) ∧
    (mn ≤ a ∧ undoneLeft (mn % period) mn mx period size currOff = some (a,if a = mx then none else some (a + period)) ∨
      a = mn - period ∧ undoneLeft (mn % period) mn mx period size currOff = none) := by
  have h0 := Int.emod_nonneg mn (by omega : period ≠ 0)
  have h1 := Int.emod_lt_of_pos mn (by omega : 0 < period)
  rw [undoneLeft]
  split
  · rename_i hin
    have hcut := roundDownToR_emod (b := currOff - size) h0 h1
    have hup := roundDownToR_le (b := currOff - size) (r := mn % period) (by omega : 0 < period)
    have hlow := le_roundDownToR (b := currOff - size) (by omega : 0 < period) rfl (by omega : mn ≤ currOff - size)
    dsimp only
    split
    · exact ⟨mx,hmod,le_rfl,by omega,by omega,.inl ⟨hle,by rw [if_pos rfl]⟩⟩
    · exact ⟨_,hcut,by omega,by omega,by omega,.inl ⟨hlow,by rw [if_neg (by omega)]⟩⟩
  · exact ⟨mn - period,Int.sub_emod_right ..,by omega,by omega,by omega,.inr ⟨rfl,rfl⟩⟩

theorem undoneRight_spec (absMax : ℤ) : ∃ c, c % period = mn % period ∧ mn ≤ c ∧ c ≤ mx + period ∧ (c ≤ mx → absMax < c) ∧
    (c ≤ mx ∧ undoneRight (mn % period) mn mx period absMax = some (c,if c = mn then none else some (c - period)) ∨
      c = mx + period ∧ undoneRight (mn % period) mn mx period absMax = none) := by
  have h0 := Int.emod_nonneg mn (by omega : period ≠ 0)
  have h1 := Int.emod_lt_of_pos mn (by omega : 0 < period)
  rw [undoneRight]
  split
  · rename_i hin
    have hcut := roundUpToR_emod (b := absMax + 1) h0 h1
    have hlow := le_roundUpToR (b := absMax + 1) (r := mn % period) (by omega : 0 < period)
    have hup := roundUpToR_le (b := absMax + 1) (by omega : 0 < period) hmod (by omega : absMax + 1 ≤ mx)
    dsimp only
    split
    · exact ⟨mn,rfl,le_rfl,by omega,by omega,.inl ⟨hle,by rw [if_pos rfl]⟩⟩
    · exact ⟨_,hcut,by omega,by omega,by omega,.inl ⟨hup,by rw [if_neg (by omega)]⟩⟩
  · exact ⟨mx + period,by rw [Int.add_emod_right,hmod],by omega,le_rfl,by omega,.inr ⟨rfl,rfl⟩⟩

end Cuts

section Recursion
variable [DecidableEq V] [OffsetmapLattice V] {lo hi o size period mn mx : ℤ} {v : V}

theorem node_rebuild {max offl offr rem modu : ℤ} {subl subr : Offsetmap V} {w : V} {o1 o2 : ℤ} {t1 t2 : Offsetmap V}
    {f g : ℤ → Binding V → Binding V} (h : Canon lo hi o (.node max offl subl offr subr rem modu w))
    (hf : ∀ b x, o ≤ b → f b x = x) (hg : ∀ b x, b ≤ o + max → g b x = x) (h1 : Canon lo (o - 1) o1 t1)
    (b1 : ∀ b, bindingAt o1 t1 b = (bindingAt (o + offl) subl b).map (f b)) (h2 : Canon (o + max + 1) hi o2 t2)
    (b2 : ∀ b, bindingAt o2 t2 b = (bindingAt (o + offr) subr b).map (g b)) :
    ∃ o3 t3 o' t', addNode o (o + max) rem modu w o1 t1 = (o3,t3) ∧ union o3 t3 o2 t2 = (o',t') ∧ Canon lo hi o' t' ∧
      ∀ b, bindingAt o' t' b = (bindingAt o (.node max offl subl offr subr rem modu w) b).map fun x => g b (f b x) := by
  obtain ⟨hmax,hl,hr,hok,-⟩ := h.node_parts
  obtain ⟨o3,t3,c1,c2,c3⟩ := addNode_right_bindings (v := w) h1 (by omega : o ≤ o + max) (.inr ⟨hok.1,hok.2.1⟩)
  obtain ⟨o4,t4,d1,d2,d3⟩ := union_bindings c2 h2
  refine ⟨o3,t3,o4,t4,c1,d1,d2,fun b => ?_⟩
  have hroot : Binding.normalize ⟨w,modu,(b - (o + rem)) % modu⟩ = (⟨o,o + max,rem,modu,w⟩ : Seg V).bind b := by
    rw [← newSeg_bind o (o + max),newSeg_eq hok]
  rw [d3,c3,hroot,b1,b2,bindingAt,bindingAt,bindingAt,segs,bindings_append,bindings]
  by_cases hb : b ≤ o + max
  · rw [if_pos hb]
    by_cases hb' : o ≤ b
    · rw [if_pos ⟨hb',hb⟩,if_pos ⟨hb',hb⟩,hl.1.tiles.bindings_none (by omega),Option.none_or,Option.map_some,hf b _ hb',
        hg b _ hb]
    · rw [if_neg (by omega),if_neg (fun h => hb' h.1),hr.1.tiles.bindings_none (by omega),Option.or_none]
      simp only [hg b _ hb]
  · rw [if_neg hb,if_neg (fun h => hb h.2),hl.1.tiles.bindings_none (by omega),Option.none_or]
    simp only [hf b _ (by omega)]

theorem rewrites_root (exact : Bool) (v : V) (hsize : 1 ≤ size) (hperiod : size ≤ period) {a c o' : ℤ} {t t' : Offsetmap V}
    (h : Canon lo hi o' t') (hlo : lo ≤ mn) (hhi : mx + size - 1 ≤ hi) (hmod : mx % period = mn % period) (hle : mn ≤ mx)
    (a1 : a % period = mn % period) (a2 : a ≤ mx) (a3 : mn ≤ a + period) (c1 : c % period = mn % period) (c2 : mn ≤ c)
    (c3 : c ≤ mx + period) (hac : a < c) (hroot : a = mn - period ∨ c = mx + period ∨ a + size < c)
    (hb : ∀ b, bindingAt o' t' b = (bindingAt o t b).map fun x =>
      (x.writeEvery exact v size period mn a b).writeEvery exact v size period c mx b) :
    Rewrites lo hi (fun b => Binding.writeEvery exact v size period mn mx b) o t
      (match (if a = mx then none else some (a + period)),(if c = mn then none else some (c - period)) with
      | some min,some max =>
        if size = period then updateItv exact min (size + max - 1) size v o' t'
        else updateSeries exact max period size v ((max - min).toNat + 2) min o' t'
      | _,_ => some (o',t'))
      (match (if a = mx then none else some (a + period)),(if c = mn then none else some (c - period)) with
      | some min,some max =>
        if size = period then Debug.updateItv exact min (size + max - 1) size v o' t'
        else Debug.updateSeries exact max period size v ((max - min).toNat + 2) min o' t'
      | _,_ => some (o',t')) := by
  have hnext : a + period ≤ c := add_le_of_emod_eq a1 c1 hac
  have hmin : (a + period) % period = mn % period := by rw [Int.add_emod_right,a1]
  have hmax : (c - period) % period = (a + period) % period := by rw [Int.sub_emod_right,c1,hmin]
  by_cases ha : a = mx
  · -- all the writes are on the left
    subst ha
    rw [if_pos rfl]
    refine ⟨o',t',rfl,rfl,h,fun b => ?_⟩
    have hc : ∀ x : Binding V, x.writeEvery exact v size period c a b = x :=
      fun x => writeEvery_of_lt (a1.trans c1.symm) hac hperiod
    rw [hb]
    simp only [hc]
  by_cases hc : c = mn
  · -- all the writes are on the right
    subst hc
    rw [if_neg ha,if_pos rfl]
    refine ⟨o',t',rfl,rfl,h,fun b => ?_⟩
    have ha : ∀ x : Binding V, x.writeEvery exact v size period c a b = x := fun x => writeEvery_of_lt a1 hac hperiod
    rw [hb]
    simp only [ha]
  rw [if_neg ha,if_neg hc]
  have hjoin : ∀ (b : ℤ) (x : Binding V), ((x.writeEvery exact v size period mn a b).writeEvery exact v size period c mx b).writeEvery exact v size
      period (a + period) (c - period) b = x.writeEvery exact v size period mn mx b := by
    intro b x
    have hsplit : ((x.writeEvery exact v size period mn a b).writeEvery exact v size period (a + period) (c - period) b).writeEvery
        exact v size period (c - period + period) mx b =
        (x.writeEvery exact v size period mn a b).writeEvery exact v size period (a + period) mx b :=
      writeEvery_split hsize hperiod hmax (by omega) (by omega)
    rw [sub_add_cancel] at hsplit
    rw [writeEvery_comm (by omega),hsplit,writeEvery_split hsize hperiod a1 a3 a2]
  by_cases he : size = period
  · have hmid : a + period ≤ c - period := by
      have hlt : a + period < c := by omega
      have := add_le_of_emod_eq hmin c1 hlt
      omega
    simp only [if_pos he]
    exact ((rewrites_contiguous hsize exact v h (by omega) hmid (by omega) he).trans hb).congr hjoin
  · simp only [if_neg he]
    exact ((rewrites_updateSeries hsize hperiod exact v h (by omega) (by omega) hmax (by omega) (by push_cast; omega)
      (by omega)).trans hb).congr hjoin

theorem updateItvsAux_rewrites (exact : Bool) (v : V) (hsize : 1 ≤ size) (hperiod : size ≤ period) {t : Offsetmap V}
    (h : Canon lo hi o t) (hlo : lo ≤ mn) (hle : mn ≤ mx) (hhi : mx + size - 1 ≤ hi) (hmod : mx % period = mn % period) :
    Rewrites lo hi (fun b => Binding.writeEvery exact v size period mn mx b) o t
      (updateItvsAux exact (mn % period) period size v mn mx o t)
      (Debug.updateItvsAux exact (mn % period) period size v mn mx o t) := by
  induction t generalizing lo hi o mn mx with
  | empty =>
    obtain ⟨-,rfl⟩ := h.1
    omega
  | node max offl subl offr subr rem modu w ihl ihr =>
    obtain ⟨hmax,hl,hr,hok,-⟩ := h.node_parts
    obtain ⟨a,a1,a2,a3,a4,ha⟩ := undoneLeft_spec hsize hperiod hmod hle o
    obtain ⟨c,c1,c2,c3,c4,hc⟩ := undoneRight_spec hsize hperiod hmod hle (o + max)
    -- the writes on the left
    have hleft : ∃ o1 t1, Canon lo (o - 1) o1 t1 ∧
        (∀ b, bindingAt o1 t1 b = (bindingAt (o + offl) subl b).map (Binding.writeEvery exact v size period mn a b)) ∧
        (undoneLeft (mn % period) mn mx period size o = some (a,if a = mx then none else some (a + period)) ∧
            updateItvsAux exact (mn % period) period size v mn a (offl + o) subl = some (o1,t1) ∧
            Debug.updateItvsAux exact (mn % period) period size v mn a (offl + o) subl = some (o1,t1) ∨
          undoneLeft (mn % period) mn mx period size o = none ∧ offl + o = o1 ∧ subl = t1 ∧
            some mn = if a = mx then none else some (a + period)) := by
      rw [add_comm o offl] at hl ⊢
      rcases ha with ⟨ha,he⟩ | ⟨rfl,he⟩
      · obtain ⟨o1,t1,e1,e2,e3,e4⟩ := ihl hl hlo ha (by omega) a1
        exact ⟨o1,t1,e3,e4,.inl ⟨he,e1,e2⟩⟩
      · have hself : ∀ b, Binding.writeEvery exact v size period mn (mn - period) b = id :=
          fun b => funext fun x => writeEvery_of_lt a1 (by omega) hperiod
        refine ⟨offl + o,subl,hl,fun b => ?_,.inr ⟨he,rfl,rfl,?_⟩⟩
        · rw [hself,Option.map_id,id]
        · rw [if_neg (by omega),sub_add_cancel]
    -- the writes on the right
    have hright : ∃ o2 t2, Canon (o + max + 1) hi o2 t2 ∧
        (∀ b, bindingAt o2 t2 b = (bindingAt (o + offr) subr b).map (Binding.writeEvery exact v size period c mx b)) ∧
        (undoneRight (mn % period) mn mx period (o + max) = some (c,if c = mn then none else some (c - period)) ∧
            updateItvsAux exact (mn % period) period size v c mx (offr + o) subr = some (o2,t2) ∧
            Debug.updateItvsAux exact (mn % period) period size v c mx (offr + o) subr = some (o2,t2) ∨
          undoneRight (mn % period) mn mx period (o + max) = none ∧ offr + o = o2 ∧ subr = t2 ∧
            some mx = if c = mn then none else some (c - period)) := by
      rw [add_comm o offr] at hr ⊢
      rcases hc with ⟨hc,he⟩ | ⟨rfl,he⟩
      · obtain ⟨o2,t2,e1,e2,e3,e4⟩ := ihr hr (by omega) hc hhi (hmod.trans c1.symm)
        rw [c1] at e1 e2
        exact ⟨o2,t2,e3,e4,.inl ⟨he,e1,e2⟩⟩
      · have hself : ∀ b, Binding.writeEvery exact v size period (mx + period) mx b = id :=
          fun b => funext fun x => writeEvery_of_lt (hmod.trans c1.symm) (by omega) hperiod
        refine ⟨offr + o,subr,hr,fun b => ?_,.inr ⟨he,rfl,rfl,?_⟩⟩
        · rw [hself,Option.map_id,id]
        · rw [if_neg (by omega),add_sub_cancel_right]
    obtain ⟨o1,t1,l1,l2,hl'⟩ := hleft
    obtain ⟨o2,t2,r1,r2,hr'⟩ := hright
    have hf : ∀ b (x : Binding V), o ≤ b → x.writeEvery exact v size period mn a b = x := fun b x hb => if_neg (by omega)
    have hg : ∀ b (x : Binding V), b ≤ o + max → x.writeEvery exact v size period c mx b = x := fun b x hb => if_neg (by omega)
    obtain ⟨o3,t3,o4,t4,k1,k2,k3,k4⟩ := node_rebuild h hf hg l1 l2 r1 r2
    have hroot := rewrites_root exact v hsize hperiod k3 hlo hhi hmod hle a1 a2 a3 c1 c2 c3 (by omega) (by omega) k4
    rw [updateItvsAux,Debug.updateItvsAux]
    dsimp only
    rcases hl' with ⟨l3,l4,l5⟩ | ⟨l3,rfl,rfl,l4⟩
    · rcases hr' with ⟨r3,r4,r5⟩ | ⟨r3,rfl,rfl,r4⟩
      · simp only [l3,l4,l5,r3,r4,r5,Option.map_eq_map,Option.map_some,Option.bind_eq_bind,Option.bind_some,
          Debug.addNode_eq (by omega : o ≤ o + max),k1,k2]
        exact hroot
      · rw [← r4] at hroot
        simp only [l3,l4,l5,r3,Option.map_eq_map,Option.map_some,Option.bind_eq_bind,Option.bind_some,
          Debug.addNode_eq (by omega : o ≤ o + max),k1,k2]
        exact hroot
    · rw [← l4] at hroot
      rcases hr' with ⟨r3,r4,r5⟩ | ⟨r3,rfl,rfl,r4⟩
      · simp only [l3,r3,r4,r5,Option.map_eq_map,Option.map_some,Option.bind_eq_bind,Option.bind_some,
          Debug.addNode_eq (by omega : o ≤ o + max),k1,k2]
        exact hroot
      · rw [← r4] at hroot
        simp only [l3,r3,Option.bind_eq_bind,Option.bind_some,Debug.addNode_eq (by omega : o ≤ o + max),k1,k2]
        exact hroot

/-- A series of writes binds every bit as its writes one after the other do, and no assertion of the debug mode fails. -/
theorem updateItvs_eq_updates {t : Offsetmap V} (h : WellFormed o t) (hb : boundsOffset o t = (lo,hi)) (hsize : 1 ≤ size)
    (hperiod : size ≤ period) {n : ℕ} (hmx : mx = mn + period * n) (hlo : lo ≤ mn) (hhi : mx + size - 1 ≤ hi) (exact : Bool)
    (v : V) : ∃ r r', updateItvs exact mn mx period size v o t = some r ∧ Debug.updateItvs exact mn mx period size v o t = some r ∧
      (steps period (n + 1) mn).foldlM (fun r offset => updateItv exact offset (size + offset - 1) size v r.1 r.2) (o,t) =
        some r' ∧ ∀ b, bindingAt r.1 r.2 b = bindingAt r'.1 r'.2 b := by
  have hcanon : Canon lo hi o t := spanning_iff_canon.mp ⟨h,hb⟩
  have hn : 0 ≤ period * n := Int.mul_nonneg (by omega) (by omega)
  have hmod : mx % period = mn % period := by rw [hmx,Int.add_mul_emod_self_left]
  have hlast : mn + period * (n + 1 : ℕ) - period = mx := by
    rw [hmx]
    push_cast
    ring
  obtain ⟨o1,t1,e1,e2,-,e4⟩ := updateItvsAux_rewrites exact v hsize hperiod hcanon hlo (by omega) hhi hmod
  have hsteps := rewrites_steps (n := n + 1) hsize hperiod exact v hcanon hlo (by omega)
  obtain ⟨o2,t2,g1,-,-,g4⟩ := hsteps
  rw [hlast] at g4
  refine ⟨(o1,t1),(o2,t2),?_,?_,g1,fun b => (e4 b).trans (g4 b).symm⟩
  · rw [updateItvs,if_pos (by omega),e1]
  · rw [Debug.updateItvs,if_pos (by omega),e2]

theorem updateItvs_eq_updates_bytes : ∃ r r',
    updateItvs false 0 24 8 4 true 0 (addNode 12 31 0 1 true 0 (intervalAux 11 0 1 false)).2 = some r ∧
    Debug.updateItvs false 0 24 8 4 true 0 (addNode 12 31 0 1 true 0 (intervalAux 11 0 1 false)).2 = some r ∧
    (steps 8 4 0).foldlM (fun r offset => updateItv false offset (4 + offset - 1) 4 true r.1 r.2)
      (0,(addNode 12 31 0 1 true 0 (intervalAux 11 0 1 false)).2) = some r' ∧
    ∀ b, bindingAt r.1 r.2 b = bindingAt r'.1 r'.2 b := by
  have hspan : Spanning 0 31 (addNode 12 31 0 1 true 0 (intervalAux 11 0 1 false)) :=
    spanning_addNode_right (spanning_iff_canon.mpr (intervalAux_spec (show (0 : ℤ) ≤ 11 by omega) (.inl rfl)).1)
      (by omega) (.inl rfl)
  exact updateItvs_eq_updates (n := 3) hspan.1 hspan.2 (by omega) (by omega) (by omega) (by omega) (by omega) false true

end Recursion

end FramaC.Offsetmap
