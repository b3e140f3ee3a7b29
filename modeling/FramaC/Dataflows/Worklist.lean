import FramaC.Lib.Outcome

/-! # The worklist of the dataflow solvers

A bit vector scanned from a moving position, with a restart point in the current component. Statements are their numbers;
in the backward direction the positions are reversed. `connectedComponent` is the numbering of the components.
-/
namespace FramaC.Dataflows
open Outcome

inductive Direction
  | forward
  | backward
  deriving DecidableEq, Repr

inductive Exn
  | assertFailure
  | invalidArgument
  deriving DecidableEq, Repr

structure Worklist (n : ℕ) where
  bv : Finset (Fin n)
  next : ℤ
  currentScc : ℤ
  mustRestartScc : Option (Fin n)

def rev (n : ℕ) (dir : Direction) (x : ℤ) : ℤ :=
  match dir with
  | .forward => x
  | .backward => n - 1 - x

def revStmt {n : ℕ} (dir : Direction) (i : Fin n) : Fin n :=
  match dir with
  | .forward => i
  | .backward => i.rev

def getNext (dir : Direction) (x : ℤ) : ℤ :=
  match dir with
  | .forward => x + 1
  | .backward => x - 1

def isFurther (dir : Direction) (a b : ℤ) : Bool :=
  match dir with
  | .forward => decide (a ≥ b)
  | .backward => decide (a ≤ b)

def isStrictlyNearer (dir : Direction) (a b : ℤ) : Bool :=
  match dir with
  | .forward => decide (a < b)
  | .backward => decide (a > b)

def nearest {n : ℕ} (dir : Direction) (a b : Fin n) : Fin n :=
  match dir with
  | .forward => min a b
  | .backward => max a b

section Operations
variable {n : ℕ} (dir : Direction) (connectedComponent : Fin n → ℤ)

/-- The bit vector has at most `2 ^ 20` bytes, and the array of components is read at the first statement. -/
def Worklist.create : Except Exn (Worklist n) :=
  if (n + 7) / 8 > 2 ^ 20 then .error .invalidArgument
  else if h : 0 < n then
    let first : Fin n := match dir with
      | .forward => ⟨0,h⟩
      | .backward => ⟨n - 1,by omega⟩
    .ok { bv := ∅, next := first, currentScc := connectedComponent first, mustRestartScc := none }
  else .error .invalidArgument

def Worklist.inWorklist (w : Worklist n) (ord : Fin n) : Bool := decide (revStmt dir ord ∈ w.bv)

def Worklist.insert (w : Worklist n) (ord : Fin n) : Except Exn (Worklist n) :=
  if isFurther dir ord w.next || decide (connectedComponent ord = w.currentScc) then
    .ok { w with
      bv := Insert.insert (revStmt dir ord) w.bv
      mustRestartScc :=
        if isStrictlyNearer dir ord w.next then
          match w.mustRestartScc with
          | none => some ord
          | some x => some (nearest dir ord x)
        else w.mustRestartScc }
  else .error .assertFailure

/-- `find_next_true`, or none where it raises `Not_found`. -/
def Worklist.findNextTrue (w : Worklist n) (current : ℤ) : Option (Fin n) :=
  ((List.finRange n).find? fun i : Fin n => decide (rev n dir current ≤ (i : ℤ) ∧ i ∈ w.bv)).map (revStmt dir)

def Worklist.select (w : Worklist n) (i : Fin n) : Option (Fin n) × Worklist n :=
  (some i,{ w with bv := w.bv.erase (revStmt dir i), next := getNext dir i })

def Worklist.selectRestartScc (w : Worklist n) (i : Fin n) : Except Exn (Option (Fin n) × Worklist n) :=
  if connectedComponent i = w.currentScc then .ok ({ w with mustRestartScc := none }.select dir i)
  else .error .assertFailure

def Worklist.selectNewScc (w : Worklist n) (i : Fin n) : Except Exn (Option (Fin n) × Worklist n) :=
  if connectedComponent i ≠ w.currentScc then
    .ok ({ w with currentScc := connectedComponent i, mustRestartScc := none }.select dir i)
  else .error .assertFailure

def Worklist.selectSameScc (w : Worklist n) (i : Fin n) : Except Exn (Option (Fin n) × Worklist n) :=
  if connectedComponent i = w.currentScc then .ok (w.select dir i) else .error .assertFailure

def Worklist.extract (w : Worklist n) : Except Exn (Option (Fin n) × Worklist n) :=
  match w.findNextTrue dir w.next with
  | some nextTrue =>
    if connectedComponent nextTrue = w.currentScc then w.selectSameScc dir connectedComponent nextTrue
    else
      match w.mustRestartScc with
      | none => w.selectNewScc dir connectedComponent nextTrue
      | some i => w.selectRestartScc dir connectedComponent i
  | none =>
    match w.mustRestartScc with
    | none => .ok (none,w)
    | some i => w.selectRestartScc dir connectedComponent i

end Operations

section Positions
variable {n : ℕ} (dir : Direction)

theorem revStmt_val (i : Fin n) : ((revStmt dir i : Fin n) : ℤ) = rev n dir i := by
  cases dir with
  | forward => rfl
  | backward =>
    have hi := i.isLt
    simp only [revStmt,rev,Fin.val_rev]
    omega

theorem revStmt_revStmt (i : Fin n) : revStmt dir (revStmt dir i) = i := by
  cases dir with
  | forward => rfl
  | backward => exact Fin.rev_rev i

theorem rev_getNext {dir : Direction} (x : ℤ) : rev n dir (getNext dir x) = rev n dir x + 1 := by
  cases dir with
  | forward => rfl
  | backward =>
    simp only [rev,getNext]
    omega

theorem isFurther_iff {dir : Direction} {a b : ℤ} : isFurther dir a b = true ↔ rev n dir b ≤ rev n dir a := by
  cases dir with
  | forward => simp [isFurther,rev]
  | backward =>
    simp only [isFurther,rev,decide_eq_true_iff]
    omega

theorem isStrictlyNearer_iff {dir : Direction} {a b : ℤ} : isStrictlyNearer dir a b = true ↔ rev n dir a < rev n dir b := by
  cases dir with
  | forward => simp [isStrictlyNearer,rev]
  | backward =>
    simp only [isStrictlyNearer,rev,decide_eq_true_iff]
    omega

theorem nearest_spec (a b : Fin n) : (nearest dir a b = a ∧ rev n dir a ≤ rev n dir b) ∨
    (nearest dir a b = b ∧ rev n dir b ≤ rev n dir a) := by
  cases dir with
  | forward =>
    simp only [nearest,rev]
    rcases le_total a b with h | h
    · exact Or.inl ⟨min_eq_left h,by exact_mod_cast h⟩
    · exact Or.inr ⟨min_eq_right h,by exact_mod_cast h⟩
  | backward =>
    simp only [nearest,rev]
    rcases le_total a b with h | h
    · refine Or.inr ⟨max_eq_right h,?_⟩
      have : (a : ℤ) ≤ b := by exact_mod_cast h
      omega
    · refine Or.inl ⟨max_eq_left h,?_⟩
      have : (b : ℤ) ≤ a := by exact_mod_cast h
      omega

theorem rev_injective {dir : Direction} {a b : Fin n} (h : rev n dir a = rev n dir b) : a = b := by
  cases dir with
  | forward =>
    simp only [rev] at h
    exact Fin.ext (by omega)
  | backward =>
    simp only [rev] at h
    exact Fin.ext (by omega)

end Positions

/-- A statement behind the scan position waits for the restart, which is a pending statement of the current component. -/
structure Worklist.Inv {n : ℕ} (dir : Direction) (connectedComponent : Fin n → ℤ) (w : Worklist n) : Prop where
  behind : ∀ i : Fin n, w.inWorklist dir i = true → rev n dir i < rev n dir w.next →
    ∃ x, w.mustRestartScc = some x ∧ rev n dir x ≤ rev n dir i
  restart : ∀ x, w.mustRestartScc = some x →
    w.inWorklist dir x = true ∧ rev n dir x < rev n dir w.next ∧ connectedComponent x = w.currentScc

section Invariant
variable {n : ℕ} {dir : Direction} {connectedComponent : Fin n → ℤ} {w : Worklist n}

theorem inWorklist_iff {i : Fin n} : w.inWorklist dir i = true ↔ revStmt dir i ∈ w.bv := by
  simp [Worklist.inWorklist]

theorem revStmt_injective {i j : Fin n} (h : revStmt dir i = revStmt dir j) : i = j := by
  rw [← revStmt_revStmt dir i,h,revStmt_revStmt]

theorem findNextTrue_some {i : Fin n} (h : w.findNextTrue dir w.next = some i) : w.inWorklist dir i = true ∧
    rev n dir w.next ≤ rev n dir i ∧
    ∀ j, w.inWorklist dir j = true → rev n dir w.next ≤ rev n dir j → rev n dir i ≤ rev n dir j := by
  obtain ⟨k,hk,rfl⟩ := Option.map_eq_some_iff.mp h
  rw [List.find?_eq_some_iff_getElem] at hk
  obtain ⟨hp,idx,hidx,hget,hbefore⟩ := hk
  rw [decide_eq_true_iff] at hp
  rw [inWorklist_iff,← revStmt_val,revStmt_revStmt]
  refine ⟨hp.2,hp.1,?_⟩
  intro j hj hle
  rw [inWorklist_iff] at hj
  rw [← revStmt_val] at hle ⊢
  by_contra hlt
  have hkidx : (k : ℕ) = idx := by
    rw [← hget]
    simp
  have hlt' : ((revStmt dir j : Fin n) : ℕ) < idx := by omega
  have hno := hbefore _ hlt'
  simp only [List.getElem_finRange,Fin.cast_mk,Fin.eta,Bool.not_eq_true',decide_eq_false_iff_not] at hno
  exact hno ⟨hle,hj⟩

theorem findNextTrue_none (h : w.findNextTrue dir w.next = none) {j : Fin n} (hj : w.inWorklist dir j = true) :
    rev n dir j < rev n dir w.next := by
  rw [Worklist.findNextTrue,Option.map_eq_none_iff,List.find?_eq_none] at h
  by_contra hle
  refine h (revStmt dir j) (List.mem_finRange _) ?_
  rw [decide_eq_true_iff]
  refine ⟨?_,(inWorklist_iff).mp hj⟩
  have hval := revStmt_val dir j
  omega

theorem insert_spec (h : w.Inv dir connectedComponent) {ord : Fin n}
    (hord : rev n dir w.next ≤ rev n dir ord ∨ connectedComponent ord = w.currentScc) :
    ∃ w', w.insert dir connectedComponent ord = .ok w' ∧ w'.Inv dir connectedComponent ∧ w'.next = w.next ∧
      w'.currentScc = w.currentScc ∧
      ∀ i, w'.inWorklist dir i = true ↔ i = ord ∨ w.inWorklist dir i = true := by
  have hcond : (isFurther dir ord w.next || decide (connectedComponent ord = w.currentScc)) = true := by
    rw [Bool.or_eq_true,isFurther_iff (n := n),decide_eq_true_iff]
    exact hord
  refine ⟨_,if_pos hcond,⟨?_,?_⟩,rfl,rfl,?_⟩
  · intro i hi hlt
    rw [inWorklist_iff,Finset.mem_insert] at hi
    -- the restart point is the nearest of the statements behind the position
    have hold : i ≠ ord → ∃ x, w.mustRestartScc = some x ∧ rev n dir x ≤ rev n dir i := fun hne =>
      h.behind i (inWorklist_iff.mpr (hi.resolve_left fun he => hne (revStmt_injective he))) hlt
    by_cases hn : isStrictlyNearer dir ord w.next = true
    · rw [if_pos hn]
      cases hm : w.mustRestartScc with
      | none =>
        by_cases hio : i = ord
        · exact ⟨ord,rfl,by rw [hio]⟩
        · obtain ⟨x,hx,_⟩ := hold hio
          rw [hm] at hx
          cases hx
      | some x =>
        refine ⟨_,rfl,?_⟩
        by_cases hio : i = ord
        · rcases nearest_spec dir ord x with ⟨he,_⟩ | ⟨he,hle⟩
          · rw [he,hio]
          · rw [he,hio]
            exact hle
        · obtain ⟨y,hy,hyi⟩ := hold hio
          rw [hm] at hy
          cases hy
          rcases nearest_spec dir ord x with ⟨he,hle⟩ | ⟨he,_⟩
          · rw [he]
            exact hle.trans hyi
          · rw [he]
            exact hyi
    · rw [if_neg hn]
      refine hold fun hio => hn ?_
      rw [isStrictlyNearer_iff (n := n),← hio]
      exact hlt
  · intro x hx
    have hkeep : ∀ y, w.mustRestartScc = some y → revStmt dir y ∈ Insert.insert (revStmt dir ord) w.bv ∧
        rev n dir y < rev n dir w.next ∧ connectedComponent y = w.currentScc := by
      intro y hy
      obtain ⟨h1,h2,h3⟩ := h.restart y hy
      exact ⟨Finset.mem_insert_of_mem (inWorklist_iff.mp h1),h2,h3⟩
    rw [inWorklist_iff]
    by_cases hn : isStrictlyNearer dir ord w.next = true
    · rw [if_pos hn] at hx
      rw [isStrictlyNearer_iff (n := n)] at hn
      have hnew : revStmt dir ord ∈ Insert.insert (revStmt dir ord) w.bv ∧ rev n dir ord < rev n dir w.next ∧
          connectedComponent ord = w.currentScc :=
        ⟨Finset.mem_insert_self _ _,hn,hord.resolve_left (by omega)⟩
      cases hm : w.mustRestartScc with
      | none =>
        rw [hm] at hx
        cases hx
        exact hnew
      | some y =>
        rw [hm] at hx
        cases hx
        rcases nearest_spec dir ord y with ⟨he,_⟩ | ⟨he,_⟩
        · rw [he]
          exact hnew
        · rw [he]
          exact hkeep y hm
    · rw [if_neg hn] at hx
      exact hkeep x hx
  · intro i
    rw [inWorklist_iff,inWorklist_iff,Finset.mem_insert]
    refine or_congr_left ⟨revStmt_injective,fun he => he ▸ rfl⟩

/-- What an extraction of a statement leaves. -/
structure Extracted (dir : Direction) (connectedComponent : Fin n → ℤ) (w : Worklist n) (i : Fin n) (w' : Worklist n) :
    Prop where
  inv : w'.Inv dir connectedComponent
  pending : w.inWorklist dir i = true
  next : w'.next = getNext dir i
  scc : w'.currentScc = connectedComponent i
  rest : ∀ j, w'.inWorklist dir j = true ↔ j ≠ i ∧ w.inWorklist dir j = true

theorem inWorklist_erase {i j : Fin n} :
    revStmt dir j ∈ w.bv.erase (revStmt dir i) ↔ j ≠ i ∧ w.inWorklist dir j = true := by
  rw [Finset.mem_erase,inWorklist_iff]
  exact and_congr_left fun _ => not_congr ⟨revStmt_injective,fun he => he ▸ rfl⟩

theorem selectRestartScc_spec (h : w.Inv dir connectedComponent) {i : Fin n} (hm : w.mustRestartScc = some i) :
    ∃ w', w.selectRestartScc dir connectedComponent i = .ok (some i,w') ∧ Extracted dir connectedComponent w i w' := by
  obtain ⟨hpend,hlt,hscc⟩ := h.restart i hm
  refine ⟨_,if_pos hscc,⟨⟨?_,?_⟩,hpend,rfl,hscc.symm,?_⟩⟩
  · intro j hj hjn
    rw [inWorklist_iff] at hj
    have hj := (inWorklist_erase).mp hj
    have hjn : rev n dir j < rev n dir (getNext dir i) := hjn
    rw [rev_getNext] at hjn
    exfalso
    have hjlt : rev n dir j < rev n dir w.next := by omega
    obtain ⟨x,hx,hxj⟩ := h.behind j hj.2 hjlt
    rw [hm] at hx
    cases hx
    exact hj.1 (rev_injective (by omega : rev n dir j = rev n dir i))
  · intro x hx
    cases hx
  · intro j
    rw [inWorklist_iff]
    exact inWorklist_erase

theorem extract_spec (h : w.Inv dir connectedComponent) :
    (w.extract dir connectedComponent = .ok (none,w) ∧ ∀ i, w.inWorklist dir i = false) ∨
      ∃ i w', w.extract dir connectedComponent = .ok (some i,w') ∧ Extracted dir connectedComponent w i w' := by
  unfold Worklist.extract
  cases hf : w.findNextTrue dir w.next with
  | none =>
    cases hm : w.mustRestartScc with
    | none =>
      refine Or.inl ⟨rfl,?_⟩
      intro i
      rw [Bool.eq_false_iff]
      intro hi
      obtain ⟨x,hx,_⟩ := h.behind i hi (findNextTrue_none hf hi)
      rw [hm] at hx
      cases hx
    | some i =>
      obtain ⟨w',hw',hex⟩ := selectRestartScc_spec h hm
      exact Or.inr ⟨i,w',hw',hex⟩
  | some i =>
    obtain ⟨hpend,hle,hfirst⟩ := findNextTrue_some hf
    -- no other statement is pending between the position and the one found
    have hbehind : ∀ j : Fin n, j ≠ i → w.inWorklist dir j = true → rev n dir j < rev n dir (getNext dir i) →
        rev n dir j < rev n dir w.next := by
      intro j hne hj hlt
      rw [rev_getNext] at hlt
      by_contra hge
      have hij := hfirst j hj (by omega)
      exact hne (rev_injective (by omega : rev n dir j = rev n dir i))
    by_cases hscc : connectedComponent i = w.currentScc
    · simp only [if_pos hscc,Worklist.selectSameScc]
      refine Or.inr ⟨i,_,rfl,⟨⟨?_,?_⟩,hpend,rfl,hscc.symm,?_⟩⟩
      · intro j hj hjn
        rw [inWorklist_iff] at hj
        have hj := (inWorklist_erase).mp hj
        exact h.behind j hj.2 (hbehind j hj.1 hj.2 hjn)
      · intro x hx
        obtain ⟨hxp,hxn,hxs⟩ := h.restart x hx
        have hne : x ≠ i := by
          rintro rfl
          omega
        rw [inWorklist_iff]
        refine ⟨(inWorklist_erase).mpr ⟨hne,hxp⟩,?_,hxs⟩
        change rev n dir x < rev n dir (getNext dir i)
        rw [rev_getNext]
        omega
      · intro j
        rw [inWorklist_iff]
        exact inWorklist_erase
    · simp only [if_neg hscc]
      cases hm : w.mustRestartScc with
      | none =>
        simp only [Worklist.selectNewScc,ne_eq,hscc,not_false_iff,if_true]
        refine Or.inr ⟨i,_,rfl,⟨⟨?_,?_⟩,hpend,rfl,rfl,?_⟩⟩
        · intro j hj hjn
          rw [inWorklist_iff] at hj
          have hj := (inWorklist_erase).mp hj
          obtain ⟨x,hx,_⟩ := h.behind j hj.2 (hbehind j hj.1 hj.2 hjn)
          rw [hm] at hx
          cases hx
        · intro x hx
          cases hx
        · intro j
          rw [inWorklist_iff]
          exact inWorklist_erase
      | some x =>
        obtain ⟨w',hw',hex⟩ := selectRestartScc_spec h hm
        exact Or.inr ⟨x,w',hw',hex⟩

end Invariant

inductive Op (n : ℕ)
  | inserted (i : Fin n)
  | extracted (i : Fin n)

/-- The worklists reached by insertions that pass their assertion and by extractions. -/
inductive Worklist.Reach {n : ℕ} (dir : Direction) (connectedComponent : Fin n → ℤ) : List (Op n) → Worklist n → Prop
  | create {w : Worklist n} : Worklist.create dir connectedComponent = .ok w → Reach dir connectedComponent [] w
  | insert {hist : List (Op n)} {w w' : Worklist n} {i : Fin n} : Reach dir connectedComponent hist w →
      w.insert dir connectedComponent i = .ok w' → Reach dir connectedComponent (hist ++ [.inserted i]) w'
  | extract {hist : List (Op n)} {w w' : Worklist n} {i : Fin n} : Reach dir connectedComponent hist w →
      w.extract dir connectedComponent = .ok (some i,w') → Reach dir connectedComponent (hist ++ [.extracted i]) w'

section Histories
variable {n : ℕ} {dir : Direction} {connectedComponent : Fin n → ℤ} {w w' : Worklist n} {hist : List (Op n)}

theorem create_spec (h : Worklist.create dir connectedComponent = .ok w) : w.Inv dir connectedComponent ∧
    rev n dir w.next = 0 ∧ ∀ i, w.inWorklist dir i = false := by
  unfold Worklist.create at h
  split at h
  · cases h
  · split at h
    · rename_i hn
      cases h
      refine ⟨⟨?_,?_⟩,?_,?_⟩
      · intro i hi
        rw [inWorklist_iff] at hi
        cases hi
      · intro x hx
        cases hx
      · cases dir with
        | forward => rfl
        | backward =>
          simp only [rev]
          omega
      · intro i
        rw [Bool.eq_false_iff,ne_eq,inWorklist_iff]
        exact Finset.notMem_empty _
    · cases h

theorem create_ok (h0 : 0 < n) (hn : n ≤ 2 ^ 23) : ∃ w, Worklist.create dir connectedComponent = .ok w := by
  unfold Worklist.create
  rw [if_neg (by omega),dif_pos h0]
  exact ⟨_,rfl⟩

theorem insert_of_ok {i : Fin n} (h : w.insert dir connectedComponent i = .ok w') :
    rev n dir w.next ≤ rev n dir i ∨ connectedComponent i = w.currentScc := by
  unfold Worklist.insert at h
  split at h
  · rename_i hc
    rwa [Bool.or_eq_true,isFurther_iff (n := n),decide_eq_true_iff] at hc
  · cases h

theorem Worklist.Reach.spec (h : Worklist.Reach dir connectedComponent hist w) : w.Inv dir connectedComponent ∧
    ∀ i, .inserted i ∈ hist → w.inWorklist dir i = false →
      ∃ pre post, hist = pre ++ .extracted i :: post ∧ .inserted i ∉ post := by
  induction h with
  | create hc => exact ⟨(create_spec hc).1,fun i hi => absurd hi List.not_mem_nil⟩
  | @insert hist w w' j _ hi ih =>
    obtain ⟨w'',hw'',hinv,_,_,hmem⟩ := insert_spec ih.1 (insert_of_ok hi)
    rw [hi] at hw''
    cases hw''
    refine ⟨hinv,?_⟩
    intro i hin hout
    rw [Bool.eq_false_iff,ne_eq,hmem,not_or] at hout
    have hin : .inserted i ∈ hist := by simpa [hout.1] using hin
    obtain ⟨pre,post,rfl,hpost⟩ := ih.2 i hin (Bool.eq_false_iff.mpr hout.2)
    exact ⟨pre,post ++ [.inserted j],by simp,by simpa [hout.1] using hpost⟩
  | @extract hist w w' j _ he ih =>
    rcases extract_spec ih.1 with ⟨hnone,_⟩ | ⟨k,w'',hw'',hex⟩
    · rw [he] at hnone
      cases hnone
    · rw [he] at hw''
      cases hw''
      refine ⟨hex.inv,?_⟩
      intro i hin hout
      have hin : .inserted i ∈ hist := by simpa using hin
      by_cases hij : i = j
      · subst hij
        exact ⟨hist,[],rfl,by simp⟩
      · rw [Bool.eq_false_iff,ne_eq,hex.rest,not_and] at hout
        obtain ⟨pre,post,rfl,hpost⟩ := ih.2 i hin (Bool.eq_false_iff.mpr (hout hij))
        exact ⟨pre,post ++ [.extracted j],by simp,by simpa using hpost⟩

theorem Worklist.Reach.no_loss (h : Worklist.Reach dir connectedComponent hist w) :
    (∃ r, w.extract dir connectedComponent = .ok r) ∧
    ∀ w', w.extract dir connectedComponent = .ok (none,w') → ∀ i, .inserted i ∈ hist →
      ∃ pre post, hist = pre ++ .extracted i :: post ∧ .inserted i ∉ post := by
  obtain ⟨hinv,hlast⟩ := h.spec
  rcases extract_spec hinv with ⟨hnone,hempty⟩ | ⟨i,w'',hsome,_⟩
  · exact ⟨⟨_,hnone⟩,fun _ _ i hi => hlast i hi (hempty i)⟩
  · refine ⟨⟨_,hsome⟩,fun w' he => ?_⟩
    rw [hsome] at he
    cases he

end Histories

end FramaC.Dataflows
