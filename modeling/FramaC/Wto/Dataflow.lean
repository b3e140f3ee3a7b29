import FramaC.Wto.Partition

/-! # Dataflow fixpoints over a weak topological order

The components are iterated one after the other, a loop until the value of its head is stable. The results are a hash
table in which a new value of a vertex hides the old ones, and a removal shows the last of them again.
-/
namespace FramaC.Wto
set_option linter.unusedSectionVars false
variable {N E D : Type} [DecidableEq N]

structure Domain (E D : Type) where
  join : D → D → D
  /-- `none` when the second value is included in the first. -/
  widen : D → D → Option D
  transfer : E → D → Option D

structure Automaton (N E : Type) where
  entryPoint : N
  /-- The edges into a vertex, in the order in which they are folded. -/
  pred : N → List (N × E)
  succ : N → List N
  mem_succ : ∀ u v, v ∈ succ u ↔ ∃ e, (u,e) ∈ pred v

structure Analysis (N E D : Type) extends Domain E D, Automaton N E where
  initialValue : D

/-- The values of each vertex, the visible one first. -/
abbrev Results (N D : Type) := N → List D

namespace Results
def findOpt (r : Results N D) (v : N) : Option D := (r v).head?
def add (r : Results N D) (v : N) (d : D) : Results N D := Function.update r v (d :: r v)
def remove (r : Results N D) (v : N) : Results N D := Function.update r v (r v).tail
end Results

/-- `while condition do body done`, at most `fuel` times. -/
def whileLoop {S : Type} (condition : S → S × Bool) (body : S → Option S) : ℕ → S → Option S
  | 0,_ => none
  | fuel + 1,s =>
    if (condition s).2 then (body (condition s).1).bind (whileLoop condition body fuel) else some (condition s).1

namespace Analysis
variable (A : Analysis N E D)

def processEdge (r : Results N D) (acc : List D) (edge : N × E) : List D :=
  match r.findOpt edge.1 with
  | none => acc
  | some value =>
    match A.transfer edge.2 value with
    | none => acc
    | some newValue => newValue :: acc

def incomming (r : Results N D) (v : N) : List D :=
  (if v = A.entryPoint then [A.initialValue] else []) ++ (A.pred v).foldl (A.processEdge r) []

def processVertex (r : Results N D) (v : N) : Results N D :=
  match A.incomming r v with
  | [] => r.remove v
  | v1 :: vl => r.add v (vl.foldl A.join v1)

/-- `widen`: the new results, and whether the iteration must go on. -/
def widenHead (r : Results N D) (v : N) (previous : Option D) : Results N D × Bool :=
  match previous,r.findOpt v with
  | _,none => (r,false)
  | none,some _ => (r,true)
  | some v1,some v2 =>
    match A.widen v1 v2 with
    | none => (r,false)
    | some value => (r.add v value,true)

def processHead (v : N) (r : Results N D) : Results N D × Bool := A.widenHead (A.processVertex r v) v (r.findOpt v)

def iterateList (fuel : ℕ) : Partition N → Results N D → Option (Results N D)
  | [],r => some r
  | .node v :: l,r => iterateList fuel l (A.processVertex r v)
  | .component v w :: l,r => (whileLoop (A.processHead v) (iterateList fuel w) fuel r).bind (iterateList fuel l)

/-- `Dataflow(D).fixpoint`, with loops of at most `fuel` iterations. -/
def fixpoint (fuel : ℕ) (wto : Partition N) : Option (Results N D) := A.iterateList fuel wto fun _ => []

structure Lawful [Preorder D] : Prop where
  le_join_left : ∀ a b, a ≤ A.join a b
  le_join_right : ∀ a b, b ≤ A.join a b
  widen_none : ∀ a b, A.widen a b = none → b ≤ a
  /-- No sequence of widenings is infinite. -/
  widen_wf : WellFounded fun y x => ∃ c, A.widen x c = some y
  transfer_mono : ∀ e a b a', a ≤ b → A.transfer e a = some a' → ∃ b', A.transfer e b = some b' ∧ a' ≤ b'

/-- No edge from the vertices `R` enters a loop but at its head. -/
def Natural (R : Set N) : Partition N → Prop
  | [] => True
  | .node _ :: l => Natural R l
  | .component v w :: l => (∀ x ∈ flatten w, x ≠ A.entryPoint ∧ ∀ p ∈ A.pred x, p.1 ∈ R → p.1 ∈ v :: flatten w) ∧
    Natural R w ∧ Natural R l

/-- No edge leads back to an earlier component of the same list. -/
def Forward : Partition N → Prop
  | [] => True
  | .node v :: l => (∀ p ∈ A.pred v, p.1 ∉ v :: flatten l) ∧ Forward l
  | .component v w :: l => (∀ x ∈ v :: flatten w, ∀ p ∈ A.pred x, p.1 ∉ flatten l) ∧ Forward w ∧ Forward l

variable {A} {r r' : Results N D} {v x : N}

theorem foldl_processEdge (edges : List (N × E)) (acc : List D) : edges.foldl (A.processEdge r) acc =
    (edges.filterMap fun p => (r.findOpt p.1).bind (A.transfer p.2)).reverse ++ acc := by
  induction edges generalizing acc with
  | nil => rfl
  | cons p edges ih =>
    rw [List.foldl_cons,ih,processEdge]
    cases hd : r.findOpt p.1 with
    | none => simp [hd]
    | some d => cases ht : A.transfer p.2 d <;> simp [hd,ht]

theorem mem_incomming {d : D} : d ∈ A.incomming r x ↔ (x = A.entryPoint ∧ d = A.initialValue) ∨
    ∃ p ∈ A.pred x, (r.findOpt p.1).bind (A.transfer p.2) = some d := by
  rw [incomming,foldl_processEdge,List.append_nil,List.mem_append,List.mem_reverse,List.mem_filterMap]
  split <;> simp [*]

theorem processVertex_frame (hx : x ≠ v) : A.processVertex r v x = r x := by
  unfold processVertex
  cases A.incomming r v with
  | nil => exact Function.update_of_ne hx _ _
  | cons v1 vl => exact Function.update_of_ne hx _ _

section Stability
variable [Preorder D]

def Covered (r : Results N D) (v : N) (d : D) : Prop := ∃ c, r.findOpt v = some c ∧ d ≤ c

/-- The value of a vertex covers the values that come in. -/
def Stable (A : Analysis N E D) (r : Results N D) (x : N) : Prop := ∀ d ∈ A.incomming r x, Covered r x d

theorem Stable.congr (h : A.Stable r x) (hx : r' x = r x) (hp : ∀ p ∈ A.pred x, r' p.1 = r p.1) : A.Stable r' x := by
  intro d hd
  rw [Covered,Results.findOpt,hx]
  refine h d (mem_incomming.mpr ((mem_incomming.mp hd).imp_right ?_))
  rintro ⟨p,hmem,he⟩
  rw [Results.findOpt,hp p hmem] at he
  exact ⟨p,hmem,he⟩

theorem le_foldl_join (hA : A.Lawful) {d v1 : D} {vl : List D} (h : d ≤ v1 ∨ d ∈ vl) : d ≤ vl.foldl A.join v1 := by
  induction vl generalizing v1 with
  | nil => exact h.resolve_right List.not_mem_nil
  | cons b vl ih =>
    refine ih ?_
    rcases h with h | h
    · exact .inl (h.trans (hA.le_join_left _ _))
    · refine (List.mem_cons.mp h).imp_left ?_
      rintro rfl
      exact hA.le_join_right _ _

theorem processVertex_covers (hA : A.Lawful) {d : D} (hd : d ∈ A.incomming r v) : Covered (A.processVertex r v) v d := by
  unfold processVertex
  cases he : A.incomming r v with
  | nil => exact absurd (he ▸ hd) List.not_mem_nil
  | cons v1 vl =>
    rw [he,List.mem_cons] at hd
    exact ⟨vl.foldl A.join v1,by simp [Results.findOpt,Results.add],le_foldl_join hA (hd.imp_left fun h => h.le)⟩

/-- A processed vertex is stable, and vertices remain so when its value becomes smaller. -/
theorem processVertex_stable (hA : A.Lawful) (hx : x ≠ v → A.Stable r x)
    (hle : (∃ p ∈ A.pred x, p.1 = v) → ∀ d, (A.processVertex r v).findOpt v = some d → ∃ d0, r.findOpt v = some d0 ∧ d ≤ d0) :
    A.Stable (A.processVertex r v) x := by
  intro d hd
  have hold : ∃ d0 ∈ A.incomming r x, d ≤ d0 := by
    rcases mem_incomming.mp hd with hi | ⟨p,hp,he⟩
    · exact ⟨d,mem_incomming.mpr (.inl hi),le_rfl⟩
    · obtain ⟨c,hc,ht⟩ := Option.bind_eq_some_iff.mp he
      by_cases hpv : p.1 = v
      · obtain ⟨c0,hc0,hcc⟩ := hle ⟨p,hp,hpv⟩ c (hpv ▸ hc)
        obtain ⟨d0,ht0,hdd⟩ := hA.transfer_mono _ _ _ _ hcc ht
        exact ⟨d0,mem_incomming.mpr (.inr ⟨p,hp,by rw [hpv,hc0,Option.bind_some,ht0]⟩),hdd⟩
      · rw [Results.findOpt,processVertex_frame hpv] at he
        exact ⟨d,mem_incomming.mpr (.inr ⟨p,hp,he⟩),le_rfl⟩
  obtain ⟨d0,hd0,hdd⟩ := hold
  have hcov : Covered (A.processVertex r v) x d0 := by
    by_cases hxv : x = v
    · subst hxv
      exact processVertex_covers hA hd0
    · rw [Covered,Results.findOpt,processVertex_frame hxv]
      exact hx hxv d0 hd0
  exact hcov.imp fun c hc => ⟨hc.1,hdd.trans hc.2⟩

theorem processHead_stop (hA : A.Lawful) (h : (A.processHead v r).2 = false) : (A.processHead v r).1 = A.processVertex r v ∧
    ∀ d, (A.processVertex r v).findOpt v = some d → ∃ d0, r.findOpt v = some d0 ∧ d ≤ d0 := by
  cases hc : (A.processVertex r v).findOpt v with
  | none => simp [processHead,widenHead,hc]
  | some c =>
    cases hp : r.findOpt v with
    | none => simp [processHead,widenHead,hc,hp] at h
    | some p =>
      cases hw : A.widen p c with
      | none => simpa [processHead,widenHead,hc,hp,hw] using hA.widen_none p c hw
      | some value => simp [processHead,widenHead,hc,hp,hw] at h

/-- The value of a head that is iterated again, after its previous value. -/
def Widened (A : Analysis N E D) (y x : Option D) : Prop := ∃ value, y = some value ∧ ∀ p, x = some p → ∃ c, A.widen p c = some value

theorem widened_wf (hA : A.Lawful) : WellFounded A.Widened := by
  have hsome : ∀ d, Acc A.Widened (some d) := by
    intro d
    induction d using hA.widen_wf.induction with
    | h d ih =>
      refine ⟨_,?_⟩
      rintro _ ⟨value,rfl,h⟩
      exact ih value (h d rfl)
  refine ⟨fun x => ⟨_,?_⟩⟩
  rintro _ ⟨value,rfl,-⟩
  exact hsome value

theorem processHead_go (h : (A.processHead v r).2 = true) : A.Widened ((A.processHead v r).1.findOpt v) (r.findOpt v) ∧
    ∀ x, x ≠ v → (A.processHead v r).1 x = r x := by
  cases hc : (A.processVertex r v).findOpt v with
  | none => simp [processHead,widenHead,hc] at h
  | some c =>
    cases hp : r.findOpt v with
    | none => simpa [processHead,widenHead,hc,hp,Widened] using fun x hx => processVertex_frame hx
    | some p =>
      cases hw : A.widen p c with
      | none => simp [processHead,widenHead,hc,hp,hw] at h
      | some value =>
        simp only [processHead,widenHead,hc,hp,hw]
        refine ⟨⟨value,by simp [Results.findOpt,Results.add],?_⟩,?_⟩
        · rintro _ ⟨⟩
          exact ⟨c,hw⟩
        · intro x hx
          exact (Function.update_of_ne hx _ _).trans (processVertex_frame hx)

end Stability

section Iteration
variable [Preorder D] {R : Set N} {l w : Partition N}

/-- The bodies of the loops are stable: at first no vertex has a value, and only an iteration changes them. -/
def Ready (A : Analysis N E D) (r : Results N D) : Partition N → Prop
  | [] => True
  | .node _ :: l => Ready A r l
  | .component _ w :: l => (∀ x ∈ flatten w, A.Stable r x) ∧ Ready A r l

theorem ready_of_stable (h : ∀ x ∈ flatten l, A.Stable r x) : A.Ready r l := by
  fun_induction Ready A r l with
  | case1 => trivial
  | case2 v l ih => exact ih fun x hx => h x (by simp [hx])
  | case3 v w l ih => exact ⟨fun x hx => h x (by simp [hx]),ih fun x hx => h x (by simp [hx])⟩

theorem ready_empty (hn : A.Natural R l) : A.Ready (fun _ => []) l := by
  fun_induction Natural A R l with
  | case1 => trivial
  | case2 v l ih => exact ih hn
  | case3 v w l _ ih =>
    refine ⟨fun x hx d hd => ?_,ih hn.2.2⟩
    rcases mem_incomming.mp hd with hi | ⟨p,-,he⟩
    · exact absurd hi.1 (hn.1 x hx).1
    · cases he

theorem Ready.congr (h : A.Ready r l) (hn : A.Natural R l) (hin : ∀ x ∈ flatten l, r' x = r x)
    (hout : ∀ x ∉ R, r' x = r x) : A.Ready r' l := by
  fun_induction Natural A R l with
  | case1 => trivial
  | case2 v l ih => exact ih h hn fun x hx => hin x (by simp [hx])
  | case3 v w l _ ih =>
    refine ⟨fun x hx => (h.1 x hx).congr (hin x (by simp [hx])) ?_,ih h.2 hn.2.2 fun x hx => hin x (by simp [hx])⟩
    intro p hp
    by_cases hR : p.1 ∈ R
    · have hmem := (hn.1 x hx).2 p hp hR
      exact hin _ (by simp at hmem ⊢; tauto)
    · exact hout _ hR

/-- The iteration of a list returns, changes no other vertex and makes its vertices stable. -/
def Iterates (A : Analysis N E D) (l : Partition N) : Prop :=
  ∀ r, A.Ready r l → ∃ depth r', (∀ fuel ≥ depth, A.iterateList fuel l r = some r') ∧ (∀ x ∉ flatten l, r' x = r x) ∧
    ∀ x ∈ flatten l, A.Stable r' x

theorem whileLoop_spec (hA : A.Lawful) {v : N} (hv : v ∈ R) (hnot : v ∉ flatten w) (hn : A.Natural R w)
    (hw : A.Iterates w) (r : Results N D) (hr : ∀ x ∈ flatten w, A.Stable r x) :
    ∃ depth r', (∀ fuel ≥ depth, ∀ n ≥ depth,
      whileLoop (A.processHead v) (A.iterateList fuel w) n r = some r') ∧
    (∀ x ∉ v :: flatten w, r' x = r x) ∧ ∀ x ∈ v :: flatten w, A.Stable r' x := by
  induction hx : r.findOpt v using (widened_wf hA).induction generalizing r with
  | h x ih =>
    subst hx
    cases hgo : (A.processHead v r).2 with
    | false =>
      obtain ⟨heq,hle⟩ := processHead_stop hA hgo
      refine ⟨1,A.processVertex r v,?_,?_,?_⟩
      · intro fuel _ n hn
        obtain ⟨n,rfl⟩ := Nat.exists_eq_add_of_le' hn
        simp [whileLoop,hgo,heq]
      · intro x hx
        exact processVertex_frame (List.ne_of_not_mem_cons hx)
      · intro x hx
        exact processVertex_stable hA (fun hne => hr x ((List.mem_cons.mp hx).resolve_left hne)) fun _ => hle
    | true =>
      obtain ⟨hwid,hframe⟩ := processHead_go hgo
      have hready : A.Ready (A.processHead v r).1 w := by
        refine (ready_of_stable hr).congr hn ?_ ?_
        · intro x hx
          exact hframe x fun he => hnot (he ▸ hx)
        · intro x hx
          exact hframe x fun he => hx (he ▸ hv)
      obtain ⟨depth,r₁,hrun,hframe₁,hstable⟩ := hw _ hready
      obtain ⟨depth',r',hrun',hframe',hstable'⟩ := ih _ (by
        rw [Results.findOpt,hframe₁ v hnot]
        exact hwid) r₁ hstable rfl
      refine ⟨max depth (depth' + 1),r',?_,?_,hstable'⟩
      · intro fuel hfuel n hn
        obtain ⟨n,rfl⟩ := Nat.exists_eq_add_of_le' (le_trans (Nat.le_add_left 1 depth') (le_of_max_le_right hn))
        rw [whileLoop,if_pos hgo,hrun fuel (by omega),Option.bind_some]
        exact hrun' fuel (by omega) n (by omega)
      · intro x hx
        obtain ⟨hxv,hxw⟩ := not_or.mp (List.mem_cons.not.mp hx)
        rw [hframe' x hx,hframe₁ x hxw,hframe x hxv]

theorem iterateList_spec (hA : A.Lawful) (hn : A.Natural R l) (hf : A.Forward l) (hnodup : (flatten l).Nodup)
    (hR : ∀ x ∈ flatten l, x ∈ R) : A.Iterates l := by
  fun_induction A.Forward l with
  | case1 => exact fun r _ => ⟨0,r,fun fuel _ => by rw [iterateList],fun _ _ => rfl,by simp⟩
  | case2 v l ih =>
    rw [Natural] at hn
    simp only [flatten_node,List.nodup_cons] at hnodup
    simp only [flatten_node,List.mem_cons,forall_eq_or_imp] at hR
    intro r hr
    rw [Ready] at hr
    have hne : ∀ x ∈ flatten l, x ≠ v := fun x hx he => hnodup.1 (he ▸ hx)
    obtain ⟨depth,r',hrun,hframe,hstable⟩ := ih hn hf.2 hnodup.2 hR.2 (A.processVertex r v)
      (hr.congr hn (fun x hx => processVertex_frame (hne x hx)) fun x hx => processVertex_frame fun he => hx (he ▸ hR.1))
    refine ⟨depth,r',?_,?_,?_⟩
    · intro fuel hfuel
      rw [iterateList,hrun fuel hfuel]
    · intro x hx
      obtain ⟨hxv,hxl⟩ := not_or.mp (List.mem_cons.not.mp (flatten_node v l ▸ hx))
      rw [hframe x hxl,processVertex_frame hxv]
    · intro x hx
      rcases List.mem_cons.mp (flatten_node v l ▸ hx) with rfl | hx
      · have hsrc : ∀ p ∈ A.pred x, p.1 ≠ x ∧ p.1 ∉ flatten l := fun p hp => not_or.mp (List.mem_cons.not.mp (hf.1 p hp))
        refine (processVertex_stable hA (fun hne => absurd rfl hne) ?_).congr (hframe x hnodup.1) fun p hp =>
          hframe p.1 (hsrc p hp).2
        rintro ⟨p,hp,he⟩
        exact absurd he (hsrc p hp).1
      · exact hstable x hx
  | case3 v w l ihw ihl =>
    rw [Natural] at hn
    simp only [flatten_component,List.nodup_cons,List.mem_append,not_or,List.nodup_append] at hnodup
    obtain ⟨⟨hvw,hvl⟩,hnw,hnl,hdis⟩ := hnodup
    simp only [flatten_component,List.mem_cons,List.mem_append,forall_eq_or_imp] at hR
    have hw := ihw hn.2.1 hf.2.1 hnw fun x hx => hR.2 x (.inl hx)
    have hout : ∀ x ∈ flatten l, x ∉ v :: flatten w := by
      intro x hx hmem
      rcases List.mem_cons.mp hmem with rfl | hmem
      · exact hvl hx
      · exact hdis x hmem x hx rfl
    intro r hr
    rw [Ready] at hr
    obtain ⟨depth,r₁,hrun,hframe,hstable⟩ := whileLoop_spec hA hR.1 hvw hn.2.1 hw r hr.1
    obtain ⟨depth',r',hrun',hframe',hstable'⟩ := ihl hn.2.2 hf.2.2 hnl (fun x hx => hR.2 x (.inr hx)) r₁
      (hr.2.congr hn.2.2 (fun x hx => hframe x (hout x hx)) fun x hx => hframe x (by
        simp only [List.mem_cons,not_or]
        exact ⟨fun he => hx (he ▸ hR.1),fun hm => hx (hR.2 x (.inl hm))⟩))
    refine ⟨max depth depth',r',?_,?_,?_⟩
    · intro fuel hfuel
      rw [iterateList,hrun fuel (by omega) fuel (by omega),Option.bind_some]
      exact hrun' fuel (by omega)
    · intro x hx
      simp only [flatten_component,List.mem_cons,List.mem_append,not_or] at hx
      rw [hframe' x hx.2.2,hframe x (by simp [hx.1,hx.2.1])]
    · intro x hx
      by_cases hxl : x ∈ flatten l
      · exact hstable' x hxl
      · have hxw : x ∈ v :: flatten w := by
          simp only [flatten_component,List.mem_cons,List.mem_append] at hx ⊢
          tauto
        exact (hstable x hxw).congr (hframe' x hxl) fun p hp => hframe' p.1 (hf.1 x hxw p hp)

end Iteration

section Soundness
variable [Preorder D] {wto : Partition N}

theorem forward_of_edges (hnodup : (flatten l).Nodup) (h : ∀ x ∈ flatten l, ∀ p ∈ A.pred x, p.1 ∈ flatten l →
    (p.1 ≠ x ∧ ¬ Before x p.1 (flatten l)) ∨ HeadOf x p.1 l) : A.Forward l := by
  fun_induction A.Forward l with
  | case1 => trivial
  | case2 v l ih =>
    simp only [flatten_node,List.nodup_cons] at hnodup
    simp only [flatten_node] at h
    refine ⟨?_,ih hnodup.2 ?_⟩
    · intro p hp hmem
      rcases h v (by simp) p hp hmem with ⟨hne,hb⟩ | hh
      · exact hb (.head ((List.mem_cons.mp hmem).resolve_left hne))
      · cases hh with
        | later _ _ hh => exact hnodup.1 hh.mem
    · intro x hx p hp hmem
      refine (h x (by simp [hx]) p hp (by simp [hmem])).imp (fun h => ⟨h.1,fun hb => h.2 (hb.cons v)⟩) fun hh => ?_
      cases hh with
      | later _ _ hh => exact hh
  | case3 v w l ihw ihl =>
    simp only [flatten_component,List.nodup_cons,List.mem_append,not_or,List.nodup_append] at hnodup
    obtain ⟨⟨hvw,hvl⟩,hnw,hnl,hdis⟩ := hnodup
    simp only [flatten_component] at h
    refine ⟨?_,ihw hnw ?_,ihl hnl ?_⟩
    · intro x hx p hp hmem
      rcases h x (by simp at hx ⊢; tauto) p hp (by simp [hmem]) with ⟨-,hb⟩ | hh
      · exact hb (Before.append (show x ∈ v :: flatten w from hx) hmem)
      · cases hh with
        | here _ _ hh => exact hh.elim (fun he => hvl (he ▸ hmem)) fun hm => hdis _ hm _ hmem rfl
        | inside _ _ _ hh => exact hdis _ hh.mem_source _ hmem rfl
        | later _ _ hh => exact (List.mem_cons.mp hx).elim (fun he => hvl (he ▸ hh.mem)) fun hm => hdis _ hm _ hh.mem rfl
    · intro x hx p hp hmem
      refine (h x (by simp [hx]) p hp (by simp [hmem])).imp
        (fun h => ⟨h.1,fun hb => h.2 ((hb.append_right _).cons v)⟩) fun hh => ?_
      cases hh with
      | here => exact absurd hx hvw
      | inside _ _ _ hh => exact hh
      | later _ _ hh => exact absurd rfl (hdis _ hx _ hh.mem)
    · intro x hx p hp hmem
      refine (h x (by simp [hx]) p hp (by simp [hmem])).imp
        (fun h => ⟨h.1,fun hb => h.2 ((hb.append_left _).cons v)⟩) fun hh => ?_
      cases hh with
      | here _ _ hh => exact (hh.elim (fun he => hvl (he ▸ hmem)) fun hm => hdis _ hm _ hmem rfl).elim
      | inside _ _ _ hh => exact absurd rfl (hdis _ hh.mem_source _ hmem)
      | later _ _ hh => exact hh

/-- The values that reach a vertex along the paths from the entry point. -/
inductive Reaches (A : Analysis N E D) : N → D → Prop
  | entry : Reaches A A.entryPoint A.initialValue
  | edge {p : N × E} {v : N} {d d' : D} (h : Reaches A p.1 d) (hp : p ∈ A.pred v) (ht : A.transfer p.2 d = some d') :
    Reaches A v d'

/-- On a graph whose loops are entered at their heads, the iteration terminates, every vertex is stable and its value
covers all the values that reach it. -/
theorem fixpoint_sound (hA : A.Lawful) (hwto : IsWto A.succ A.entryPoint wto)
    (hn : A.Natural {v | Reachable A.succ A.entryPoint v} wto) : ∃ depth results,
      (∀ fuel ≥ depth, A.fixpoint fuel wto = some results) ∧
      (∀ v, Reachable A.succ A.entryPoint v → A.Stable results v) ∧
      (∀ v d, A.Reaches v d → Covered results v d) ∧
      ∀ v, ¬ Reachable A.succ A.entryPoint v → results.findOpt v = none := by
  have hf : A.Forward wto := by
    refine forward_of_edges hwto.nodup fun x _ p hp hmem => ?_
    rcases hwto.edge p.1 ((hwto.mem_iff _).mp hmem) x ((A.mem_succ _ _).mpr ⟨p.2,hp⟩) with hb | hh
    · exact .inl ⟨hb.ne hwto.nodup,fun hb' => (hb.trans hwto.nodup hb').ne hwto.nodup rfl⟩
    · exact .inr hh
  obtain ⟨depth,results,hrun,hframe,hstable⟩ := iterateList_spec hA hn hf hwto.nodup
    (fun x hx => (hwto.mem_iff x).mp hx) (fun _ => []) (ready_empty hn)
  have hall : ∀ v, Reachable A.succ A.entryPoint v → A.Stable results v :=
    fun v hv => hstable v ((hwto.mem_iff v).mpr hv)
  refine ⟨depth,results,hrun,hall,?_,?_⟩
  · intro v d h
    suffices Reachable A.succ A.entryPoint v ∧ Covered results v d from this.2
    induction h with
    | entry => exact ⟨.refl,hall _ .refl _ (mem_incomming.mpr (.inl ⟨rfl,rfl⟩))⟩
    | @edge p v d d' h hp ht ih =>
      obtain ⟨hreach,c,hc,hle⟩ := ih
      have hv := hreach.tail ((A.mem_succ _ _).mpr ⟨p.2,hp⟩)
      obtain ⟨c',ht',hle'⟩ := hA.transfer_mono _ _ _ _ hle ht
      obtain ⟨b,hb,hle''⟩ := hall v hv c' (mem_incomming.mpr (.inr ⟨p,hp,by rw [hc,Option.bind_some,ht']⟩))
      exact ⟨hv,b,hb,hle'.trans hle''⟩
  · intro v hv
    rw [Results.findOpt,hframe v fun hmem => hv ((hwto.mem_iff v).mp hmem)]
    rfl

end Soundness
end Analysis

/-- A flag that an edge of the loop on the entry point raises. -/
def flagAnalysis : Analysis ℕ Unit Bool where
  join := max
  widen a b := if b ≤ a then none else some true
  transfer _ _ := some true
  entryPoint := 0
  pred v := if v = 0 then [(0,())] else []
  succ u := if u = 0 then [0] else []
  mem_succ u v := by split <;> split <;> simp_all
  initialValue := false

theorem flagAnalysis_lawful : flagAnalysis.Lawful where
  le_join_left := le_max_left
  le_join_right := le_max_right
  widen_none a b h := by simpa [flagAnalysis] using h
  widen_wf := by
    refine Subrelation.wf (r := fun y x : Bool => x < y) ?_ wellFounded_gt
    rintro y x ⟨c,h⟩
    revert h
    cases x <;> cases y <;> cases c <;> decide
  transfer_mono _ _ _ a' _ h := ⟨a',h,le_rfl⟩

theorem flagAnalysis_isWto : IsWto flagAnalysis.succ flagAnalysis.entryPoint [.component 0 []] where
  nodup := by simp
  mem_iff v := by
    simp only [flatten_component,flatten_nil,List.append_nil,List.mem_singleton]
    refine ⟨fun h => h ▸ .refl,fun h => ?_⟩
    induction h with
    | refl => rfl
    | tail _ hbc ih => simpa [flagAnalysis,ih] using hbc
  edge u _ v hv := by
    obtain ⟨rfl,rfl⟩ : u = 0 ∧ v = 0 := by
      by_cases hu : u = 0 <;> simp_all [flagAnalysis]
    exact .inr (.here _ _ (.inl rfl))

theorem fixpoint_sound_flag : ∃ depth results, (∀ fuel ≥ depth, flagAnalysis.fixpoint fuel [.component 0 []] = some results) ∧
    Analysis.Covered results 0 true := by
  obtain ⟨depth,results,hrun,-,hreach,-⟩ := Analysis.fixpoint_sound flagAnalysis_lawful flagAnalysis_isWto
    (by simp [Analysis.Natural])
  exact ⟨depth,results,hrun,hreach 0 true (.edge .entry (p := (0,())) (by simp [flagAnalysis]) rfl)⟩

end FramaC.Wto
