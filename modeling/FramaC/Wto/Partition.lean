import Mathlib.Data.Set.Finite.Basic
import FramaC.Wto.Visit

/-! # The partition is a weak topological order

The restarted analysis of a loop sees exactly the vertices that were reset, and every visit explores its
vertex when the allowed depth exceeds the rank of the state.
-/
namespace FramaC.Wto
set_option linter.unusedSectionVars false
variable {N : Type} [DecidableEq N] {succs : N → List N}
open State

section Restart
variable {s s₁ s₃ s₄ : State N} {v best : N} {left : List N} {new new₄ : Partition N} {i : ℕ}

section Loop
variable (hs : s.Wf) (hv : s.Fresh v) (h : Explored succs (s.push v) s₁ (succs v) (.loop v i) left new)
include hs hv h

theorem no_edge_below {x y : N} (hx : x ∈ left ++ [v]) (hy : y ∈ succs x) : y ∉ s.stack := by
  intro hys
  obtain ⟨-,hi,-⟩ := h.target v i rfl
  rw [push_level_self] at hi
  obtain ⟨hd,hl⟩ := h.lowest v i rfl
  have hle : i ≤ (s.push v).level y := by
    rcases List.mem_append.mp hx with hx | hx
    · exact hl x hx y hy (List.mem_cons_of_mem _ hys)
    · rw [List.mem_singleton.mp hx] at hy
      exact hd y hy (List.mem_cons_of_mem _ hys)
  rw [push_level_ne (not_mem_stack hs hv hys)] at hle
  have hbound := hs.bounded y hys
  omega

theorem seen_from {x y : N} (hx : x ∈ left ++ [v]) (hy : y ∈ succs x) : ¬ s₁.Fresh y := by
  rcases List.mem_append.mp hx with hx | hx
  · exact h.closed x hx y hy
  · rw [List.mem_singleton.mp hx] at hy
    exact h.seen y hy

theorem path_to_self {x : N} (hx : x ∈ left ++ [v]) : Path succs (· ∈ left ++ [v]) x v := by
  rcases List.mem_append.mp hx with hx | hx
  · obtain ⟨z,hz,hp,y,hy,hys⟩ := h.leaves x hx
    have hp' : Path succs (· ∈ left ++ [v]) x z := hp.mono fun _ => List.mem_append_left _
    rcases List.mem_cons.mp hys with rfl | hys
    · exact hp'.trans (Path.head hy (List.mem_append_right _ (List.mem_singleton_self _)) (Path.refl _))
    · exact absurd hys (no_edge_below hs hv h (List.mem_append_left _ hz) hy)
  · rw [List.mem_singleton.mp hx]
    exact Path.refl _

theorem path_from_self {x : N} (hx : x ∈ left ++ [v]) : Path succs (· ∈ left ++ [v]) v x := by
  rcases List.mem_append.mp hx with hx | hx
  · exact tree_of_push hs hv h hx
  · rw [List.mem_singleton.mp hx]
    exact Path.refl _

theorem white_loop {x : N} (hx : x ∈ left ++ [v]) : Path succs s.Fresh v x := by
  rcases List.mem_append.mp hx with hx | hx
  · exact white_of_push hs hv h (Or.inl hx)
  · rw [List.mem_singleton.mp hx]
    exact Path.refl _

theorem fresh_loop {x : N} (hx : x ∈ left ++ [v]) : s.Fresh x := by
  rcases List.mem_append.mp hx with hx | hx
  · exact (push_fresh.mp (h.leftFresh x hx)).2
  · rwa [List.mem_singleton.mp hx]

theorem loop_mem_stack {x : N} : x ∈ s₁.stack ↔ x ∈ left ++ [v] ∨ x ∈ s.stack := by
  rw [h.stack,State.push]
  simp only [List.mem_append,List.mem_cons,List.not_mem_nil,or_false]
  tauto

/-- The state where the analysis starts again: the loop is forgotten, but for its head. -/
structure Restarted (s s₁ s₃ : State N) (loop : List N) (best : N) : Prop where
  head : best ∈ loop
  stack : s₃.stack = s.stack
  num : s.num ≤ s₃.num
  dfn : ∀ x, s₃.dfn x = if x = best then some .invisible else if x ∈ loop then none else s₁.dfn x

end Loop

section Restarted
variable (hs : s.Wf) (hv : s.Fresh v) (h : Explored succs (s.push v) s₁ (succs v) (.loop v i) left new)
  (hr : Restarted s s₁ s₃ (left ++ [v]) best)
include hs hv h hr

theorem not_mem_loop {x : N} (hx : x ∈ s.stack) : x ∉ left ++ [v] :=
  fun hl => hs.not_fresh hx (fresh_loop hs hv h hl)

theorem restarted_kept {x : N} (hx : x ∈ s.stack) : s₃.dfn x = s.dfn x := by
  have hl := not_mem_loop hs hv h hr hx
  have hne : x ≠ best := by
    rintro rfl
    exact hl hr.head
  rw [hr.dfn,if_neg hne,if_neg hl]
  exact kept_of_push hs hv h hx

theorem restarted_hidden (x : N) : s₃.Hidden x ↔ s₁.Hidden x ∨ x = best := by
  rw [Hidden,hr.dfn]
  split_ifs with h1 h2
  · simp [h1]
  · have : ¬ s₁.Hidden x := h.wf.not_hidden ((loop_mem_stack hs hv h).mpr (Or.inl h2))
    simp [this,h1]
  · simp [Hidden,h1]

theorem restarted_fresh (x : N) : s₃.Fresh x ↔ x ≠ best ∧ (x ∈ left ++ [v] ∨ s₁.Fresh x) := by
  rw [Fresh,hr.dfn]
  split_ifs with h1 h2
  · simp [h1]
  · simp only [h1,ne_eq,not_false_eq_true,h2,true_or,and_self]
  · simp only [h1,ne_eq,not_false_eq_true,h2,false_or,true_and,Fresh]

theorem restarted_wf : s₃.Wf := by
  refine wf_of_kept hs hr.stack hr.num (fun x hx => restarted_kept hs hv h hr hx) fun x hx j => ?_
  rw [hr.dfn]
  split_ifs with h1 h2
  · simp
  · simp
  · intro hp
    rcases (loop_mem_stack hs hv h).mp ((h.wf.parents x).mpr ⟨j,hp⟩) with hl | hl
    · exact h2 hl
    · exact hx hl

theorem restarted_rank {F : Finset N} (hF : ∀ x ∈ F, ∀ y ∈ succs x, y ∈ F) (hvF : v ∈ F) :
    best ∈ F ∧ rank F s₃ < rank F s := by
  have hbest : best ∈ F := (white_loop hs hv h hr.head).closed hvF fun x y hx hy _ => hF x hx y hy
  refine ⟨hbest,rank_lt_of_hidden (fun x hx => ?_) hbest (fun hh => ?_) ?_⟩
  · exact (restarted_hidden hs hv h hr x).mpr (Or.inl ((hidden_of_push hs hv h x).mpr (Or.inl hx)))
  · exact hh.not_fresh (fresh_loop hs hv h hr.head)
  · exact (restarted_hidden hs hv h hr best).mpr (Or.inr rfl)

theorem fresh_mem_loop {x y : N} (hx : x ∈ left ++ [v]) (hy : y ∈ succs x) (hf : s₃.Fresh y) : y ∈ left ++ [v] := by
  rcases ((restarted_fresh hs hv h hr y).mp hf).2 with hl | hl
  · exact hl
  · exact absurd hl (seen_from hs hv h hx hy)

theorem white_mem_loop {c x : N} (hc : c ∈ succs best) (hf : s₃.Fresh c) (hp : Path succs s₃.Fresh c x) :
    x ∈ left ++ [v] :=
  hp.closed (fresh_mem_loop hs hv h hr hr.head hc hf) fun _ _ hx hy hfy => fresh_mem_loop hs hv h hr hx hy hfy

theorem restarted_sealed {c : N} (hc : c ∈ succs best) : Sealed succs s₃ c := by
  refine ⟨?_,fun hf x hp y hy => ?_⟩
  · rw [hr.stack]
    exact no_edge_below hs hv h hr.head hc
  · rw [hr.stack]
    exact no_edge_below hs hv h (white_mem_loop hs hv h hr hc hf hp) hy

variable (h₄ : Explored succs s₃ s₄ (succs best) .noLoop [] new₄)
include h₄

theorem new_mem_loop {x : N} (hx : x ∈ flatten new₄) : x ∈ left ++ [v] := by
  obtain ⟨c,hc,hf,hp⟩ := h₄.white x (Or.inr hx)
  exact white_mem_loop hs hv h hr hc hf hp

theorem loop_hidden {x : N} (hx : x ∈ left ++ [v]) : s₄.Hidden x := by
  have hp : Path succs (· ∈ left ++ [v]) best x := (path_to_self hs hv h hr.head).trans (path_from_self hs hv h hx)
  have hclosed : x ∈ left ++ [v] ∧ s₄.Hidden x := by
    refine Path.closed (Q := fun a => a ∈ left ++ [v] ∧ s₄.Hidden a) hp ⟨hr.head,?_⟩
      fun a b ha hb hbl => ⟨hbl,?_⟩
    · exact (h₄.hidden best).mpr (Or.inl ((restarted_hidden hs hv h hr best).mpr (Or.inr rfl)))
    · by_cases hab : a = best
      · subst hab
        exact (h₄.noLoop rfl).2 b hb
      · have hf : s₃.Fresh a := (restarted_fresh hs hv h hr a).mpr ⟨hab,Or.inl ha.1⟩
        have hn : a ∈ flatten new₄ := by
          rcases (h₄.hidden a).mp ha.2 with hh | hh
          · exact absurd hf hh.not_fresh
          · exact hh
        exact (h₄.hidden b).mpr (h₄.ordered.mem hn hb)
  exact hclosed.2

theorem explored_component : Explored succs s s₄ [v] .noLoop [] (.component best new₄ :: new) := by
  have hvl : v ∈ left ++ [v] := List.mem_append_right _ (List.mem_singleton_self v)
  have hhidden : ∀ x, s₃.Hidden x ↔ (s.Hidden x ∨ x ∈ flatten new) ∨ x = best := fun x => by
    rw [restarted_hidden hs hv h hr,hidden_of_push hs hv h]
  have hnewHidden : ∀ x ∈ flatten new, s₃.Hidden x := fun x hx => (hhidden x).mpr (Or.inl (Or.inr hx))
  have hmem : ∀ x, x ∈ flatten (.component best new₄ :: new) ↔ x = best ∨ x ∈ flatten new₄ ∨ x ∈ flatten new :=
    fun x => by simp
  refine { wf := h₄.wf, stack := h₄.stack.trans hr.stack, kept := ?_, hidden := ?_, leftFresh := by simp,
           newFresh := ?_, nodup := ?_, ordered := ?_, closed := by simp, leaves := by simp, seen := ?_, white := ?_,
           tree := by simp, noLoop := ?_, target := by simp, lowest := by simp }
  · intro x hx
    rw [h₄.kept x (hr.stack ▸ hx)]
    exact restarted_kept hs hv h hr hx
  · intro x
    rw [h₄.hidden,hhidden,hmem]
    tauto
  · intro x hx
    rcases (hmem x).mp hx with rfl | hx | hx
    · exact fresh_loop hs hv h hr.head
    · exact fresh_loop hs hv h (new_mem_loop hs hv h hr h₄ hx)
    · exact (push_fresh.mp (h.newFresh x hx)).2
  · rw [flatten_component,List.nodup_cons,List.mem_append,not_or]
    refine ⟨⟨fun hn => ?_,fun hn => ?_⟩,List.nodup_append.mpr ⟨h₄.nodup,h.nodup,fun x hx y hy => ?_⟩⟩
    · exact ((restarted_hidden hs hv h hr best).mpr (Or.inr rfl)).not_fresh (h₄.newFresh best hn)
    · exact h.wf.not_hidden ((loop_mem_stack hs hv h).mpr (Or.inl hr.head)) ((h.hidden best).mpr (Or.inr hn))
    · rintro rfl
      exact (hnewHidden x hy).not_fresh (h₄.newFresh x hx)
  · have hbody : Ordered succs s₁.Hidden [.component best new₄] := by
      refine Ordered.component (fun u hu y hy => ?_) fun y hy => ?_
      · rcases h₄.ordered u hu y hy with hb | hb
        · exact Or.inl ((restarted_hidden hs hv h hr y).mp hb)
        · exact Or.inr hb
      · have hb := (h₄.hidden y).mp ((h₄.noLoop rfl).2 y hy)
        rwa [restarted_hidden hs hv h hr,or_assoc] at hb
    exact (ordered_of_push hs hv h).append hbody fun y hy => (hidden_of_push hs hv h y).mp hy
  · intro y hy
    rw [List.mem_singleton.mp hy]
    exact (loop_hidden hs hv h hr h₄ hvl).not_fresh
  · intro x hx
    refine ⟨v,List.mem_singleton_self v,hv,?_⟩
    rcases hx with hx | hx
    · simp at hx
    · rcases (hmem x).mp hx with rfl | hx | hx
      · exact white_loop hs hv h hr.head
      · exact white_loop hs hv h (new_mem_loop hs hv h hr h₄ hx)
      · exact white_of_push hs hv h (Or.inr hx)
  · exact fun _ => ⟨rfl,fun y hy => by rw [List.mem_singleton.mp hy]; exact loop_hidden hs hv h hr h₄ hvl⟩

end Restarted

end Restart

def Run.Le {α : Type} (x y : Run α) : Prop := ∀ r : Except Failure α, x = some r → y = some r

theorem Run.Le.refl {α : Type} (x : Run α) : Run.Le x x := fun _ h => h

theorem Run.Le.bind {α β : Type} {x y : Run α} {f g : α → Run β} (hxy : Run.Le x y) (hfg : ∀ a, Run.Le (f a) (g a)) :
    Run.Le (x >>= f) (y >>= g) := by
  intro r hr
  cases hx : (show Option (Except Failure α) from x) with
  | none =>
    have hnone : x >>= f = none := by
      change x = none at hx
      rw [hx]
      rfl
    rw [hnone] at hr
    cases hr
  | some res =>
    have hy : y = some res := hxy res hx
    change x = some res at hx
    rw [hx] at hr
    rw [hy]
    cases res with
    | error e => exact hr
    | ok a => exact hfg a r hr

def Visit.Le (f g : Visit N) : Prop := ∀ s v part, Run.Le (f s v part) (g s v part)

theorem visitSuccs_le {f g : Visit N} (h : Visit.Le f g) (s : State N) (loop : Loop N) (part : Partition N)
    (todo : List N) : Run.Le (visitSuccs f s loop part todo) (visitSuccs g s loop part todo) := by
  induction todo generalizing s loop part with
  | nil => exact Run.Le.refl _
  | cons c todo ih => exact (h s c part).bind fun r => ih r.1 (minLoop loop r.2.1) r.2.2

theorem visitComponent_le {f g : Visit N} (h : Visit.Le f g) (s : State N) (part : Partition N) (todo : List N) :
    Run.Le (visitComponent f s part todo) (visitComponent g s part todo) := by
  induction todo generalizing s part with
  | nil => exact Run.Le.refl _
  | cons c todo ih =>
    refine (h s c part).bind fun r => ?_
    obtain ⟨s',loop,part'⟩ := r
    by_cases hl : loop = .noLoop
    · simp only [hl,if_true]
      exact ih s' part'
    · simp only [hl,if_false]
      exact Run.Le.refl _

theorem visit_le_succ (pref : Option (N → N → ℤ)) (succs : N → List N) (fuel : ℕ) :
    Visit.Le (visit pref succs fuel) (visit pref succs (fuel + 1)) := by
  induction fuel with
  | zero => exact fun s v part r hr => by cases hr
  | succ fuel ih =>
    intro s v part
    rw [visit,visit]
    dsimp only
    cases s.dfn v with
    | some st => cases st <;> exact Run.Le.refl _
    | none =>
      refine (visitSuccs_le ih _ _ _ _).bind fun r => ?_
      obtain ⟨s₁,loop,part₁⟩ := r
      cases loop with
      | noLoop => exact Run.Le.refl _
      | loop a i =>
        by_cases ha : a = v
        · simp only [ha,if_true]
          exact (Run.Le.refl _).bind fun r => (visitComponent_le ih _ _ _).bind fun r => Run.Le.refl _
        · simp only [ha,if_false]
          exact Run.Le.refl _

theorem partition_le {fuel fuel' : ℕ} (h : fuel ≤ fuel') (pref : Option (N → N → ℤ)) (init : N) (succs : N → List N) :
    Run.Le (partition fuel pref init succs) (partition fuel' pref init succs) := by
  induction h with
  | refl => exact Run.Le.refl _
  | step _ ih =>
    exact fun r hr => (visit_le_succ pref succs _ _ _ _).bind (fun _ => Run.Le.refl _) r (ih r hr)

section Visits
variable {F : Finset N} (hF : ∀ x ∈ F, ∀ y ∈ succs x, y ∈ F)
include hF

theorem visit_explores (pref : Option (N → N → ℤ)) (fuel : ℕ) :
    Explores succs F fuel (visit pref succs fuel) := by
  induction fuel with
  | zero => exact fun _ _ _ _ _ hrank => absurd hrank (Nat.not_lt_zero _)
  | succ fuel ih =>
    intro s v part hs hvF hrank
    cases hdfn : s.dfn v with
    | some st =>
      cases st with
      | invisible => exact ⟨s,.noLoop,[],[],by simp [visit,hdfn],explored_hidden hs hdfn⟩
      | parent i => exact ⟨s,.loop v i,[],[],by simp [visit,hdfn],explored_parent hs hdfn⟩
    | none =>
      have hlower : ∀ s', rank F s' < rank F s → rank F s' < fuel := fun s' hlt => by omega
      have hpush : rank F (s.push v) < rank F s := by
        refine rank_lt_of_seen (fun x hx => (push_hidden hdfn x).mpr hx) (fun x hx => (push_fresh.mp hx).2) hvF hdfn ?_
        exact fun hf => (push_fresh.mp hf).1 rfl
      obtain ⟨s₁,loop,left,new,hrun,h⟩ := visitSuccs_spec ih (push_wf hs hdfn) (hlower _ hpush) part
        (hF v hvF) (Explored.start (push_wf hs hdfn))
      rw [List.nil_append] at hrun h
      cases hloop : loop with
      | noLoop =>
        subst hloop
        have hstack : s₁.stack = v :: s.stack := by rw [h.stack,(h.noLoop rfl).1]; rfl
        refine ⟨_,.noLoop,[],.node v :: new,?_,explored_node hs hdfn h rfl⟩
        simp only [visit,hdfn,hrun,pure_bind,State.pop,hstack,List.cons_append]
      | loop a i =>
        subst hloop
        by_cases ha : a = v
        · subst ha
          have hstack : s₁.stack = left ++ a :: s.stack := h.stack
          obtain ⟨dfn',best,hreset,hbest,hdfn'⟩ :=
            resetScc_spec pref (self_not_mem_left hs hdfn h) s.stack s₁.dfn s₁.num a
          have hr : Restarted s s₁ ((⟨dfn',s₁.num,s.stack⟩ : State N).replace best .invisible) (left ++ [a]) best := by
            refine ⟨?_,rfl,?_,fun x => ?_⟩
            · rcases hbest with rfl | hbest
              · exact List.mem_append_right _ (List.mem_singleton_self _)
              · exact List.mem_append_left _ hbest
            · have hle := h.wf.bounded a (h.mem_stack (List.mem_cons_self ..))
              rw [level_of_parent (self_parent hs hdfn h)] at hle
              exact (Nat.le_succ _).trans hle
            · simp only [State.replace,Function.update_apply,hdfn',List.mem_append,List.mem_singleton]
          obtain ⟨hbF,hrank₃⟩ := restarted_rank hs hdfn h hr hF hvF
          obtain ⟨s₄,new₄,hcomp,h₄⟩ := visitComponent_spec ih (restarted_wf hs hdfn h hr) (hlower _ hrank₃)
            (hF best hbF) (fun c hc => restarted_sealed hs hdfn h hr hc) (Explored.start (restarted_wf hs hdfn h hr))
          rw [List.nil_append] at h₄
          refine ⟨s₄,.noLoop,[],.component best new₄ :: new,?_,explored_component hs hdfn h hr h₄⟩
          simp only [visit,hdfn,hrun,pure_bind,if_true,hstack,hreset,hcomp,List.cons_append]
        · refine ⟨s₁,.loop a i,left ++ [v],new,?_,explored_left hs hdfn h rfl ha⟩
          simp only [visit,hdfn,hrun,pure_bind,if_neg ha]

end Visits

def Reachable (succs : N → List N) : N → N → Prop := Relation.ReflTransGen fun a b => b ∈ succs a

theorem Path.reachable {P : N → Prop} {a b : N} (h : Path succs P a b) : Reachable succs a b := by
  induction h with
  | refl => exact .refl
  | tail _ hbc ih => exact .tail ih hbc.1

/-- Each reachable vertex is listed exactly once, and each edge goes forward or back to the head of a component
around its source. -/
structure IsWto (succs : N → List N) (init : N) (wto : Partition N) : Prop where
  nodup : (flatten wto).Nodup
  mem_iff : ∀ v, v ∈ flatten wto ↔ Reachable succs init v
  edge : ∀ u, Reachable succs init u → ∀ v ∈ succs u, Before u v (flatten wto) ∨ HeadOf v u wto

theorem IsWto.selfLoop {init : N} {wto : Partition N} (h : IsWto succs init wto) {v : N}
    (hv : Reachable succs init v) (hloop : v ∈ succs v) : HeadOf v v wto := by
  rcases h.edge v hv v hloop with hb | hh
  · exact absurd rfl (hb.ne h.nodup)
  · exact hh

theorem isWto_of_explored {s : State N} {init : N} {wto : Partition N} (hfresh : ∀ x, s.Fresh x)
    {s' : State N} {left : List N} (h : Explored succs s s' [init] .noLoop left wto) : IsWto succs init wto := by
  have hnone : ∀ x, ¬ s.Hidden x := fun x hx => hx.not_fresh (hfresh x)
  have hmem : ∀ x, s'.Hidden x ↔ x ∈ flatten wto := fun x => by simp [h.hidden,hnone]
  have hedge : ∀ u ∈ flatten wto, ∀ v ∈ succs u, Before u v (flatten wto) ∨ HeadOf v u wto :=
    fun u hu v hv => (h.ordered u hu v hv).resolve_left (hnone v)
  have hiff : ∀ v, v ∈ flatten wto ↔ Reachable succs init v := by
    intro v
    constructor
    · intro hv
      obtain ⟨y,hy,-,hp⟩ := h.white v (Or.inr hv)
      rw [List.mem_singleton] at hy
      subst hy
      exact hp.reachable
    · intro hv
      induction hv with
      | refl => exact (hmem init).mp ((h.noLoop rfl).2 init (List.mem_singleton_self init))
      | tail _ hbc ih =>
        rcases h.ordered.mem ih hbc with hb | hb
        · exact absurd hb (hnone _)
        · exact hb
  exact ⟨h.nodup,hiff,fun u hu => hedge u ((hiff u).mpr hu)⟩

/-- On every graph with finitely many reachable vertices the algorithm returns, without a failed assertion, and
its result is a weak topological order of the reachable vertices. -/
theorem partition_isWto (pref : Option (N → N → ℤ)) (init : N) (succs : N → List N)
    (hfin : {v | Reachable succs init v}.Finite) : ∃ wto depth,
      (∀ fuel ≥ depth, partition fuel pref init succs = pure wto) ∧ IsWto succs init wto ∧
        ∀ v, Reachable succs init v → v ∈ succs v → HeadOf v v wto := by
  let s : State N := ⟨fun _ => none,0,[]⟩
  have hs : s.Wf := ⟨by simp [s],List.Pairwise.nil,by simp [s]⟩
  obtain ⟨s',loop,left,wto,hrun,h⟩ := visit_explores (F := hfin.toFinset)
    (fun x hx y hy => hfin.mem_toFinset.mpr ((hfin.mem_toFinset.mp hx).tail hy)) pref
    (rank hfin.toFinset s + 1) s init [] hs (hfin.mem_toFinset.mpr .refl) (Nat.lt_succ_self _)
  have hloop : loop = .noLoop := by
    cases e : loop with
    | noLoop => rfl
    | loop a i => exact absurd (h.target a i e).1 (List.not_mem_nil)
  subst hloop
  have hfresh : ∀ x, s.Fresh x := fun _ => rfl
  have hwto : IsWto succs init wto := isWto_of_explored hfresh h
  refine ⟨wto,rank hfin.toFinset s + 1,fun fuel hfuel => ?_,hwto,fun v => hwto.selfLoop⟩
  refine partition_le hfuel pref init succs _ ?_
  rw [partition,hrun,pure_bind,List.append_nil]
  rfl

/-- A loop on one vertex. -/
theorem partition_isWto_loop : ∃ wto depth,
    (∀ fuel ≥ depth, partition fuel none 0 (fun _ : ℕ => [0]) = pure wto) ∧ IsWto (fun _ => [0]) 0 wto ∧
      ∀ v, Reachable (fun _ => [0]) 0 v → v ∈ (fun _ : ℕ => [0]) v → HeadOf v v wto := by
  refine partition_isWto none 0 (fun _ => [0]) ((Set.finite_singleton 0).subset fun v hv => ?_)
  induction hv with
  | refl => rfl
  | tail _ hbc _ => exact List.mem_singleton.mp hbc

end FramaC.Wto
