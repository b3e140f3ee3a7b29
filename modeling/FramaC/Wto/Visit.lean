import FramaC.Wto.Explored

/-! # The visits

A visit explores its vertex. A vertex that starts a loop resets the vertices above it, which all reach each
other, and starts again below an invisible head: the number of invisible vertices bounds the restarts.
-/
namespace FramaC.Wto
set_option linter.unusedSectionVars false
variable {N : Type} [DecidableEq N] {succs : N → List N}
open State

section Push
variable {s : State N} {v : N}

theorem push_dfn_self : (s.push v).dfn v = some (.parent (s.num + 1)) := Function.update_self ..

theorem push_dfn_ne {x : N} (h : x ≠ v) : (s.push v).dfn x = s.dfn x := Function.update_of_ne h ..

theorem push_level_self : (s.push v).level v = s.num + 1 := level_of_parent push_dfn_self

theorem push_level_ne {x : N} (h : x ≠ v) : (s.push v).level x = s.level x := by
  rw [level,level,push_dfn_ne h]

theorem push_hidden (hv : s.Fresh v) (x : N) : (s.push v).Hidden x ↔ s.Hidden x := by
  by_cases hx : x = v
  · subst hx
    rw [Hidden,push_dfn_self,Hidden,hv]
    simp
  · rw [Hidden,push_dfn_ne hx,Hidden]

theorem push_fresh {x : N} : (s.push v).Fresh x ↔ x ≠ v ∧ s.Fresh x := by
  by_cases hx : x = v
  · subst hx
    rw [Fresh,push_dfn_self]
    simp
  · rw [Fresh,push_dfn_ne hx,Fresh]
    simp [hx]

theorem not_mem_stack (hs : s.Wf) (hv : s.Fresh v) {x : N} (hx : x ∈ s.stack) : x ≠ v := by
  rintro rfl
  exact hs.not_fresh hx hv

theorem push_wf (hs : s.Wf) (hv : s.Fresh v) : (s.push v).Wf where
  parents x := by
    by_cases hx : x = v
    · subst hx
      exact ⟨fun _ => ⟨_,push_dfn_self⟩,fun _ => List.mem_cons_self ..⟩
    · rw [push_dfn_ne hx,← hs.parents x]
      exact ⟨fun h => (List.mem_cons.mp h).resolve_left hx,List.mem_cons_of_mem _⟩
  levels := by
    refine List.pairwise_cons.mpr ⟨fun y hy => ?_,hs.levels.imp_of_mem fun {x y} hx hy h => ?_⟩
    · rw [push_level_self,push_level_ne (not_mem_stack hs hv hy)]
      exact Nat.lt_succ_of_le (hs.bounded y hy)
    · rw [push_level_ne (not_mem_stack hs hv hx),push_level_ne (not_mem_stack hs hv hy)]
      exact h
  bounded x hx := by
    rcases List.mem_cons.mp hx with rfl | hx
    · exact push_level_self.le
    · rw [push_level_ne (not_mem_stack hs hv hx)]
      exact (hs.bounded x hx).trans (Nat.le_succ _)

end Push

theorem wf_of_kept {s s' : State N} (hs : s.Wf) (hstack : s'.stack = s.stack) (hnum : s.num ≤ s'.num)
    (hkept : ∀ x ∈ s.stack, s'.dfn x = s.dfn x) (hnone : ∀ x ∉ s.stack, ∀ i, s'.dfn x ≠ some (.parent i)) :
    s'.Wf where
  parents x := by
    rw [hstack]
    by_cases hx : x ∈ s.stack
    · rw [hkept x hx]
      exact hs.parents x
    · simp only [hx,false_iff,not_exists]
      exact hnone x hx
  levels := by
    rw [hstack]
    refine hs.levels.imp_of_mem fun {x y} hx hy h => ?_
    rw [level,level,hkept x hx,hkept y hy]
    exact h
  bounded x hx := by
    rw [hstack] at hx
    rw [level,hkept x hx]
    exact (hs.bounded x hx).trans hnum

theorem resetScc_spec (pref : Option (N → N → ℤ)) {v : N} {left : List N} (hv : v ∉ left) (rest : List N)
    (dfn : N → Option Status) (num : ℕ) (best : N) : ∃ dfn' best',
      resetScc pref v dfn num best (left ++ v :: rest) = pure (⟨dfn',num,rest⟩,best') ∧
      (best' = best ∨ best' ∈ left) ∧ ∀ x, dfn' x = if x ∈ left ∨ x = v then none else dfn x := by
  induction left generalizing dfn best with
  | nil =>
    refine ⟨Function.update dfn v none,best,?_,Or.inl rfl,fun x => ?_⟩
    · simp only [List.nil_append,resetScc,ne_eq,not_true_eq_false,if_false]
    · simp [Function.update_apply]
  | cons a left ih =>
    rw [List.mem_cons,not_or] at hv
    obtain ⟨hav,hvl⟩ := hv
    obtain ⟨best₁,hbest₁,hstep⟩ : ∃ best₁, (best₁ = best ∨ best₁ = a) ∧
        resetScc pref v dfn num best (a :: (left ++ v :: rest)) =
          resetScc pref v (Function.update dfn a none) num best₁ (left ++ v :: rest) := by
      simp only [resetScc,ne_eq,Ne.symm hav,not_false_eq_true,if_true]
      cases pref with
      | none => exact ⟨best,Or.inl rfl,rfl⟩
      | some cmp =>
        by_cases hc : cmp best a < 0
        · exact ⟨a,Or.inr rfl,by simp only [if_pos hc]⟩
        · exact ⟨best,Or.inl rfl,by simp only [if_neg hc]⟩
    obtain ⟨dfn',best',hrun,hbest,hdfn⟩ := ih hvl (Function.update dfn a none) best₁
    refine ⟨dfn',best',?_,?_,fun x => ?_⟩
    · rw [List.cons_append,hstep,hrun]
    · rcases hbest with rfl | hbest
      · rcases hbest₁ with h | h
        · exact Or.inl h
        · exact Or.inr (h ▸ List.mem_cons_self ..)
      · exact Or.inr (List.mem_cons_of_mem _ hbest)
    · rw [hdfn,Function.update_apply]
      by_cases hx : x = a
      · simp [hx]
      · simp [hx]

instance (s : State N) : DecidablePred s.Fresh := fun x => inferInstanceAs (Decidable (s.dfn x = none))
instance (s : State N) : DecidablePred s.Hidden := fun x => inferInstanceAs (Decidable (s.dfn x = some .invisible))

/-- Lexicographic in the vertices that are not invisible and in those not seen. -/
def rank (F : Finset N) (s : State N) : ℕ :=
  (F.filter fun x => ¬ s.Hidden x).card * (F.card + 1) + (F.filter s.Fresh).card

section Rank
variable {F : Finset N} {s s' : State N}

theorem filter_hidden_subset (hh : ∀ x, s.Hidden x → s'.Hidden x) :
    (F.filter fun x => ¬ s'.Hidden x) ⊆ F.filter fun x => ¬ s.Hidden x := by
  intro x hx
  rw [Finset.mem_filter] at hx ⊢
  exact ⟨hx.1,fun h => hx.2 (hh x h)⟩

theorem rank_le (hh : ∀ x, s.Hidden x → s'.Hidden x) (hf : ∀ x, s'.Fresh x → s.Fresh x) : rank F s' ≤ rank F s := by
  refine Nat.add_le_add (Nat.mul_le_mul_right _ (Finset.card_le_card (filter_hidden_subset hh))) ?_
  refine Finset.card_le_card fun x hx => ?_
  rw [Finset.mem_filter] at hx ⊢
  exact ⟨hx.1,hf x hx.2⟩

theorem rank_lt_of_seen (hh : ∀ x, s.Hidden x → s'.Hidden x) (hf : ∀ x, s'.Fresh x → s.Fresh x) {v : N} (hv : v ∈ F)
    (hfresh : s.Fresh v) (hseen : ¬ s'.Fresh v) : rank F s' < rank F s := by
  refine Nat.add_lt_add_of_le_of_lt (Nat.mul_le_mul_right _ (Finset.card_le_card (filter_hidden_subset hh))) ?_
  refine Finset.card_lt_card (Finset.ssubset_iff_of_subset (fun x hx => ?_) |>.mpr ⟨v,?_,?_⟩)
  · rw [Finset.mem_filter] at hx ⊢
    exact ⟨hx.1,hf x hx.2⟩
  · exact Finset.mem_filter.mpr ⟨hv,hfresh⟩
  · exact fun h => hseen (Finset.mem_filter.mp h).2

theorem rank_lt_of_hidden (hh : ∀ x, s.Hidden x → s'.Hidden x) {v : N} (hv : v ∈ F) (hvis : ¬ s.Hidden v)
    (hhid : s'.Hidden v) : rank F s' < rank F s := by
  have hlt : (F.filter fun x => ¬ s'.Hidden x).card < (F.filter fun x => ¬ s.Hidden x).card := by
    refine Finset.card_lt_card (Finset.ssubset_iff_of_subset (filter_hidden_subset hh) |>.mpr ⟨v,?_,?_⟩)
    · exact Finset.mem_filter.mpr ⟨hv,hvis⟩
    · exact fun h => (Finset.mem_filter.mp h).2 hhid
  have hfresh : (F.filter s'.Fresh).card ≤ F.card := Finset.card_filter_le F _
  have hmul := Nat.mul_le_mul_right (F.card + 1) (Nat.succ_le_of_lt hlt)
  rw [Nat.succ_mul] at hmul
  unfold rank
  omega

end Rank

def Explores (succs : N → List N) (F : Finset N) (bound : ℕ) (visit : Visit N) : Prop :=
  ∀ s v part, s.Wf → v ∈ F → rank F s < bound → ∃ s' loop left new,
    visit s v part = pure (s',loop,new ++ part) ∧ Explored succs s s' [v] loop left new

section Loops
variable {F : Finset N} {bound : ℕ} {visit : Visit N} {s s₁ : State N}

theorem Progress.rank_le {left : List N} {new : Partition N} (hs : s.Wf) (h : Progress succs s s₁ left new) :
    rank F s₁ ≤ rank F s :=
  Wto.rank_le (fun x hx => (h.hidden x).mpr (Or.inl hx)) fun _ => h.fresh_of hs

theorem visitSuccs_spec (hvisit : Explores succs F bound visit) (hs : s.Wf) (hrank : rank F s < bound)
    (part : Partition N) {todo : List N} (htodo : ∀ c ∈ todo, c ∈ F) {done left : List N} {loop : Loop N}
    {new : Partition N} (h : Explored succs s s₁ done loop left new) : ∃ s' loop' left' new',
      visitSuccs visit s₁ loop (new ++ part) todo = pure (s',loop',new' ++ part) ∧
        Explored succs s s' (done ++ todo) loop' left' new' := by
  induction todo generalizing s₁ done left loop new with
  | nil => exact ⟨s₁,loop,left,new,rfl,by rwa [List.append_nil]⟩
  | cons c todo ih =>
    obtain ⟨s₂,loop₂,left₂,new₂,hrun,he⟩ := hvisit s₁ c (new ++ part) h.wf (htodo c (List.mem_cons_self ..))
      ((h.rank_le hs).trans_lt hrank)
    obtain ⟨s',loop',left',new',hrest,he'⟩ := ih (fun x hx => htodo x (List.mem_cons_of_mem _ hx)) (h.trans hs he)
    refine ⟨s',loop',left',new',?_,by simpa using he'⟩
    rw [visitSuccs,hrun,pure_bind,← List.append_assoc]
    exact hrest

/-- No vertex that a visit of `c` would see has an edge to the stack. -/
def Sealed (succs : N → List N) (s : State N) (c : N) : Prop :=
  c ∉ s.stack ∧ (s.Fresh c → ∀ x, Path succs s.Fresh c x → ∀ y ∈ succs x, y ∉ s.stack)

theorem Sealed.noLoop {c : N} (hc : Sealed succs s c) {loop : Loop N} {left : List N} {new : Partition N}
    (h : Explored succs s s₁ [c] loop left new) : loop = .noLoop := by
  cases e : loop with
  | noLoop => rfl
  | loop a i =>
    obtain ⟨ha,-,hedge⟩ := h.target a i e
    rcases hedge with hedge | ⟨z,hz,hzs⟩
    · rw [List.mem_singleton] at hedge
      exact absurd (hedge ▸ ha) hc.1
    · obtain ⟨y,hy,hf,hp⟩ := h.white z (Or.inl hz)
      rw [List.mem_singleton] at hy
      subst hy
      exact absurd ha (hc.2 hf z hp a hzs)

theorem Sealed.later {c : N} (hc : Sealed succs s c) (hs : s.Wf) {new : Partition N}
    (h : Progress succs s s₁ [] new) : Sealed succs s₁ c := by
  have hstack : s₁.stack = s.stack := h.stack
  refine ⟨hstack ▸ hc.1,fun hf x hp y hy => ?_⟩
  rw [hstack]
  exact hc.2 (h.fresh_of hs hf) x (hp.mono fun _ => h.fresh_of hs) y hy

theorem visitComponent_spec (hvisit : Explores succs F bound visit) (hs : s.Wf) (hrank : rank F s < bound)
    {todo : List N} (htodo : ∀ c ∈ todo, c ∈ F) (hsealed : ∀ c ∈ todo, Sealed succs s c) {done : List N}
    {new : Partition N} (h : Explored succs s s₁ done .noLoop [] new) : ∃ s' new',
      visitComponent visit s₁ new todo = pure (s',new') ∧
        Explored succs s s' (done ++ todo) .noLoop [] new' := by
  induction todo generalizing s₁ done new with
  | nil => exact ⟨s₁,new,rfl,by rwa [List.append_nil]⟩
  | cons c todo ih =>
    obtain ⟨s₂,loop₂,left₂,new₂,hrun,he⟩ := hvisit s₁ c new h.wf (htodo c (List.mem_cons_self ..))
      ((h.rank_le hs).trans_lt hrank)
    have hloop : loop₂ = .noLoop := ((hsealed c (List.mem_cons_self ..)).later hs h.toProgress).noLoop he
    subst hloop
    have hleft : left₂ = [] := (he.noLoop rfl).1
    subst hleft
    obtain ⟨s',new',hrest,he'⟩ := ih (fun x hx => htodo x (List.mem_cons_of_mem _ hx))
      (fun x hx => hsealed x (List.mem_cons_of_mem _ hx)) (h.trans hs he)
    refine ⟨s',new',?_,by simpa using he'⟩
    rw [visitComponent,hrun,pure_bind]
    exact hrest

end Loops

section Outcomes
variable {s s₁ : State N} {v : N} {left : List N} {new : Partition N} {loop : Loop N}

theorem explored_hidden (hs : s.Wf) (hv : s.Hidden v) : Explored succs s s [v] .noLoop [] [] where
  toProgress := Progress.rfl' hs
  seen y hy := by
    rw [List.mem_singleton.mp hy]
    exact hv.not_fresh
  white := by simp
  tree := by simp
  noLoop _ := ⟨rfl,fun y hy => by rwa [List.mem_singleton.mp hy]⟩
  target := by simp
  lowest := by simp

theorem explored_parent (hs : s.Wf) {i : ℕ} (hv : s.dfn v = some (.parent i)) :
    Explored succs s s [v] (.loop v i) [] [] where
  toProgress := Progress.rfl' hs
  seen y hy := by
    rw [List.mem_singleton.mp hy]
    exact hs.not_fresh ((hs.parents v).mpr ⟨i,hv⟩)
  white := by simp
  tree := by simp
  noLoop h := by cases h
  target h j e := by
    cases e
    exact ⟨(hs.parents v).mpr ⟨i,hv⟩,level_of_parent hv,Or.inl (List.mem_singleton_self v)⟩
  lowest h j e := by
    cases e
    refine ⟨fun y hy _ => ?_,by simp⟩
    rw [List.mem_singleton.mp hy]
    exact (level_of_parent hv).ge

variable (hs : s.Wf) (hv : s.Fresh v) (h : Explored succs (s.push v) s₁ (succs v) loop left new)
include hs hv h

theorem kept_of_push {x : N} (hx : x ∈ s.stack) : s₁.dfn x = s.dfn x := by
  rw [h.kept x (List.mem_cons_of_mem _ hx),push_dfn_ne (not_mem_stack hs hv hx)]

theorem self_parent : s₁.dfn v = some (.parent (s.num + 1)) := by
  rw [h.kept v (List.mem_cons_self ..),push_dfn_self]

theorem hidden_of_push (x : N) : s₁.Hidden x ↔ s.Hidden x ∨ x ∈ flatten new := by
  rw [h.hidden,push_hidden hv]

theorem self_not_mem_new : v ∉ flatten new :=
  fun hn => (push_fresh.mp (h.newFresh v hn)).1 rfl

theorem self_not_mem_left : v ∉ left :=
  fun hl => (push_fresh.mp (h.leftFresh v hl)).1 rfl

theorem ordered_of_push : Ordered succs s.Hidden new := by
  intro u hu y hy
  rcases h.ordered u hu y hy with hb | hb
  · exact Or.inl ((push_hidden hv y).mp hb)
  · exact Or.inr hb

theorem white_of_push {x : N} (hx : x ∈ left ∨ x ∈ flatten new) : Path succs s.Fresh v x := by
  obtain ⟨y,hy,hf,hp⟩ := h.white x hx
  exact Path.head hy (push_fresh.mp hf).2 (hp.mono fun _ hz => (push_fresh.mp hz).2)

theorem tree_of_push {x : N} (hx : x ∈ left) : Path succs (· ∈ left ++ [v]) v x := by
  obtain ⟨y,hy,hl,hp⟩ := h.tree x hx
  exact Path.head hy (List.mem_append_left _ hl) (hp.mono fun _ => List.mem_append_left _)

theorem explored_node (hloop : loop = .noLoop) : Explored succs s
    (({ s₁ with stack := s.stack } : State N).replace v .invisible) [v] .noLoop [] (.node v :: new) := by
  obtain ⟨rfl,hdone⟩ := h.noLoop hloop
  have hdfn : ∀ x, x ≠ v → (({ s₁ with stack := s.stack } : State N).replace v .invisible).dfn x = s₁.dfn x :=
    fun x hx => Function.update_of_ne hx ..
  have hself : (({ s₁ with stack := s.stack } : State N).replace v .invisible).dfn v = some .invisible :=
    Function.update_self ..
  refine { wf := ?_, stack := rfl, kept := ?_, hidden := ?_, leftFresh := by simp, newFresh := ?_, nodup := ?_,
           ordered := ?_, closed := by simp, leaves := by simp, seen := ?_, white := ?_, tree := by simp,
           noLoop := ?_, target := by simp, lowest := by simp }
  · refine wf_of_kept hs rfl ?_ (fun x hx => ?_) fun x hx i => ?_
    · have hle := h.wf.bounded v (h.mem_stack (List.mem_cons_self ..))
      rw [level_of_parent (self_parent hs hv h)] at hle
      exact (Nat.le_succ _).trans hle
    · rw [hdfn x (not_mem_stack hs hv hx)]
      exact kept_of_push hs hv h hx
    · by_cases hxv : x = v
      · rw [hxv,hself]
        simp
      · rw [hdfn x hxv]
        intro hp
        have hx' := (h.wf.parents x).mpr ⟨i,hp⟩
        rw [h.stack] at hx'
        rcases List.mem_cons.mp hx' with hx' | hx'
        · exact hxv hx'
        · exact hx hx'
  · intro x hx
    rw [hdfn x (not_mem_stack hs hv hx)]
    exact kept_of_push hs hv h hx
  · intro x
    rw [flatten_node,List.mem_cons]
    by_cases hxv : x = v
    · simp [hxv,Hidden,hself]
    · rw [Hidden,hdfn x hxv]
      have := hidden_of_push hs hv h x
      rw [Hidden] at this
      simp [this,hxv]
  · intro x hx
    rw [flatten_node] at hx
    rcases List.mem_cons.mp hx with rfl | hx
    · exact hv
    · exact (push_fresh.mp (h.newFresh x hx)).2
  · rw [flatten_node]
    exact List.nodup_cons.mpr ⟨self_not_mem_new hs hv h,h.nodup⟩
  · have hnode : Ordered succs s₁.Hidden [.node v] := Ordered.node fun y hy => hdone y hy
    exact (ordered_of_push hs hv h).append hnode fun y hy => (hidden_of_push hs hv h y).mp hy
  · intro y hy
    rw [List.mem_singleton.mp hy,Fresh,hself]
    simp
  · intro x hx
    refine ⟨v,List.mem_singleton_self v,hv,?_⟩
    rw [flatten_node] at hx
    rcases hx with hx | hx
    · simp at hx
    · rcases List.mem_cons.mp hx with rfl | hx
      · exact Path.refl _
      · exact white_of_push hs hv h (Or.inr hx)
  · exact fun _ => ⟨rfl,fun y hy => by rw [List.mem_singleton.mp hy]; exact hself⟩

theorem explored_left {a : N} {i : ℕ} (hloop : loop = .loop a i) (ha : a ≠ v) :
    Explored succs s s₁ [v] loop (left ++ [v]) new := by
  obtain ⟨hast,hai,hedge⟩ := h.target a i hloop
  have has : a ∈ s.stack := (List.mem_cons.mp hast).resolve_left ha
  have hstack : s₁.stack = (left ++ [v]) ++ s.stack := by
    rw [h.stack,List.append_assoc]
    rfl
  have hself : v ∈ left ++ [v] := List.mem_append_right _ (List.mem_singleton_self v)
  have hedge' : ∃ z ∈ left ++ [v], a ∈ succs z := by
    rcases hedge with hedge | ⟨z,hz,hzs⟩
    · exact ⟨v,hself,hedge⟩
    · exact ⟨z,List.mem_append_left _ hz,hzs⟩
  have htree : ∀ x ∈ left ++ [v], Path succs (· ∈ left ++ [v]) v x := by
    intro x hx
    rcases List.mem_append.mp hx with hx | hx
    · exact tree_of_push hs hv h hx
    · rw [List.mem_singleton.mp hx]
      exact Path.refl _
  have hout : ∀ x, Path succs (· ∈ left ++ [v]) x v → ∃ z ∈ left ++ [v], Path succs (· ∈ left ++ [v]) x z ∧
      ∃ y ∈ succs z, y ∈ s.stack := by
    intro x hx
    obtain ⟨z,hz,hzs⟩ := hedge'
    exact ⟨z,hz,hx.trans (htree z hz),a,hzs,has⟩
  refine { wf := h.wf, stack := hstack, kept := fun x hx => kept_of_push hs hv h hx, hidden := hidden_of_push hs hv h,
           leftFresh := ?_, newFresh := fun x hx => (push_fresh.mp (h.newFresh x hx)).2, nodup := h.nodup,
           ordered := ordered_of_push hs hv h, closed := ?_, leaves := ?_, seen := ?_, white := ?_, tree := ?_,
           noLoop := ?_, target := ?_, lowest := ?_ }
  · intro x hx
    rcases List.mem_append.mp hx with hx | hx
    · exact (push_fresh.mp (h.leftFresh x hx)).2
    · rw [List.mem_singleton.mp hx]
      exact hv
  · intro x hx y hy
    rcases List.mem_append.mp hx with hx | hx
    · exact h.closed x hx y hy
    · rw [List.mem_singleton.mp hx] at hy
      exact h.seen y hy
  · intro x hx
    rcases List.mem_append.mp hx with hx | hx
    · obtain ⟨z,hz,hp,y,hy,hys⟩ := h.leaves x hx
      have hp' : Path succs (· ∈ left ++ [v]) x z := hp.mono fun _ => List.mem_append_left _
      rcases List.mem_cons.mp hys with rfl | hys
      · exact hout x (hp'.trans (Path.head hy hself (Path.refl _)))
      · exact ⟨z,List.mem_append_left _ hz,hp',y,hy,hys⟩
    · rw [List.mem_singleton.mp hx]
      exact hout v (Path.refl _)
  · intro y hy
    rw [List.mem_singleton.mp hy]
    exact h.wf.not_fresh (hstack ▸ List.mem_append_left _ hself)
  · intro x hx
    refine ⟨v,List.mem_singleton_self v,hv,?_⟩
    rw [List.mem_append,List.mem_singleton,or_right_comm] at hx
    rcases hx with hx | rfl
    · exact white_of_push hs hv h hx
    · exact Path.refl _
  · exact fun x hx => ⟨v,List.mem_singleton_self v,hself,htree x hx⟩
  · intro hn
    rw [hloop] at hn
    cases hn
  · intro b j e
    rw [hloop] at e
    cases e
    refine ⟨has,?_,Or.inr hedge'⟩
    rw [← push_level_ne ha]
    exact hai
  · intro b j e
    rw [hloop] at e
    cases e
    obtain ⟨hd,hl⟩ := h.lowest a i hloop
    refine ⟨fun y hy hys => ?_,fun x hx y hy hys => ?_⟩
    · rw [List.mem_singleton.mp hy] at hys
      exact absurd hv (hs.not_fresh hys)
    · rw [← push_level_ne (not_mem_stack hs hv hys)]
      rcases List.mem_append.mp hx with hx | hx
      · exact hl x hx y hy (List.mem_cons_of_mem _ hys)
      · rw [List.mem_singleton.mp hx] at hy
        exact hd y hy (List.mem_cons_of_mem _ hys)

end Outcomes

end FramaC.Wto
