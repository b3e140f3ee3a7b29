import FramaC.Wto.Basic

/-! # What a sequence of visits has explored

From one state to a later one, the visits of a list of vertices leave some vertices on the stack and hide
others in new components of the partition. Sequences compose.
-/
namespace FramaC.Wto
set_option linter.unusedSectionVars false
variable {N : Type} [DecidableEq N] {succs : N → List N}

def Path (succs : N → List N) (P : N → Prop) : N → N → Prop := Relation.ReflTransGen fun a b => b ∈ succs a ∧ P b

theorem Path.mono {P Q : N → Prop} (h : ∀ x, P x → Q x) {a b : N} (hp : Path succs P a b) : Path succs Q a b := by
  induction hp with
  | refl => exact .refl
  | tail _ hbc ih => exact .tail ih ⟨hbc.1,h _ hbc.2⟩

theorem Path.refl {P : N → Prop} (a : N) : Path succs P a a := Relation.ReflTransGen.refl

theorem Path.trans {P : N → Prop} {a b c : N} (hab : Path succs P a b) (hbc : Path succs P b c) : Path succs P a c :=
  Relation.ReflTransGen.trans hab hbc

theorem Path.head {P : N → Prop} {a b c : N} (hab : b ∈ succs a) (hb : P b) (hbc : Path succs P b c) :
    Path succs P a c := Relation.ReflTransGen.head ⟨hab,hb⟩ hbc

theorem Path.closed {P Q : N → Prop} {a b : N} (hp : Path succs P a b) (ha : Q a)
    (h : ∀ x y, Q x → y ∈ succs x → P y → Q y) : Q b := by
  induction hp with
  | refl => exact ha
  | tail _ hbc ih => exact h _ _ ih hbc.1 hbc.2

namespace State

def level (s : State N) (x : N) : ℕ :=
  match s.dfn x with
  | some (.parent i) => i
  | _ => 0

def Fresh (s : State N) (x : N) : Prop := s.dfn x = none
def Hidden (s : State N) (x : N) : Prop := s.dfn x = some .invisible

/-- The numbered vertices are those of the stack, and the levels grow towards its top. -/
structure Wf (s : State N) : Prop where
  parents : ∀ x, x ∈ s.stack ↔ ∃ i, s.dfn x = some (.parent i)
  levels : s.stack.Pairwise fun x y => s.level y < s.level x
  bounded : ∀ x ∈ s.stack, s.level x ≤ s.num

theorem level_of_parent {s : State N} {x : N} {i : ℕ} (h : s.dfn x = some (.parent i)) : s.level x = i := by
  rw [level,h]

theorem Wf.not_fresh {s : State N} (hs : s.Wf) {x : N} (hx : x ∈ s.stack) : ¬ s.Fresh x := by
  obtain ⟨i,hi⟩ := (hs.parents x).mp hx
  rw [Fresh,hi]
  exact Option.some_ne_none _

theorem Wf.not_hidden {s : State N} (hs : s.Wf) {x : N} (hx : x ∈ s.stack) : ¬ s.Hidden x := by
  obtain ⟨i,hi⟩ := (hs.parents x).mp hx
  rw [Hidden,hi]
  simp

theorem Hidden.not_fresh {s : State N} {x : N} (h : s.Hidden x) : ¬ s.Fresh x := by
  rw [Fresh,h]
  exact Option.some_ne_none _

theorem Wf.cases {s : State N} (hs : s.Wf) (x : N) : s.Fresh x ∨ s.Hidden x ∨ x ∈ s.stack := by
  cases h : s.dfn x with
  | none => exact Or.inl h
  | some st =>
    cases st with
    | invisible => exact Or.inr (Or.inl h)
    | parent i => exact Or.inr (Or.inr ((hs.parents x).mpr ⟨i,h⟩))

end State

open State

/-- The state changes from `s` to `s'`, leaving the vertices of `left` on the stack and hiding those of `new`. -/
structure Progress (succs : N → List N) (s s' : State N) (left : List N) (new : Partition N) : Prop where
  wf : s'.Wf
  stack : s'.stack = left ++ s.stack
  kept : ∀ x ∈ s.stack, s'.dfn x = s.dfn x
  hidden : ∀ x, s'.Hidden x ↔ s.Hidden x ∨ x ∈ flatten new
  leftFresh : ∀ x ∈ left, s.Fresh x
  newFresh : ∀ x ∈ flatten new, s.Fresh x
  nodup : (flatten new).Nodup
  ordered : Ordered succs s.Hidden new
  closed : ∀ x ∈ left, ∀ y ∈ succs x, ¬ s'.Fresh y
  leaves : ∀ x ∈ left, ∃ z ∈ left, Path succs (· ∈ left) x z ∧ ∃ y ∈ succs z, y ∈ s.stack

namespace Progress
variable {s s₁ s₂ : State N} {left left₁ left₂ : List N} {new new₁ new₂ : Partition N}

theorem rfl' (hs : s.Wf) : Progress succs s s [] [] where
  wf := hs
  stack := rfl
  kept _ _ := rfl
  hidden x := by simp
  leftFresh := by simp
  newFresh := by simp
  nodup := by simp
  ordered := fun u hu => by simp at hu
  closed := by simp
  leaves := by simp

theorem fresh_iff (hs : s.Wf) (h : Progress succs s s₁ left new) (x : N) :
    s₁.Fresh x ↔ s.Fresh x ∧ x ∉ left ∧ x ∉ flatten new := by
  constructor
  · intro hx
    refine ⟨?_,fun hl => ?_,fun hn => ?_⟩
    · rcases hs.cases x with hc | hc | hc
      · exact hc
      · exact absurd hx ((h.hidden x).mpr (Or.inl hc)).not_fresh
      · exact absurd hx (h.wf.not_fresh (h.stack ▸ List.mem_append_right _ hc))
    · exact h.wf.not_fresh (h.stack ▸ List.mem_append_left _ hl) hx
    · exact ((h.hidden x).mpr (Or.inr hn)).not_fresh hx
  · rintro ⟨hf,hl,hn⟩
    rcases h.wf.cases x with hc | hc | hc
    · exact hc
    · rcases (h.hidden x).mp hc with hc | hc
      · exact absurd hf hc.not_fresh
      · exact absurd hc hn
    · rw [h.stack] at hc
      rcases List.mem_append.mp hc with hc | hc
      · exact absurd hc hl
      · exact absurd hf (hs.not_fresh hc)

theorem fresh_of (hs : s.Wf) (h : Progress succs s s₁ left new) {x : N} (hx : s₁.Fresh x) : s.Fresh x :=
  ((h.fresh_iff hs x).mp hx).1

theorem level_kept (h : Progress succs s s₁ left new) {x : N} (hx : x ∈ s.stack) : s₁.level x = s.level x := by
  rw [level,level,h.kept x hx]

theorem mem_stack (h : Progress succs s s₁ left new) {x : N} (hx : x ∈ s.stack) : x ∈ s₁.stack :=
  h.stack ▸ List.mem_append_right _ hx

theorem trans (hs : s.Wf) (h₁ : Progress succs s s₁ left₁ new₁) (h₂ : Progress succs s₁ s₂ left₂ new₂) :
    Progress succs s s₂ (left₂ ++ left₁) (new₂ ++ new₁) where
  wf := h₂.wf
  stack := by rw [h₂.stack,h₁.stack,List.append_assoc]
  kept x hx := (h₂.kept x (h₁.mem_stack hx)).trans (h₁.kept x hx)
  hidden x := by
    rw [h₂.hidden,h₁.hidden,flatten_append,List.mem_append]
    tauto
  leftFresh x hx := by
    rcases List.mem_append.mp hx with hx | hx
    · exact h₁.fresh_of hs (h₂.leftFresh x hx)
    · exact h₁.leftFresh x hx
  newFresh x hx := by
    rw [flatten_append] at hx
    rcases List.mem_append.mp hx with hx | hx
    · exact h₁.fresh_of hs (h₂.newFresh x hx)
    · exact h₁.newFresh x hx
  nodup := by
    rw [flatten_append]
    refine List.nodup_append.mpr ⟨h₂.nodup,h₁.nodup,fun x hx y hy => ?_⟩
    rintro rfl
    exact ((h₁.fresh_iff hs x).mp (h₂.newFresh x hx)).2.2 hy
  ordered := h₁.ordered.append h₂.ordered fun v hv => (h₁.hidden v).mp hv
  closed x hx y hy := by
    rcases List.mem_append.mp hx with hx | hx
    · exact h₂.closed x hx y hy
    · exact fun hf => h₁.closed x hx y hy (h₂.fresh_of h₁.wf hf)
  leaves x hx := by
    have hleft : ∀ x ∈ left₁, ∃ z ∈ left₂ ++ left₁, Path succs (· ∈ left₂ ++ left₁) x z ∧
        ∃ y ∈ succs z, y ∈ s.stack := by
      intro x hx
      obtain ⟨z,hz,hp,hy⟩ := h₁.leaves x hx
      exact ⟨z,List.mem_append_right _ hz,hp.mono fun _ => List.mem_append_right _,hy⟩
    rcases List.mem_append.mp hx with hx | hx
    · obtain ⟨z,hz,hp,y,hy,hys⟩ := h₂.leaves x hx
      have hp' : Path succs (· ∈ left₂ ++ left₁) x z := hp.mono fun _ => List.mem_append_left _
      rw [h₁.stack] at hys
      -- the way out may end in a vertex left by the earlier visits
      rcases List.mem_append.mp hys with hys | hys
      · obtain ⟨z',hz',hp₁,hy'⟩ := hleft y hys
        exact ⟨z',hz',hp'.trans (Path.head hy (List.mem_append_right _ hys) hp₁),hy'⟩
      · exact ⟨z,List.mem_append_left _ hz,hp',y,hy,hys⟩
    · exact hleft x hx

end Progress

/-- `Progress` made by the visits of the vertices of `done`, whose lowest loop is `loop`. -/
structure Explored (succs : N → List N) (s s' : State N) (done : List N) (loop : Loop N) (left : List N)
    (new : Partition N) : Prop extends Progress succs s s' left new where
  seen : ∀ y ∈ done, ¬ s'.Fresh y
  white : ∀ x, x ∈ left ∨ x ∈ flatten new → ∃ y ∈ done, s.Fresh y ∧ Path succs s.Fresh y x
  tree : ∀ x ∈ left, ∃ y ∈ done, y ∈ left ∧ Path succs (· ∈ left) y x
  noLoop : loop = .noLoop → left = [] ∧ ∀ y ∈ done, s'.Hidden y
  target : ∀ h i, loop = .loop h i → h ∈ s.stack ∧ s.level h = i ∧ (h ∈ done ∨ ∃ z ∈ left, h ∈ succs z)
  lowest : ∀ h i, loop = .loop h i → (∀ y ∈ done, y ∈ s.stack → i ≤ s.level y) ∧
    ∀ x ∈ left, ∀ y ∈ succs x, y ∈ s.stack → i ≤ s.level y

namespace Explored
variable {s s₁ s₂ : State N} {done done₁ done₂ left left₁ left₂ : List N} {new new₁ new₂ : Partition N}
  {loop loop₁ loop₂ : Loop N}

theorem start (hs : s.Wf) : Explored succs s s [] .noLoop [] [] where
  toProgress := Progress.rfl' hs
  seen := by simp
  white := by simp
  tree := by simp
  noLoop _ := by simp
  target := by simp
  lowest := by simp

theorem minLoop_eq_noLoop {x y : Loop N} (h : minLoop x y = .noLoop) : x = .noLoop ∧ y = .noLoop := by
  cases x with
  | noLoop => exact ⟨rfl,h⟩
  | loop a i =>
    cases y with
    | noLoop => cases h
    | loop b j =>
      rw [minLoop] at h
      split_ifs at h

theorem minLoop_cases (h₁ : Explored succs s s₁ done₁ loop₁ left₁ new₁)
    (h₂ : Explored succs s₁ s₂ done₂ loop₂ left₂ new₂) {h : N} {i : ℕ} (hmin : minLoop loop₁ loop₂ = .loop h i) :
    (loop₁ = .loop h i ∧ ∀ h' j, loop₂ = .loop h' j → i ≤ j) ∨
      (loop₂ = .loop h i ∧ h ∈ s.stack ∧ ∀ h' j, loop₁ = .loop h' j → i ≤ j) := by
  cases loop₁ with
  | noLoop =>
    refine Or.inr ⟨hmin,?_,by simp⟩
    have hh := (h₂.target h i hmin).1
    rwa [h₁.stack,(h₁.noLoop rfl).1] at hh
  | loop a j =>
    cases loop₂ with
    | noLoop => exact Or.inl ⟨hmin,by simp⟩
    | loop b k =>
      rw [minLoop] at hmin
      split_ifs at hmin with hjk
      · cases hmin
        exact Or.inl ⟨rfl,fun h' j' he => by cases he; exact hjk⟩
      · cases hmin
        refine Or.inr ⟨rfl,?_,fun h' j' he => by cases he; omega⟩
        obtain ⟨hb,hbk,-⟩ := h₂.target h i rfl
        obtain ⟨ha,haj,-⟩ := h₁.target a j rfl
        rw [h₁.stack] at hb
        rcases List.mem_append.mp hb with hb | hb
        · have hl := h₁.wf.levels
          rw [h₁.stack] at hl
          have hlt := (List.pairwise_append.mp hl).2.2 h hb a ha
          rw [h₁.level_kept ha] at hlt
          omega
        · exact hb

theorem not_hidden_stack (h : Explored succs s s₁ done loop left new) {x : N} (hx : x ∈ s.stack) :
    ¬ s₁.Hidden x := h.wf.not_hidden (h.mem_stack hx)

theorem trans (hs : s.Wf) (h₁ : Explored succs s s₁ done₁ loop₁ left₁ new₁)
    (h₂ : Explored succs s₁ s₂ done₂ loop₂ left₂ new₂) :
    Explored succs s s₂ (done₁ ++ done₂) (minLoop loop₁ loop₂) (left₂ ++ left₁) (new₂ ++ new₁) where
  toProgress := h₁.toProgress.trans hs h₂.toProgress
  seen y hy := by
    rcases List.mem_append.mp hy with hy | hy
    · exact fun hf => h₁.seen y hy (h₂.fresh_of h₁.wf hf)
    · exact h₂.seen y hy
  white x hx := by
    rw [flatten_append,List.mem_append,List.mem_append] at hx
    have hx' : (x ∈ left₁ ∨ x ∈ flatten new₁) ∨ (x ∈ left₂ ∨ x ∈ flatten new₂) := by tauto
    rcases hx' with hx | hx
    · obtain ⟨y,hy,hf,hp⟩ := h₁.white x hx
      exact ⟨y,List.mem_append_left _ hy,hf,hp⟩
    · obtain ⟨y,hy,hf,hp⟩ := h₂.white x hx
      exact ⟨y,List.mem_append_right _ hy,h₁.fresh_of hs hf,hp.mono fun _ => h₁.fresh_of hs⟩
  tree x hx := by
    rcases List.mem_append.mp hx with hx | hx
    · obtain ⟨y,hy,hl,hp⟩ := h₂.tree x hx
      exact ⟨y,List.mem_append_right _ hy,List.mem_append_left _ hl,hp.mono fun _ => List.mem_append_left _⟩
    · obtain ⟨y,hy,hl,hp⟩ := h₁.tree x hx
      exact ⟨y,List.mem_append_left _ hy,List.mem_append_right _ hl,hp.mono fun _ => List.mem_append_right _⟩
  noLoop h := by
    obtain ⟨e₁,e₂⟩ := minLoop_eq_noLoop h
    obtain ⟨hl₁,hd₁⟩ := h₁.noLoop e₁
    obtain ⟨hl₂,hd₂⟩ := h₂.noLoop e₂
    refine ⟨by rw [hl₁,hl₂,List.append_nil],fun y hy => ?_⟩
    rcases List.mem_append.mp hy with hy | hy
    · exact (h₂.hidden y).mpr (Or.inl (hd₁ y hy))
    · exact hd₂ y hy
  target h i hmin := by
    rcases h₁.minLoop_cases h₂ hmin with ⟨e₁,-⟩ | ⟨e₂,hh,-⟩
    · obtain ⟨hst,hi,hc⟩ := h₁.target h i e₁
      refine ⟨hst,hi,?_⟩
      rcases hc with hc | ⟨z,hz,hzs⟩
      · exact Or.inl (List.mem_append_left _ hc)
      · exact Or.inr ⟨z,List.mem_append_right _ hz,hzs⟩
    · obtain ⟨-,hi,hc⟩ := h₂.target h i e₂
      refine ⟨hh,by rw [← h₁.level_kept hh]; exact hi,?_⟩
      rcases hc with hc | ⟨z,hz,hzs⟩
      · exact Or.inl (List.mem_append_right _ hc)
      · exact Or.inr ⟨z,List.mem_append_left _ hz,hzs⟩
  lowest h i hmin := by
    -- each side is bounded by its own loop, or has none
    have hside₁ : (∀ y ∈ done₁, y ∈ s.stack → i ≤ s.level y) ∧
        ∀ x ∈ left₁, ∀ y ∈ succs x, y ∈ s.stack → i ≤ s.level y := by
      cases e₁ : loop₁ with
      | noLoop =>
        obtain ⟨hl,hd⟩ := h₁.noLoop e₁
        refine ⟨fun y hy hys => absurd (hd y hy) (h₁.not_hidden_stack hys),?_⟩
        rw [hl]
        simp
      | loop a j =>
        have hij : i ≤ j := by
          rcases h₁.minLoop_cases h₂ hmin with ⟨e,-⟩ | ⟨-,-,hle⟩
          · rw [e] at e₁
            cases e₁
            exact le_rfl
          · exact hle a j e₁
        obtain ⟨hd,hl⟩ := h₁.lowest a j e₁
        exact ⟨fun y hy hys => hij.trans (hd y hy hys),fun x hx y hy hys => hij.trans (hl x hx y hy hys)⟩
    have hside₂ : (∀ y ∈ done₂, y ∈ s.stack → i ≤ s.level y) ∧
        ∀ x ∈ left₂, ∀ y ∈ succs x, y ∈ s.stack → i ≤ s.level y := by
      cases e₂ : loop₂ with
      | noLoop =>
        obtain ⟨hl,hd⟩ := h₂.noLoop e₂
        refine ⟨fun y hy hys => absurd (hd y hy) (h₂.not_hidden_stack (h₁.mem_stack hys)),?_⟩
        rw [hl]
        simp
      | loop a j =>
        have hij : i ≤ j := by
          rcases h₁.minLoop_cases h₂ hmin with ⟨-,hle⟩ | ⟨e,-,-⟩
          · exact hle a j e₂
          · rw [e] at e₂
            cases e₂
            exact le_rfl
        obtain ⟨hd,hl⟩ := h₂.lowest a j e₂
        refine ⟨fun y hy hys => ?_,fun x hx y hy hys => ?_⟩
        · rw [← h₁.level_kept hys]
          exact hij.trans (hd y hy (h₁.mem_stack hys))
        · rw [← h₁.level_kept hys]
          exact hij.trans (hl x hx y hy (h₁.mem_stack hys))
    refine ⟨fun y hy hys => ?_,fun x hx y hy hys => ?_⟩
    · rcases List.mem_append.mp hy with hy | hy
      · exact hside₁.1 y hy hys
      · exact hside₂.1 y hy hys
    · rcases List.mem_append.mp hx with hx | hx
      · exact hside₂.2 x hx y hy hys
      · exact hside₁.2 x hx y hy hys

end Explored

end FramaC.Wto
