import FramaC.PropertyStatus.Order

/-! # The strongest emitted status

A local status is folded from the emitted statuses in the order of a hash table. Its constructor and
its status only depend on which statuses were emitted, and each emitter that it records emitted a
status of its side.
-/
namespace FramaC.PropertyStatus
variable {P E : Type}

def isFalse : Emitted → Bool
  | .falseIfReachable => true
  | .falseAndReachable => true
  | _ => false

/-- Nothing is known below the other statuses; a false status is stronger when it is reachable. -/
def AtMost : Emitted → Emitted → Prop
  | .dontKnow,_ => True
  | .falseIfReachable,.falseAndReachable => True
  | s,s' => s = s'

theorem AtMost.refl (s : Emitted) : AtMost s s := by cases s <;> simp [AtMost]

theorem AtMost.trans {s₁ s₂ s₃ : Emitted} (h : AtMost s₁ s₂) (h' : AtMost s₂ s₃) : AtMost s₁ s₃ := by
  cases s₁ <;> cases s₂ <;> cases s₃ <;> simp [AtMost] at h h' ⊢

def Contradictory (l : List Emitted) : Prop := .true ∈ l ∧ ∃ s ∈ l, isFalse s = true

def Strongest (l : List Emitted) (s : Emitted) : Prop := s ∈ l ∧ ∀ s' ∈ l, AtMost s' s

/-- `strengthen` folded over the emitted statuses. -/
def strengthenAll (l : List (Emission P E × Emitted)) : Option (Local P E) :=
  l.foldlM (fun acc x => strengthen x.1 x.2 acc) .neverTried

def Recorded (l : List (Emission P E × Emitted)) : Local P E → Prop
  | .neverTried => True
  | .best s em => ∀ e ∈ em, (e,s) ∈ l
  | .inconsistent valid invalid =>
    (∀ e ∈ valid, (e,.true) ∈ l) ∧ ∀ e ∈ invalid, ∃ s, isFalse s = true ∧ (e,s) ∈ l

def LocalKind.Of (l : List Emitted) : LocalKind → Prop
  | .neverTried => l = []
  | .best s => Strongest l s ∧ ¬ Contradictory l
  | .inconsistent => Contradictory l

theorem Contradictory.append {l : List Emitted} (h : Contradictory l) (s : Emitted) : Contradictory (l ++ [s]) :=
  ⟨List.mem_append_left _ h.1,h.2.imp fun _ hs => ⟨List.mem_append_left _ hs.1,hs.2⟩⟩

theorem contradictory_append_iff {l : List Emitted} {s : Emitted} (h : ¬ Contradictory l) :
    Contradictory (l ++ [s]) ↔ (s = .true ∧ ∃ s' ∈ l, isFalse s' = true) ∨ isFalse s = true ∧ .true ∈ l := by
  constructor
  · rintro ⟨ht,s',hs',hf⟩
    rcases List.mem_append.mp ht with ht | ht <;> rcases List.mem_append.mp hs' with hs' | hs'
    · exact absurd ⟨ht,s',hs',hf⟩ h
    · exact .inr ⟨List.mem_singleton.mp hs' ▸ hf,ht⟩
    · exact .inl ⟨(List.mem_singleton.mp ht).symm,s',hs',hf⟩
    · rw [List.mem_singleton.mp hs',← List.mem_singleton.mp ht] at hf
      exact absurd hf (by decide)
  · rintro (⟨rfl,s',hs',hf⟩ | ⟨hf,ht⟩)
    · exact ⟨by simp,s',List.mem_append_left _ hs',hf⟩
    · exact ⟨List.mem_append_left _ ht,s,by simp,hf⟩

theorem Strongest.side {l : List Emitted} {s₀ : Emitted} (h : Strongest l s₀) :
    (.true ∈ l ↔ s₀ = .true) ∧ ((∃ s ∈ l, isFalse s = true) ↔ isFalse s₀ = true) := by
  obtain ⟨hmem,hle⟩ := h
  refine ⟨⟨fun ht => ?_,fun ht => ht ▸ hmem⟩,⟨?_,fun hf => ⟨s₀,hmem,hf⟩⟩⟩
  · have hat := hle _ ht
    cases s₀ <;> simp [AtMost] at hat ⊢
  · rintro ⟨s,hs,hf⟩
    have hat := hle s hs
    cases s <;> cases s₀ <;> simp [AtMost,isFalse] at hat hf ⊢

theorem LocalKind.Of.join {l : List Emitted} {k : LocalKind} (h : k.Of l) (s : Emitted) : (k.join s).Of (l ++ [s]) := by
  cases k with
  | neverTried =>
    obtain rfl : l = [] := h
    refine ⟨⟨by simp,?_⟩,?_⟩
    · intro s' hs'
      obtain rfl : s' = s := by simpa using hs'
      exact AtMost.refl s'
    · rintro ⟨ht,s',hs',hf⟩
      obtain rfl : Emitted.true = s := by simpa using ht
      obtain rfl : s' = .true := by simpa using hs'
      exact absurd hf (by decide)
  | inconsistent => exact Contradictory.append h s
  | best s₀ =>
    obtain ⟨hst,hno⟩ := h
    have hiff := contradictory_append_iff (s := s) hno
    obtain ⟨htrue,hfalse⟩ := hst.side
    rw [htrue,hfalse] at hiff
    obtain ⟨hmem,hle⟩ := hst
    -- the new status is either the strongest, or below the old one, or contradicts it
    have hnew : AtMost s₀ s → Strongest (l ++ [s]) s := by
      intro hs
      refine ⟨by simp,fun s' hs' => ?_⟩
      rcases List.mem_append.mp hs' with hs' | hs'
      · exact (hle s' hs').trans hs
      · obtain rfl : s' = s := by simpa using hs'
        exact AtMost.refl s'
    have hold : AtMost s s₀ → Strongest (l ++ [s]) s₀ := by
      intro hs
      refine ⟨List.mem_append_left _ hmem,fun s' hs' => ?_⟩
      rcases List.mem_append.mp hs' with hs' | hs'
      · exact hle s' hs'
      · obtain rfl : s' = s := by simpa using hs'
        exact hs
    cases s₀ <;> cases s <;>
      first
        | exact hiff.mpr (.inl ⟨rfl,rfl⟩)
        | exact hiff.mpr (.inr ⟨rfl,rfl⟩)
        | exact ⟨hold trivial,fun hc => by simpa [isFalse] using hiff.mp hc⟩
        | exact ⟨hold rfl,fun hc => by simpa [isFalse] using hiff.mp hc⟩
        | exact ⟨hnew trivial,fun hc => by simpa [isFalse] using hiff.mp hc⟩

theorem Recorded.strengthenBy {l : List (Emission P E × Emitted)} {status : Local P E} (h : Recorded l status)
    (x : Emission P E × Emitted) : Recorded (l ++ [x]) (strengthenBy status x) := by
  obtain ⟨e,s⟩ := x
  have hmono : ∀ {y}, y ∈ l → y ∈ l ++ [(e,s)] := fun hy => List.mem_append_left _ hy
  have hnew : (e,s) ∈ l ++ [(e,s)] := by simp
  have hone : ∀ e' ∈ [e], (e',s) ∈ l ++ [(e,s)] := by
    intro e' he'
    rw [List.mem_singleton.mp he']
    exact hnew
  have hcons : ∀ {em : List (Emission P E)} {s' : Emitted}, s' = s → (∀ e' ∈ em, (e',s') ∈ l) →
      ∀ e' ∈ e :: em, (e',s') ∈ l ++ [(e,s)] := by
    rintro em s' rfl hem e' he'
    rcases List.mem_cons.mp he' with rfl | he'
    · exact hnew
    · exact hmono (hem e' he')
  have hfalse : ∀ {em : List (Emission P E)} {s' : Emitted}, isFalse s' = true → (∀ e' ∈ em, (e',s') ∈ l) →
      ∀ e' ∈ em, ∃ s', isFalse s' = true ∧ (e',s') ∈ l ++ [(e,s)] :=
    fun hs' hem e' he' => ⟨_,hs',hmono (hem e' he')⟩
  have hfalseNew : isFalse s = true → ∀ e' ∈ [e], ∃ s', isFalse s' = true ∧ (e',s') ∈ l ++ [(e,s)] :=
    fun hs e' he' => ⟨s,hs,hone e' he'⟩
  cases status with
  | neverTried => exact hone
  | best s₀ em =>
    cases s₀ <;> cases s <;>
      first
        | exact hcons rfl h
        | exact fun e' he' => hmono (h e' he')
        | exact hone
        | exact ⟨fun e' he' => hmono (h e' he'),hfalseNew rfl⟩
        | exact ⟨hone,hfalse rfl h⟩
  | inconsistent valid invalid =>
    obtain ⟨hv,hi⟩ := h
    have hi' : ∀ e' ∈ invalid, ∃ s', isFalse s' = true ∧ (e',s') ∈ l ++ [(e,s)] :=
      fun e' he' => (hi e' he').imp fun _ hs' => ⟨hs'.1,hmono hs'.2⟩
    have hiNew : isFalse s = true → ∀ e' ∈ e :: invalid, ∃ s', isFalse s' = true ∧ (e',s') ∈ l ++ [(e,s)] := by
      intro hs e' he'
      rcases List.mem_cons.mp he' with rfl | he'
      · exact ⟨s,hs,hnew⟩
      · exact hi' e' he'
    cases s with
    | true => exact ⟨hcons rfl hv,hi'⟩
    | falseIfReachable => exact ⟨fun e' he' => hmono (hv e' he'),hiNew rfl⟩
    | falseAndReachable => exact ⟨fun e' he' => hmono (hv e' he'),hiNew rfl⟩
    | dontKnow => exact ⟨fun e' he' => hmono (hv e' he'),hi'⟩

theorem strengthenAll_eq (l : List (Emission P E × Emitted)) : strengthenAll l = some (localFrom l) := by
  induction l using List.reverseRecOn with
  | nil => rfl
  | append_singleton l x ih =>
    unfold strengthenAll at ih ⊢
    have hlast : strengthen x.1 x.2 (localFrom l) = some (localFrom (l ++ [x])) := by
      rw [strengthen_eq,localFrom,localFrom,List.foldl_append]
      rfl
    rw [List.foldlM_append,ih]
    simp only [Option.bind_eq_bind,Option.bind_some,List.foldlM_cons,List.foldlM_nil,hlast]
    rfl

theorem localFrom_of (l : List (Emission P E × Emitted)) : (localFrom l).kind.Of (l.map Prod.snd) := by
  induction l using List.reverseRecOn with
  | nil => rfl
  | append_singleton l x ih =>
    have hstep : localFrom (l ++ [x]) = strengthenBy (localFrom l) x := by
      rw [localFrom,List.foldl_append]
      rfl
    rw [hstep,strengthenBy_kind,List.map_append]
    exact ih.join x.2

theorem localFrom_recorded (l : List (Emission P E × Emitted)) : Recorded l (localFrom l) := by
  induction l using List.reverseRecOn with
  | nil => trivial
  | append_singleton l x ih =>
    have hstep : localFrom (l ++ [x]) = strengthenBy (localFrom l) x := by
      rw [localFrom,List.foldl_append]
      rfl
    rw [hstep]
    exact ih.strengthenBy x

theorem localFrom_kind_perm {l l' : List (Emission P E × Emitted)} (h : l'.Perm l) :
    (localFrom l').kind = (localFrom l).kind := by
  rw [localFrom_kind,localFrom_kind]
  exact (h.map Prod.snd).foldl_eq' (fun x _ y _ k => LocalKind.join_right_comm k x y) _

/-- In any order, the emitted statuses fold to `Never_tried` when there is none, to `Inconsistent`
exactly on a contradiction, and to the strongest one otherwise. -/
theorem strengthen_order_free (l : List (Emission P E × Emitted)) :
    ∃ r, strengthenAll l = some r ∧
      (∀ l', l'.Perm l → ∃ r', strengthenAll l' = some r' ∧ r'.kind = r.kind) ∧
      (r.kind = .neverTried ↔ l = []) ∧
      (r.kind = .inconsistent ↔ Contradictory (l.map Prod.snd)) ∧
      (l ≠ [] → ¬ Contradictory (l.map Prod.snd) → ∃ s, r.kind = .best s ∧ Strongest (l.map Prod.snd) s) ∧
      Recorded l r := by
  have hof := localFrom_of l
  refine ⟨localFrom l,strengthenAll_eq l,fun l' hl' => ⟨_,strengthenAll_eq l',localFrom_kind_perm hl'⟩,?_,?_,?_,
    localFrom_recorded l⟩
  · cases hk : (localFrom l).kind with
    | neverTried =>
      rw [hk] at hof
      exact iff_of_true rfl (List.map_eq_nil_iff.mp hof)
    | best s =>
      rw [hk] at hof
      refine iff_of_false (by simp) fun hnil => ?_
      rw [hnil] at hof
      exact absurd hof.1.1 (by simp)
    | inconsistent =>
      rw [hk] at hof
      refine iff_of_false (by simp) fun hnil => ?_
      rw [hnil] at hof
      exact absurd hof.1 (by simp)
  · cases hk : (localFrom l).kind with
    | neverTried =>
      rw [hk] at hof
      refine iff_of_false (by simp) fun hc => ?_
      rw [show l.map Prod.snd = [] from hof] at hc
      exact absurd hc.1 (by simp)
    | best s =>
      rw [hk] at hof
      exact iff_of_false (by simp) hof.2
    | inconsistent =>
      rw [hk] at hof
      exact iff_of_true rfl hof
  · intro hne hno
    cases hk : (localFrom l).kind with
    | neverTried =>
      rw [hk] at hof
      exact absurd (List.map_eq_nil_iff.mp hof) hne
    | best s =>
      rw [hk] at hof
      exact ⟨s,rfl,hof.1⟩
    | inconsistent =>
      rw [hk] at hof
      exact absurd hof hno

/-- Without any emitted status there is no strongest one. -/
theorem strengthen_empty_not_best :
    ¬ ∀ l : List (Emission Unit Unit × Emitted), ∃ r, strengthenAll l = some r ∧
      (r.kind = .inconsistent ↔ Contradictory (l.map Prod.snd)) ∧
      (¬ Contradictory (l.map Prod.snd) → ∃ s, r.kind = .best s ∧ Strongest (l.map Prod.snd) s) := by
  intro h
  obtain ⟨r,-,-,hbest⟩ := h []
  obtain ⟨s,-,hs⟩ := hbest fun hc => absurd hc.1 (by simp)
  exact absurd hs.1 (by simp)

end FramaC.PropertyStatus
