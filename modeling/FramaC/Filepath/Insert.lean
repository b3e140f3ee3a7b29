import FramaC.Filepath.Basic

/-! # Looking names up

The table holds well-formed paths with the directories they are in. A path is looked up in the cache,
then in the table, and is resolved when it is in neither.
-/
namespace FramaC.Filepath
open LexicalPath

def Known (st : State) (p : Path) : Prop := p ∈ st.hcons ∨ p.pathName = []

def Single (s : Name) : Prop := s.IsChain fun a b => ¬ (isSep a = true ∧ isSep b = true)

/-- The states that the module goes through. With `single`, no name of the run has two separators in
a row. -/
structure Inv (single : Bool) (st : State) : Prop where
  wf : ∀ q ∈ st.hcons, q.loc.Wf
  closed : ∀ d b, .child d b ∈ st.hcons → Known st d
  nonempty : single = true → ∀ q ∈ st.hcons, [] ∉ q.loc.comps
  entry : ∀ i pn p, st.cache i = some (pn,p) → p.loc.Wf ∧ Known st p ∧ (single = true → Single pn) ∧
    ((matchRoot pn).isSome → p.loc = fresh ⟨[],[]⟩ pn)

theorem inv_empty (single : Bool) : Inv single .empty where
  wf := by simp [State.empty]
  closed := by simp [State.empty]
  nonempty := by simp [State.empty]
  entry := by simp [State.empty]

structure Extends (st st' : State) : Prop where
  hcons : ∀ q ∈ st.hcons, q ∈ st'.hcons
  cache : st'.cache = st.cache

theorem Extends.refl (st : State) : Extends st st := ⟨fun _ h => h,rfl⟩

theorem Extends.trans {st st' st'' : State} (h : Extends st st') (h' : Extends st' st'') : Extends st st'' :=
  ⟨fun q hq => h'.hcons q (h.hcons q hq),h'.cache.trans h.cache⟩

theorem Known.mono {st st' : State} (h : ∀ q ∈ st.hcons, q ∈ st'.hcons) {p : Path} (hp : Known st p) : Known st' p :=
  hp.imp (h p) id

theorem Loc.Wf.of_name_nil {l : Loc} (h : l.Wf) (hn : l.name = []) : l = ⟨[],[]⟩ := h.name_injective Loc.wf_nil hn

theorem find_some {st : State} {n : Name} {q : Path} (h : st.find n = some q) : q ∈ st.hcons ∧ q.pathName = n :=
  ⟨List.mem_of_find?_eq_some h,by simpa using List.find?_some h⟩

theorem find_none {st : State} {n : Name} (h : st.find n = none) : ∀ q ∈ st.hcons, q.pathName ≠ n := by
  intro q hq
  simpa using List.find?_eq_none.mp h q hq

section Merge
variable {single : Bool} {st : State} {p : Path}

theorem merge_spec (hi : Inv single st) (hp : p.loc.Wf) (hdir : ∀ d b, p = .child d b → Known st d)
    (hne : single = true → [] ∉ p.loc.comps) :
    Inv single (st.merge p).2 ∧ Extends st (st.merge p).2 ∧ (st.merge p).1 ∈ (st.merge p).2.hcons ∧
      (st.merge p).1.loc = p.loc := by
  unfold State.merge
  cases hf : st.find p.pathName with
  | some q =>
    obtain ⟨hq,hname⟩ := find_some hf
    refine ⟨hi,Extends.refl st,hq,(hi.wf q hq).name_injective hp ?_⟩
    rw [← Path.pathName_eq,← Path.pathName_eq,hname]
  | none =>
    have hsub : ∀ q ∈ st.hcons, q ∈ p :: st.hcons := fun q hq => List.mem_cons_of_mem _ hq
    refine ⟨⟨?_,?_,?_,?_⟩,⟨hsub,rfl⟩,List.mem_cons_self,rfl⟩
    · exact List.forall_mem_cons.mpr ⟨hp,hi.wf⟩
    · intro d b hmem
      refine @Known.mono st _ hsub _ ?_
      rcases List.mem_cons.mp hmem with h | h
      · exact hdir d b h.symm
      · exact hi.closed d b h
    · exact fun hs => List.forall_mem_cons.mpr ⟨hne hs,hi.nonempty hs⟩
    · intro i pn q hq
      obtain ⟨h1,h2,h3⟩ := hi.entry i pn q hq
      exact ⟨h1,@Known.mono st _ hsub _ h2,h3⟩

end Merge

theorem known_getdir {single : Bool} {st : State} (hi : Inv single st) {p : Path} (h : Known st p) :
    Known st (getdir p) := by
  cases p with
  | dummy => exact .inr rfl
  | top n => exact .inr rfl
  | child d b =>
    rcases h with h | h
    · exact hi.closed d b h
    · simp [Path.pathName] at h

theorem getdir_nonempty {p : Path} (h : [] ∉ p.loc.comps) : [] ∉ (getdir p).loc.comps := by
  rw [getdir_loc]
  unfold Loc.parent
  split
  · simp
  · exact fun hmem => h (List.dropLast_subset _ hmem)

theorem norm_spec {single : Bool} {st : State} (hi : Inv single st) {path : Path} (hp : path.loc.Wf)
    (hk : Known st path) {ps : List Name} (hps : ∀ q ∈ ps, Plain isSep q)
    (hne : single = true → [] ∉ path.loc.comps ∧ [] ∉ ps) :
    Inv single (norm st path ps).2 ∧ Extends st (norm st path ps).2 ∧ Known (norm st path ps).2 (norm st path ps).1 ∧
      (norm st path ps).1.loc = path.loc.norm ps := by
  induction ps generalizing st path with
  | nil => exact ⟨hi,Extends.refl st,hk,rfl⟩
  | cons p ps ih =>
    have hps' : ∀ q ∈ ps, Plain isSep q := fun q hq => hps q (List.mem_cons_of_mem _ hq)
    have hne' : single = true → [] ∉ ps := fun hs h => (hne hs).2 (List.mem_cons_of_mem _ h)
    rw [norm,Loc.norm]
    split_ifs with hup hdot
    · rw [← getdir_loc]
      refine ih hi ?_ (known_getdir hi hk) hps' fun hs => ⟨getdir_nonempty (hne hs).1,hne' hs⟩
      rw [getdir_loc]
      exact hp.parent
    · exact ih hi hp hk hps' fun hs => ⟨(hne hs).1,hne' hs⟩
    · have hchild : (Path.child path p).loc.Wf := hp.child ⟨hps p List.mem_cons_self,hdot,hup⟩
      have hnonempty : single = true → [] ∉ (Path.child path p).loc.comps := by
        intro hs hmem
        rcases List.mem_append.mp hmem with h | h
        · exact (hne hs).1 h
        · exact (hne hs).2 (by rw [List.mem_singleton.mp h]; exact List.mem_cons_self)
      have hdir : ∀ d b, Path.child path p = .child d b → Known st d := by
        rintro d b ⟨⟩
        exact hk
      obtain ⟨m1,m2,m3,m4⟩ := merge_spec hi hchild hdir hnonempty
      have hloc : (st.make path p).1.loc = path.loc.child p := m4
      have hmade : (st.make path p).1.loc.Wf := by
        rw [hloc]
        exact hchild
      have hrec := ih m1 hmade (.inl m3) hps' fun hs => ⟨by rw [hloc]; exact hnonempty hs,hne' hs⟩
      rw [hloc] at hrec
      exact ⟨hrec.1,m2.trans hrec.2.1,hrec.2.2⟩

theorem split_nonempty {s : Name} (h : Single s) : [] ∉ split s := by
  intro hmem
  cases s with
  | nil => simp [split] at hmem
  | cons c cs =>
    rw [split] at hmem
    split at hmem
    · next hc =>
      refine ne_nil_of_mem_fields h.of_cons (fun _ x hx => ?_) hmem rfl
      cases cs with
      | nil => simp at hx
      | cons y cs =>
        obtain rfl := Option.some.inj hx
        rw [Single,List.isChain_cons_cons] at h
        simpa [hc] using h.1
    · next hc =>
      refine ne_nil_of_mem_fields h (fun _ x hx => ?_) hmem rfl
      obtain rfl := Option.some.inj hx
      simpa using hc

theorem nameParts_nonempty {s : Name} (h : Single s) : [] ∉ nameParts s := fun hmem =>
  split_nonempty h (nameParts_subset s hmem)

theorem fullName_rooted {base : Loc} (h : base.Wf) (s : Name) : (matchRoot (fullName base s)).isSome := by
  unfold fullName
  split
  · assumption
  · rcases h.root with hroot | ⟨d,hd,hroot⟩
    · rw [Loc.name,hroot]
      cases base.comps with
      | nil => rfl
      | cons c cs => rfl
    · have hdrive : ∀ rest : Name, matchRoot (d :: ':' :: '/' :: rest) = some 3 := by
        intro rest
        rcases matchRoot_cases (d :: ':' :: '/' :: rest) with ⟨cs,hcs,_⟩ | ⟨_,_,_,_,_,_,hm⟩ | ⟨hm,_⟩
        · obtain ⟨rfl,-⟩ := List.cons.inj hcs
          exact absurd hd (by decide)
        · exact hm
        · unfold matchRoot at hm
          split at hm
          · cases hm
          · next h =>
            simp only [List.cons.injEq] at h
            obtain ⟨rfl,-,rfl,rfl⟩ := h
            simp [hd,slash_isSep] at hm
          · next h => exact absurd rfl (h _ _ _)
      rw [Loc.name,hroot]
      cases base.comps with
      | nil => exact Option.isSome_iff_exists.mpr ⟨3,hdrive _⟩
      | cons c cs => exact Option.isSome_iff_exists.mpr ⟨3,hdrive _⟩

section Insert
variable {hash : Name → ℕ} {single : Bool} {st : State}

theorem lookup_some {full : Name} {p : Path} (h : lookup hash st full = some p) :
    st.cache (slot hash full) = some (full,p) := by
  unfold lookup at h
  split at h
  · next pn q hq =>
    split at h
    · next he =>
      obtain rfl := Option.some.inj h
      rw [hq,he]
    · cases h
  · cases h

theorem startDir_spec (hi : Inv single st) {base : Path} (hk : Known st base) (s : Name) :
    Inv single (startDir st base s).2 ∧ Extends st (startDir st base s).2 ∧
      Known (startDir st base s).2 (startDir st base s).1 ∧ (startDir st base s).1.loc = start base.loc s := by
  have hroot : ∀ n, ValidRoot n → Inv single (st.root n).2 ∧ Extends st (st.root n).2 ∧
      Known (st.root n).2 (st.root n).1 ∧ (st.root n).1.loc = ⟨n,[]⟩ := by
    intro n hn
    obtain ⟨m1,m2,m3,m4⟩ := merge_spec (p := .top n) hi ⟨hn,by simp [Path.loc]⟩ (by simp) (by simp [Path.loc])
    exact ⟨m1,m2,.inl m3,m4⟩
  unfold startDir start
  rcases matchRoot_cases s with ⟨cs,rfl,hm⟩ | ⟨d,c,rest,rfl,hd,_,hm⟩ | ⟨hm,_⟩
  · rw [hm]
    exact hroot _ (.inl rfl)
  · rw [hm]
    exact hroot _ (.inr ⟨d,hd,rfl⟩)
  · rw [hm]
    exact ⟨hi,Extends.refl st,hk,rfl⟩

theorem insert_spec (hash : Name → ℕ) (hi : Inv single st) {base : Path} (hb : base.loc.Wf) (hk : Known st base) {s : Name}
    (hs : single = true → Single s) :
    Inv single (insert hash st base s).2 ∧ (∀ q ∈ st.hcons, q ∈ (insert hash st base s).2.hcons) ∧
      (insert hash st base s).1.loc.Wf ∧ Known (insert hash st base s).2 (insert hash st base s).1 ∧
      (lookup hash st (fullName base.loc s) = some (insert hash st base s).1 ∨
        lookup hash st (fullName base.loc s) = none ∧
          (((insert hash st base s).1 ∈ st.hcons ∧ (insert hash st base s).1.loc.name = fullName base.loc s) ∨
          (∀ q ∈ st.hcons, q.loc.name ≠ fullName base.loc s) ∧ (insert hash st base s).1.loc = fresh base.loc s)) := by
  unfold insert
  simp only [fullPathName_eq]
  cases hl : lookup hash st (fullName base.loc s) with
  | some p =>
    obtain ⟨h1,h2,_⟩ := hi.entry _ _ _ (lookup_some hl)
    exact ⟨hi,fun _ h => h,h1,h2,.inl rfl⟩
  | none =>
    cases hf : st.find (fullName base.loc s) with
    | some p =>
      obtain ⟨hp,hname⟩ := find_some hf
      rw [Path.pathName_eq] at hname
      exact ⟨hi,fun _ h => h,hi.wf p hp,.inl hp,.inr ⟨rfl,.inl ⟨hp,hname⟩⟩⟩
    | none =>
      obtain ⟨hi',hext,hk',hloc⟩ := startDir_spec hi hk s
      generalize startDir st base s = r at hi' hext hk' hloc ⊢
      obtain ⟨b,st'⟩ := r
      dsimp only at hi' hext hk' hloc ⊢
      have hne : single = true → [] ∉ b.loc.comps ∧ [] ∉ nameParts s := by
        intro hsingle
        refine ⟨?_,nameParts_nonempty (hs hsingle)⟩
        rcases hk' with hmem | hname
        · exact hi'.nonempty hsingle b hmem
        · rw [Path.pathName_eq] at hname
          rw [Loc.Wf.of_name_nil (by rw [hloc]; exact start_wf hb s) hname]
          simp
      obtain ⟨n1,n2,n3,n4⟩ := norm_spec hi' (by rw [hloc]; exact start_wf hb s) hk'
        (fun q hq => plain_of_mem_nameParts hq) hne
      rw [hloc] at n4
      have hfresh : (norm st' b (nameParts s)).1.loc = fresh base.loc s := n4
      refine ⟨⟨n1.wf,n1.closed,n1.nonempty,?_⟩,fun q hq => n2.hcons q (hext.hcons q hq),?_,n3,
        .inr ⟨rfl,.inr ⟨?_,hfresh⟩⟩⟩
      · intro i pn p hp
        dsimp only at hp
        by_cases hslot : i = slot hash (fullName base.loc s)
        · rw [hslot,Function.update_self] at hp
          obtain ⟨rfl,rfl⟩ := Prod.mk.inj (Option.some.inj hp)
          refine ⟨by rw [hfresh]; exact fresh_wf hb _,n3,hs,fun hr => ?_⟩
          rw [hfresh,fresh_rooted hr]
        · rw [Function.update_of_ne hslot] at hp
          exact n1.entry i pn p hp
      · rw [hfresh]
        exact fresh_wf hb s
      · intro q hq
        rw [← Path.pathName_eq]
        exact find_none hf q hq

theorem lookup_fresh (hi : Inv single st) {base : Loc} (hb : base.Wf) {s : Name} {p : Path}
    (h : lookup hash st (fullName base s) = some p) :
    p.loc = fresh ⟨[],[]⟩ (fullName base s) ∧ (single = true → Single (fullName base s)) := by
  obtain ⟨_,_,h1,h2⟩ := hi.entry _ _ _ (lookup_some h)
  exact ⟨h2 (fullName_rooted hb s),h1⟩

end Insert

section Runs
variable {hash : Name → ℕ} {getcwd : Name} {single : Bool}

def Op.names : Op → List Name
  | .normalize b n => b.toList ++ [n]
  | .addSymbolicDir _ dir => [dir]
  | .pretty n => [n]
  | .relativize b n => b.toList ++ [n]
  | .isRelative b n => b.toList ++ [n]

theorem insert_cwd (hash : Name → ℕ) (hs : single = true → Single getcwd) :
    Inv single (initial hash getcwd) ∧ (cwd hash getcwd).loc.Wf ∧ Known (initial hash getcwd) (cwd hash getcwd) := by
  have hdummy : Path.dummy.loc.Wf := Loc.wf_nil
  obtain ⟨h1,_,h3,h4,_⟩ := insert_spec hash (inv_empty single) hdummy (.inr rfl) hs
  exact ⟨h1,h3,h4⟩

structure Ready (hash : Name → ℕ) (getcwd : Name) (single : Bool) (st : State) : Prop where
  inv : Inv single st
  wf : (cwd hash getcwd).loc.Wf
  known : Known st (cwd hash getcwd)

theorem Ready.insert {st : State} (h : Ready hash getcwd single st) {base : Path} (hb : base.loc.Wf)
    (hk : Known st base) {s : Name} (hs : single = true → Single s) :
    Ready hash getcwd single (insert hash st base s).2 := by
  obtain ⟨h1,h2,_⟩ := insert_spec hash h.inv hb hk hs
  exact ⟨h1,h.wf,@Known.mono st _ h2 _ h.known⟩

theorem Ready.insert_cwd {st : State} (h : Ready hash getcwd single st) {s : Name} (hs : single = true → Single s) :
    Ready hash getcwd single (Filepath.insert hash st (cwd hash getcwd) s).2 :=
  h.insert h.wf h.known hs

theorem Ready.baseDir {st : State} (h : Ready hash getcwd single st) {b : Option Name}
    (hs : single = true → ∀ s ∈ b.toList, Single s) :
    Ready hash getcwd single (baseDir hash getcwd st b).2 ∧ (baseDir hash getcwd st b).1.loc.Wf ∧
      Known (Filepath.baseDir hash getcwd st b).2 (Filepath.baseDir hash getcwd st b).1 := by
  cases b with
  | none => exact ⟨h,h.wf,h.known⟩
  | some b =>
    have hb : single = true → Single b := fun hsingle => hs hsingle b (by simp)
    obtain ⟨_,_,h3,h4,_⟩ := insert_spec hash h.inv h.wf h.known hb
    exact ⟨h.insert_cwd hb,h3,h4⟩

theorem Ready.symbolic {st : State} (h : Ready hash getcwd single st) (sym : List (Path × Name)) :
    Ready hash getcwd single { st with symbolicName := sym } :=
  ⟨⟨h.inv.wf,h.inv.closed,h.inv.nonempty,h.inv.entry⟩,h.wf,h.known⟩

theorem Ready.run {st : State} (h : Ready hash getcwd single st) (op : Op)
    (hs : single = true → ∀ s ∈ op.names, Single s) : Ready hash getcwd single (op.run hash getcwd st) := by
  have hlast : ∀ (b : Option Name) (n : Name), (single = true → ∀ s ∈ b.toList ++ [n], Single s) →
      (single = true → ∀ s ∈ b.toList, Single s) ∧ (single = true → Single n) := by
    intro b n hbn
    exact ⟨fun hsingle s hmem => hbn hsingle s (List.mem_append_left _ hmem),fun hsingle => hbn hsingle n (by simp)⟩
  cases op with
  | normalize b n =>
    obtain ⟨hb,hn⟩ := hlast b n hs
    simp only [Op.run,Filepath.normalize]
    split
    · exact h
    · obtain ⟨h1,h2,h3⟩ := h.baseDir hb
      exact h1.insert h2 h3 hn
  | addSymbolicDir name dir => exact (h.insert_cwd fun hsingle => hs hsingle dir (by simp [Op.names])).symbolic _
  | pretty n =>
    have hn : single = true → Single n := fun hsingle => hs hsingle n (by simp [Op.names])
    simp only [Op.run,Filepath.pretty]
    split
    · exact h
    · split <;> exact h.insert_cwd hn
  | relativize b n =>
    obtain ⟨hb,hn⟩ := hlast b n hs
    simp only [Op.run,Filepath.relativize]
    split
    · exact ((h.insert_cwd hn).baseDir hb).1
    · split <;> exact ((h.insert_cwd hn).baseDir hb).1
  | isRelative b n =>
    obtain ⟨hb,hn⟩ := hlast b n hs
    exact ((h.insert_cwd hn).baseDir hb).1

theorem ready_stateAfter (ops : List Op) (hcwd : single = true → Single getcwd)
    (hs : single = true → ∀ op ∈ ops, ∀ s ∈ op.names, Single s) :
    Ready hash getcwd single (stateAfter hash getcwd ops) := by
  have hinit : Ready hash getcwd single (initial hash getcwd) := by
    obtain ⟨h1,h2,h3⟩ := insert_cwd hash hcwd
    exact ⟨h1,h2,h3⟩
  unfold stateAfter
  generalize initial hash getcwd = st at hinit
  induction ops generalizing st with
  | nil => exact hinit
  | cons op ops ih =>
    refine ih (fun hsingle op hop => hs hsingle op (List.mem_cons_of_mem _ hop)) _ ?_
    exact hinit.run op fun hsingle => hs hsingle op List.mem_cons_self

end Runs
end FramaC.Filepath
