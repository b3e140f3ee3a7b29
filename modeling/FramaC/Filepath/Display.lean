import FramaC.Filepath.Normalize

/-! # Displayed names

A displayed name is read back against the current directory. It leads to the same file when the
directory that was cut off is followed by a separator and the cache has no other path for it.
-/
namespace FramaC.Filepath
open LexicalPath

theorem stringPrefix_iff {pre s : Name} : stringPrefix false pre s = true ↔ ∃ d, s = pre ++ d := by
  simp only [stringPrefix,Bool.false_eq_true,if_false,Nat.add_zero,Bool.and_eq_true,decide_eq_true_eq,beq_iff_eq]
  refine ⟨fun ⟨_,h⟩ => ⟨s.drop pre.length,?_⟩,?_⟩
  · have happ := List.take_append_drop pre.length s
    rw [h] at happ
    exact happ.symm
  · rintro ⟨d,rfl⟩
    simp

theorem stringPrefix_strict_iff {pre s : Name} : stringPrefix true pre s = true ↔ ∃ c d, s = pre ++ c :: d := by
  simp only [stringPrefix,if_true,Bool.and_eq_true,decide_eq_true_eq,beq_iff_eq]
  constructor
  · rintro ⟨hlen,h⟩
    have happ := List.take_append_drop pre.length s
    rw [h] at happ
    cases hd : s.drop pre.length with
    | nil =>
      rw [List.drop_eq_nil_iff] at hd
      omega
    | cons c d => exact ⟨c,d,by rw [← happ,hd]⟩
  · rintro ⟨c,d,rfl⟩
    simp

section Merge
variable {P : State → Prop} (hmerge : ∀ st p, P st → P (st.merge p).2)
include hmerge

theorem norm_preserves {st : State} (h : P st) (path : Path) (ps : List Name) : P (norm st path ps).2 := by
  induction ps generalizing st path with
  | nil => exact h
  | cons p ps ih =>
    rw [norm]
    split_ifs
    · exact ih h _
    · exact ih h _
    · exact ih (hmerge _ _ h) _

theorem startDir_preserves {st : State} (h : P st) (base : Path) (s : Name) : P (startDir st base s).2 := by
  unfold startDir
  split
  · exact hmerge _ _ h
  · exact h

end Merge

section Symbolic
variable {hash : Name → ℕ} {getcwd : Name}

def Op.Plain : Op → Prop
  | .addSymbolicDir _ _ => False
  | _ => True

variable (hash) in
theorem insert_symbolicName {st : State} (h : st.symbolicName = []) (base : Path) (s : Name) :
    (insert hash st base s).2.symbolicName = [] := by
  have hmerge : ∀ (st : State) p, st.symbolicName = [] → (st.merge p).2.symbolicName = [] := by
    intro st p h
    unfold State.merge
    split
    · exact h
    · simp [State.add,h]
  unfold insert
  dsimp only
  split
  · exact h
  · split
    · exact h
    · exact norm_preserves hmerge (startDir_preserves hmerge h _ _) _ _

theorem baseDir_symbolicName {st : State} (h : st.symbolicName = []) (b : Option Name) :
    (baseDir hash getcwd st b).2.symbolicName = [] := by
  cases b with
  | none => exact h
  | some b => exact insert_symbolicName _ h _ _

theorem Op.Plain.run {op : Op} (hop : op.Plain) {st : State} (h : st.symbolicName = []) :
    (op.run hash getcwd st).symbolicName = [] := by
  cases op with
  | normalize b n =>
    simp only [Op.run,Filepath.normalize]
    split
    · exact h
    · exact insert_symbolicName _ (baseDir_symbolicName h b) _ _
  | addSymbolicDir name dir => exact hop.elim
  | pretty n =>
    simp only [Op.run,Filepath.pretty]
    split
    · exact h
    · split <;> exact insert_symbolicName _ h _ _
  | relativize b n =>
    have hfile := insert_symbolicName hash h (cwd hash getcwd) n
    simp only [Op.run,Filepath.relativize]
    split
    · exact baseDir_symbolicName hfile b
    · split <;> exact baseDir_symbolicName hfile b
  | isRelative b n => exact baseDir_symbolicName (insert_symbolicName _ h _ _) b

theorem symbolicName_stateAfter {ops : List Op} (hops : ∀ op ∈ ops, op.Plain) :
    (stateAfter hash getcwd ops).symbolicName = [] := by
  have hinit : (initial hash getcwd).symbolicName = [] := insert_symbolicName hash rfl .dummy getcwd
  unfold stateAfter
  generalize initial hash getcwd = st at hinit
  induction ops generalizing st with
  | nil => exact hinit
  | cons op ops ih =>
    exact ih (fun op' h => hops op' (List.mem_cons_of_mem _ h)) _ ((hops op List.mem_cons_self).run hinit)

theorem addPath_eq {st : State} (h : st.symbolicName = []) {p : Path}
    (hp : ¬ ∃ c d, p.pathName = (cwd hash getcwd).pathName ++ c :: d) : addPath hash getcwd st p = p.pathName := by
  induction p with
  | dummy => simp [addPath,h,Path.pathName]
  | top n => simp [addPath,h,Path.pathName]
  | child d b ih =>
    have hdir : d ≠ cwd hash getcwd := by
      rintro rfl
      exact hp ⟨'/',b,rfl⟩
    have hrec := ih (by
      rintro ⟨c,e,he⟩
      exact hp ⟨c,e ++ '/' :: b,by rw [Path.pathName,he]; simp⟩)
    simp [addPath,h,hdir,hrec,Path.pathName]

end Symbolic

section Target
variable {hash : Name → ℕ} {single : Bool} {st : State}

def Resolves (hash : Name → ℕ) (st : State) (f : Name) : Prop := lookup hash st f = none ∧ st.find f = none

/-- The name of the path for an absolute name: the same name when it is that of a path in the table and
is not in the cache, and what it resolves to otherwise. -/
def target (hash : Name → ℕ) (st : State) (f : Name) : Name :=
  if lookup hash st f = none ∧ st.find f ≠ none then f else (fresh ⟨[],[]⟩ f).name

/-- The cache answers for a full name, with a path that has another name than the target of `f`; the
look-up of `f` does not overwrite the answer. -/
def Stale (hash : Name → ℕ) (st : State) (f full : Name) : Prop :=
  lookup hash st full ≠ none ∧ displayRoot (fresh ⟨[],[]⟩ full).name ≠ displayRoot (target hash st f) ∧
    ¬ (Resolves hash st f ∧ slot hash f = slot hash full)

theorem fullName_of_rooted {f : Name} (hf : (matchRoot f).isSome) (base : Loc) : fullName base f = f := if_pos hf

variable (hash) in
theorem insert_target (hi : Inv single st) {base : Path} (hb : base.loc.Wf) (hk : Known st base) {f : Name}
    (hsingle : single = true → Single f) (hf : (matchRoot f).isSome) :
    (insert hash st base f).1.pathName = target hash st f := by
  obtain ⟨_,_,_,_,hcases⟩ := insert_spec hash hi hb hk hsingle
  rw [fullName_of_rooted hf] at hcases
  rw [Path.pathName_eq,target]
  rcases hcases with h | ⟨hl,⟨hmem,hname⟩ | ⟨hnone,h⟩⟩
  · rw [if_neg (by rw [h]; simp)]
    rw [(hi.entry _ _ _ (lookup_some h)).2.2.2 hf]
  · rw [if_pos,hname]
    refine ⟨hl,fun hfind => ?_⟩
    have := find_none hfind _ hmem
    rw [Path.pathName_eq] at this
    exact this hname
  · rw [if_neg,h,fresh_rooted hf]
    rintro ⟨_,hfind⟩
    obtain ⟨q,hq⟩ := Option.ne_none_iff_exists'.mp hfind
    obtain ⟨hmem,hname⟩ := find_some hq
    rw [Path.pathName_eq] at hname
    exact hnone q hmem hname

variable (hash) in
theorem insert_cache (st : State) (base : Path) {f : Name} (hf : (matchRoot f).isSome) :
    (Resolves hash st f ∧ (insert hash st base f).2.cache =
        Function.update st.cache (slot hash f) (some (f,(insert hash st base f).1))) ∨
      ¬ Resolves hash st f ∧ (insert hash st base f).2.cache = st.cache := by
  have hmerge : ∀ (st' : State) p, st'.cache = st.cache → (st'.merge p).2.cache = st.cache := by
    intro st' p h
    unfold State.merge
    split <;> exact h
  have hfull : fullPathName base f = f := if_pos hf
  unfold insert Resolves
  simp only [hfull]
  cases hl : lookup hash st f with
  | some p => exact .inr ⟨by simp,rfl⟩
  | none =>
    cases hfind : st.find f with
    | some p => exact .inr ⟨by simp,rfl⟩
    | none =>
      refine .inl ⟨⟨rfl,rfl⟩,?_⟩
      have hcache := norm_preserves hmerge (startDir_preserves hmerge rfl base f) (startDir st base f).1 (nameParts f)
      rw [← hcache]

theorem lookup_insert_iff (hi : Inv single st) {base : Path} (hb : base.loc.Wf) (hk : Known st base) {f : Name}
    (hsingle : single = true → Single f) (hf : (matchRoot f).isSome) {full : Name} (hfull : (matchRoot full).isSome) :
    (∃ p, lookup hash (insert hash st base f).2 full = some p ∧
        displayRoot p.pathName ≠ displayRoot (target hash st f)) ↔ Stale hash st f full := by
  have hbefore : (∃ p, lookup hash st full = some p ∧ displayRoot p.pathName ≠ displayRoot (target hash st f)) ↔
      lookup hash st full ≠ none ∧ displayRoot (fresh ⟨[],[]⟩ full).name ≠ displayRoot (target hash st f) := by
    have hname : ∀ p, lookup hash st full = some p → p.pathName = (fresh ⟨[],[]⟩ full).name := by
      intro p hp
      rw [Path.pathName_eq,(hi.entry _ _ _ (lookup_some hp)).2.2.2 hfull]
    constructor
    · rintro ⟨p,hp,hne⟩
      rw [hname p hp] at hne
      exact ⟨by rw [hp]; simp,hne⟩
    · rintro ⟨hsome,hne⟩
      obtain ⟨p,hp⟩ := Option.ne_none_iff_exists'.mp hsome
      exact ⟨p,hp,by rwa [hname p hp]⟩
  rcases insert_cache hash st base hf with ⟨hres,hcache⟩ | ⟨hres,hcache⟩
  · by_cases hslot : slot hash f = slot hash full
    · -- the slot now has the answer for `f`
      refine iff_of_false ?_ fun h => h.2.2 ⟨hres,hslot⟩
      rintro ⟨p,hp,hne⟩
      have hentry := lookup_some hp
      rw [hcache,← hslot,Function.update_self] at hentry
      obtain ⟨-,rfl⟩ := Prod.mk.inj (Option.some.inj hentry)
      exact hne (by rw [insert_target hash hi hb hk hsingle hf])
    · have hlook : lookup hash (insert hash st base f).2 full = lookup hash st full := by
        rw [lookup,lookup,hcache,Function.update_of_ne (Ne.symm hslot)]
      rw [hlook,hbefore]
      exact ⟨fun h => ⟨h.1,h.2,fun h => hslot h.2⟩,fun h => ⟨h.1,h.2.1⟩⟩
  · have hlook : lookup hash (insert hash st base f).2 full = lookup hash st full := by rw [lookup,lookup,hcache]
    rw [hlook,hbefore]
    exact ⟨fun h => ⟨h.1,h.2,fun h => hres h.1⟩,fun h => ⟨h.1,h.2.1⟩⟩

end Target

theorem matchRoot_slash {s : Name} (h : s.head? = some '/') : (matchRoot s).isSome := by
  cases s with
  | nil => cases h
  | cons c cs =>
    obtain rfl := Option.some.inj h
    rfl

theorem fresh_root {s : Name} (h : s.head? = some '/') (base : Loc) : (fresh base s).root = [] := by
  cases s with
  | nil => cases h
  | cons c cs =>
    obtain rfl := Option.some.inj h
    exact Loc.norm_root rfl _

theorem displayRoot_ne_nil (n : Name) : displayRoot n ≠ [] := by
  unfold displayRoot
  split
  · exact List.cons_ne_nil _ _
  · assumption

theorem displayRoot_of_ne {n : Name} (h : n ≠ []) : displayRoot n = n := if_neg h

theorem length_displayRoot (n : Name) : (displayRoot n).length ≤ max 1 n.length := by
  unfold displayRoot
  split
  · exact Nat.le_max_left _ _
  · exact Nat.le_max_right _ _

theorem length_fresh_dot {l : Loc} (h : l.Wf) (hroot : l.root = []) :
    (fresh ⟨[],[]⟩ (l.name ++ ['/','.'])).name.length ≤ l.name.length := by
  have hname : l.name = tail '/' l.comps := by
    rw [Loc.name,hroot]
    rfl
  have hsplit : split (tail '/' l.comps ++ '/' :: ['.']) = l.comps ++ [['.']] :=
    split_tail_append (fun f hf => (h.comps f hf).1) (by simp [isSep])
  have hstart : start ⟨[],[]⟩ (tail '/' l.comps ++ '/' :: ['.']) = ⟨[],[]⟩ := by cases l.comps <;> rfl
  have hresolve : ∀ fs : List Name, (∀ f ∈ fs, ValidComp f) →
      Loc.norm ⟨[],[]⟩ (fs ++ [['.']]) = ⟨[],fs⟩ := by
    intro fs hfs
    rw [Loc.norm_eq_resolve,resolve_append,resolve_clean (clean_of_valid hfs)]
    rfl
  rw [hname,fresh,hstart,nameParts,hsplit]
  cases hc : l.comps with
  | nil => exact Nat.le_refl _
  | cons c cs =>
    have hvalid : ∀ f ∈ c :: cs, ValidComp f := by
      rw [← hc]
      exact h.comps
    show (Loc.norm ⟨[],[]⟩ (if matchDrive c then cs ++ [['.']] else (c :: cs) ++ [['.']])).name.length ≤ _
    split
    · rw [hresolve cs fun f hf => hvalid f (List.mem_cons_of_mem _ hf),Loc.name,tail_cons,List.nil_append,
        List.length_append]
      exact Nat.le_add_left _ _
    · rw [hresolve _ hvalid]
      simp [Loc.name]

section Insert
variable {hash : Name → ℕ} {single : Bool} {st : State} {base : Path}
variable (hi : Inv single st) (hb : base.loc.Wf) (hk : Known st base)
include hi hb hk

theorem insert_root {f : Name} (hsingle : single = true → Single f) (hf : f.head? = some '/') :
    (insert hash st base f).1.loc.root = [] := by
  have hrooted := matchRoot_slash hf
  obtain ⟨_,_,hwf,_,hcases⟩ := insert_spec hash hi hb hk hsingle
  rw [fullName_of_rooted hrooted] at hcases
  rcases hcases with h | ⟨_,⟨_,hname⟩ | ⟨_,h⟩⟩
  · rw [(hi.entry _ _ _ (lookup_some h)).2.2.2 hrooted]
    exact fresh_root hf _
  · cases f with
    | nil => cases hf
    | cons c cs =>
      obtain rfl := Option.some.inj hf
      exact hwf.root_nil hname
  · rw [h]
    exact fresh_root hf _

variable (hash) in
theorem length_insert (s : Name) (hsingle : single = true → Single s) :
    (insert hash st base s).1.pathName.length ≤ (fullName base.loc s).length ∧
      ((∀ c ∈ fullName base.loc s, isSep c = true → c = '/') →
        (insert hash st base s).1.pathName.length = (fullName base.loc s).length →
          (insert hash st base s).1.pathName = fullName base.loc s) := by
  obtain ⟨_,_,_,_,hcases⟩ := insert_spec hash hi hb hk hsingle
  rw [Path.pathName_eq]
  rcases hcases with h | ⟨_,⟨_,hname⟩ | ⟨_,h⟩⟩
  · have hrooted := fullName_rooted hb s
    have hlen := @length_fresh ⟨[],[]⟩ (fullName base.loc s)
    rw [fullName_of_rooted hrooted] at hlen
    rw [(lookup_fresh hi hb h).1]
    exact hlen
  · rw [hname]
    exact ⟨Nat.le_refl _,fun _ _ => rfl⟩
  · rw [h]
    exact length_fresh s

end Insert

section Read
variable {hash : Name → ℕ} {getcwd : Name} {st : State}

theorem normalize_eq {g : Name} (hg : g ≠ []) :
    (normalize hash getcwd st none g).1 = displayRoot (insert hash st (cwd hash getcwd) g).1.pathName := by
  rw [normalize,if_neg hg]
  rfl

variable (hash) in
theorem cwd_root (h : getcwd.head? = some '/') : (cwd hash getcwd).loc.root = [] := by
  have hdummy : Path.dummy.loc.Wf := Loc.wf_nil
  exact insert_root (inv_empty false) hdummy (.inr rfl) nofun h

variable (hready : Ready hash getcwd false st)
include hready

theorem normalize_known {q : Path} (hq : q ∈ st.hcons) {g : Name} (hg : g ≠ [])
    (hfull : fullName (cwd hash getcwd).loc g = q.pathName) :
    (normalize hash getcwd st none g).1 = displayRoot q.pathName ↔
      ¬ ∃ p, lookup hash st q.pathName = some p ∧ displayRoot p.pathName ≠ displayRoot q.pathName := by
  rw [normalize_eq hg]
  obtain ⟨_,_,_,_,hcases⟩ := insert_spec hash hready.inv (s := g) hready.wf hready.known nofun
  rw [hfull] at hcases
  rcases hcases with h | ⟨hnone,⟨_,hname⟩ | ⟨hne,_⟩⟩
  · refine ⟨fun heq => ?_,fun hno => ?_⟩
    · rintro ⟨p,hp,hne⟩
      obtain rfl := Option.some.inj (h.symm.trans hp)
      exact hne heq
    · by_contra hne
      exact hno ⟨_,h,hne⟩
  · rw [← Path.pathName_eq] at hname
    rw [hname]
    exact iff_of_true rfl fun ⟨p,hp,_⟩ => by rw [hnone] at hp; cases hp
  · exact absurd (Path.pathName_eq q).symm (hne q hq)

theorem normalize_dot : (normalize hash getcwd st none ['.']).1 =
    displayRoot ((lookup hash st ((cwd hash getcwd).pathName ++ ['/','.'])).getD (cwd hash getcwd)).pathName := by
  have hfull : fullName (cwd hash getcwd).loc ['.'] = (cwd hash getcwd).pathName ++ ['/','.'] := by
    rw [Path.pathName_eq]
    rfl
  rw [normalize_eq (by simp)]
  obtain ⟨_,_,hwf,_,hcases⟩ := insert_spec hash hready.inv (s := ['.']) hready.wf hready.known nofun
  rw [hfull] at hcases
  rcases hcases with h | ⟨hnone,⟨_,hname⟩ | ⟨_,h⟩⟩
  · rw [h]
    rfl
  · -- no path in the table has a component `.`
    exfalso
    have hchild : (insert hash st (cwd hash getcwd) ['.']).1.loc.name = ((cwd hash getcwd).loc.child ['.']).name := by
      rw [hname,Loc.child_name,Path.pathName_eq]
    have hsplit := congrArg (List.splitOn '/') hchild
    have hcwd := hready.wf
    rw [Loc.name,splitOn_join (slash_not_mem hwf.root.plain) fun c hc => slash_not_mem (hwf.comps c hc).1,Loc.name,
      Loc.child,splitOn_join (slash_not_mem hcwd.root.plain)] at hsplit
    · have hcomps := (List.cons.inj hsplit).2
      exact (hwf.comps ['.'] (by rw [hcomps]; simp)).2.1 rfl
    · intro c hc
      rcases List.mem_append.mp hc with hc | hc
      · exact slash_not_mem (hcwd.comps c hc).1
      · rw [List.mem_singleton.mp hc]
        decide
  · rw [hnone,Path.pathName_eq,h]
    have hdot : fresh (cwd hash getcwd).loc ['.'] = (cwd hash getcwd).loc := rfl
    rw [hdot,← Path.pathName_eq]
    rfl

end Read

section Display
variable (hash : Name → ℕ) (getcwd : Name) (st : State) (f : Name)

/-- A displayed name is read back, after it was displayed, as the file that it is displayed for. -/
def Leads (shown : Name × State) : Prop :=
  (normalize hash getcwd shown.2 none shown.1).1 = (normalize hash getcwd st none f).1

/-- The file is not the root; where the name of the current directory starts its name, a separator and a
name that is not rooted follow. -/
def PrettyFaithful : Prop :=
  target hash st f ≠ [] ∧
    (∀ c d, target hash st f = (cwd hash getcwd).pathName ++ c :: d → c = '/' ∧ d ≠ [] ∧ matchRoot d = none) ∧
    ¬ Stale hash st f (target hash st f)

/-- The file is the current directory, or is not the root and does not have a rooted name in the current
directory. -/
def RelativizeFaithful : Prop :=
  if target hash st f = (cwd hash getcwd).pathName then ¬ Stale hash st f ((cwd hash getcwd).pathName ++ ['/','.'])
  else
    target hash st f ≠ [] ∧
      (∀ d, target hash st f = (cwd hash getcwd).pathName ++ '/' :: d →
        (d = [] → (cwd hash getcwd).pathName = []) ∧ matchRoot d = none) ∧
      ¬ Stale hash st f (target hash st f)

variable {hash getcwd st f}
variable (hready : Ready hash getcwd false st) (hcwd : getcwd.head? = some '/') (hf : f.head? = some '/')
include hready hf

theorem normalize_target : (normalize hash getcwd st none f).1 = displayRoot (target hash st f) := by
  have hne : f ≠ [] := by
    rintro rfl
    cases hf
  rw [normalize_eq hne,insert_target hash hready.inv hready.wf hready.known nofun (matchRoot_slash hf)]

theorem target_known (hne : target hash st f ≠ []) :
    ∃ q ∈ (insert hash st (cwd hash getcwd) f).2.hcons, q.pathName = target hash st f := by
  have htarget := insert_target hash hready.inv hready.wf hready.known nofun (matchRoot_slash hf)
  obtain ⟨_,_,_,hk,_⟩ := insert_spec hash hready.inv (s := f) hready.wf hready.known nofun
  rcases hk with hmem | hname
  · exact ⟨_,hmem,htarget⟩
  · exact absurd (htarget.symm.trans hname) hne

theorem target_place : ∃ l : Loc, l.Wf ∧ l.root = [] ∧ l.name = target hash st f := by
  have htarget := insert_target hash hready.inv hready.wf hready.known nofun (matchRoot_slash hf)
  obtain ⟨_,_,hwf,_,_⟩ := insert_spec hash hready.inv (s := f) hready.wf hready.known nofun
  exact ⟨_,hwf,insert_root hready.inv hready.wf hready.known nofun hf,by rw [← Path.pathName_eq,htarget]⟩

theorem target_head (hne : target hash st f ≠ []) : (target hash st f).head? = some '/' := by
  obtain ⟨l,_,hroot,hname⟩ := target_place hready hf
  rw [← hname,Loc.name,hroot] at hne ⊢
  cases hc : l.comps with
  | nil =>
    rw [hc] at hne
    exact absurd rfl hne
  | cons c cs => rfl

theorem leads_iff {g : Name} (hne : target hash st f ≠ []) (hg : g ≠ [])
    (hfull : fullName (cwd hash getcwd).loc g = target hash st f) :
    Leads hash getcwd st f (g,(insert hash st (cwd hash getcwd) f).2) ↔ ¬ Stale hash st f (target hash st f) := by
  obtain ⟨q,hq,hname⟩ := target_known hready hf hne
  have hrooted := matchRoot_slash (target_head hready hf hne)
  have hknown := normalize_known (hready.insert_cwd (s := f) nofun) hq hg (hfull.trans hname.symm)
  rw [hname,lookup_insert_iff hready.inv hready.wf hready.known nofun (matchRoot_slash hf) hrooted] at hknown
  rw [Leads,normalize_target hready hf]
  exact hknown

theorem not_leads {c : Char} {d : Name} (hname : target hash st f = (cwd hash getcwd).pathName ++ c :: d)
    (hd : ¬ (c = '/' ∧ d ≠ [] ∧ matchRoot d = none)) :
    ¬ Leads hash getcwd st f (d,(insert hash st (cwd hash getcwd) f).2) := by
  rw [Leads,normalize_target hready hf]
  have hne : target hash st f ≠ [] := by
    rw [hname]
    simp
  rw [displayRoot_of_ne hne]
  cases d with
  | nil => exact fun h => hne h.symm
  | cons x xs =>
    have hready' := hready.insert_cwd (s := f) nofun
    generalize (insert hash st (cwd hash getcwd) f).2 = st' at hready'
    rw [normalize_eq (List.cons_ne_nil x xs)]
    obtain ⟨hlen,hfull⟩ := length_insert hash hready'.inv hready'.wf hready'.known (x :: xs) nofun
    intro hread
    have htwo : 2 ≤ (target hash st f).length := by
      rw [hname]
      simp only [List.length_append,List.length_cons]
      omega
    have hfound : (insert hash st' (cwd hash getcwd) (x :: xs)).1.pathName = target hash st f := by
      rw [← hread,displayRoot_of_ne]
      intro hnil
      rw [← hread,hnil] at htwo
      exact absurd htwo (by decide)
    by_cases hroot : (matchRoot (x :: xs)).isSome
    · -- a rooted name leads to a shorter one
      rw [hfound,fullName_of_rooted hroot,hname] at hlen
      simp only [List.length_append,List.length_cons] at hlen
      omega
    · have hwritten : fullName (cwd hash getcwd).loc (x :: xs) = (cwd hash getcwd).pathName ++ '/' :: x :: xs := by
        rw [fullName,if_neg hroot,Path.pathName_eq]
      rw [hwritten,hfound] at hfull
      have hsame := hfull ?_ (by rw [hname]; simp)
      · rw [hname] at hsame
        refine hd ⟨(List.cons.inj (List.append_cancel_left hsame)).1,List.cons_ne_nil _ _,?_⟩
        simpa using hroot
      · obtain ⟨l,hwf,_,hl⟩ := target_place hready hf
        intro y hy hsep
        rcases List.mem_append.mp hy with hy | hy
        · rw [Path.pathName_eq] at hy
          exact hready.wf.no_backslash y hy hsep
        · rcases List.mem_cons.mp hy with rfl | hy
          · rfl
          · refine hwf.no_backslash y ?_ hsep
            rw [hl,hname]
            exact List.mem_append_right _ (List.mem_cons_of_mem _ hy)

theorem leads_full_iff : Leads hash getcwd st f (target hash st f,(insert hash st (cwd hash getcwd) f).2) ↔
    target hash st f ≠ [] ∧ ¬ Stale hash st f (target hash st f) := by
  by_cases hne : target hash st f = []
  · refine iff_of_false ?_ fun h => h.1 hne
    rw [Leads,normalize_target hready hf,hne]
    exact fun h => displayRoot_ne_nil [] h.symm
  · rw [leads_iff hready hf hne hne (fullName_of_rooted (matchRoot_slash (target_head hready hf hne)) _)]
    exact ⟨fun h => ⟨hne,h⟩,fun h => h.2⟩

theorem leads_drop_iff {c : Char} {d : Name} (hname : target hash st f = (cwd hash getcwd).pathName ++ c :: d) :
    Leads hash getcwd st f (d,(insert hash st (cwd hash getcwd) f).2) ↔
      (c = '/' ∧ d ≠ [] ∧ matchRoot d = none) ∧ ¬ Stale hash st f (target hash st f) := by
  by_cases hd : c = '/' ∧ d ≠ [] ∧ matchRoot d = none
  · have hne : target hash st f ≠ [] := by
      rw [hname]
      simp
    rw [leads_iff hready hf hne hd.2.1]
    · exact ⟨fun h => ⟨hd,h⟩,fun h => h.2⟩
    · rw [fullName,hd.2.2,hname,← Path.pathName_eq,hd.1]
      rfl
  · exact iff_of_false (not_leads hready hf hname hd) fun h => hd h.1

theorem pretty_iff (hsym : st.symbolicName = []) :
    Leads hash getcwd st f (pretty hash getcwd st f) ↔ PrettyFaithful hash getcwd st f := by
  have habs : isRelativeName f = false := by
    cases f with
    | nil => cases hf
    | cons c cs =>
      obtain rfl := Option.some.inj hf
      rfl
  have htarget := insert_target hash hready.inv hready.wf hready.known nofun (matchRoot_slash hf)
  simp only [pretty,habs,Bool.false_eq_true,if_false,htarget]
  by_cases hpre : stringPrefix true (cwd hash getcwd).pathName (target hash st f) = true
  · rw [if_pos hpre]
    obtain ⟨c,d,hname⟩ := stringPrefix_strict_iff.mp hpre
    have hdrop : (target hash st f).drop (1 + (cwd hash getcwd).pathName.length) = d := by
      rw [hname,Nat.add_comm,← List.drop_drop,List.drop_left]
      rfl
    rw [hdrop,leads_drop_iff hready hf hname,PrettyFaithful]
    constructor
    · rintro ⟨hd,hstale⟩
      refine ⟨by rw [hname]; simp,fun c' d' h => ?_,hstale⟩
      obtain ⟨rfl,rfl⟩ := List.cons.inj (List.append_cancel_left (hname.symm.trans h))
      exact hd
    · rintro ⟨_,hd,hstale⟩
      exact ⟨hd c d hname,hstale⟩
  · rw [if_neg hpre]
    have hno : ¬ ∃ c d, target hash st f = (cwd hash getcwd).pathName ++ c :: d := fun h =>
      hpre (stringPrefix_strict_iff.mpr h)
    rw [addPath_eq (insert_symbolicName _ hsym _ _) (by rw [htarget]; exact hno),htarget,leads_full_iff hready hf,
      PrettyFaithful]
    exact ⟨fun h => ⟨h.1,fun c d hcd => absurd ⟨c,d,hcd⟩ hno,h.2⟩,fun h => ⟨h.1,h.2.2⟩⟩

theorem leads_dot_iff (hname : target hash st f = (cwd hash getcwd).pathName) :
    Leads hash getcwd st f (['.'],(insert hash st (cwd hash getcwd) f).2) ↔
      ¬ Stale hash st f ((cwd hash getcwd).pathName ++ ['/','.']) := by
  have hrooted : (matchRoot ((cwd hash getcwd).pathName ++ ['/','.'])).isSome := by
    rw [Path.pathName_eq]
    exact fullName_rooted hready.wf ['.']
  rw [← lookup_insert_iff hready.inv hready.wf hready.known nofun (matchRoot_slash hf) hrooted,Leads,
    normalize_dot (hready.insert_cwd (s := f) nofun),normalize_target hready hf]
  cases hl : lookup hash (insert hash st (cwd hash getcwd) f).2 ((cwd hash getcwd).pathName ++ ['/','.']) with
  | some p => simp
  | none => simp [hname]

include hcwd in
theorem leads_dot_slash_iff (hname : target hash st f = (cwd hash getcwd).pathName ++ ['/']) :
    Leads hash getcwd st f (['.'],(insert hash st (cwd hash getcwd) f).2) ↔ (cwd hash getcwd).pathName = [] := by
  have hready' := hready.insert_cwd (s := f) nofun
  have hrooted : (matchRoot ((cwd hash getcwd).pathName ++ ['/','.'])).isSome := by
    rw [Path.pathName_eq]
    exact fullName_rooted hready.wf ['.']
  have hne : (cwd hash getcwd).pathName ++ ['/'] ≠ [] := by simp
  rw [Leads,normalize_dot hready',normalize_target hready hf,hname,displayRoot_of_ne hne]
  generalize (insert hash st (cwd hash getcwd) f).2 = st' at hready'
  have hlen : ((lookup hash st' ((cwd hash getcwd).pathName ++ ['/','.'])).getD (cwd hash getcwd)).pathName.length ≤
      (cwd hash getcwd).pathName.length := by
    cases hl : lookup hash st' ((cwd hash getcwd).pathName ++ ['/','.']) with
    | some p =>
      rw [Option.getD_some,Path.pathName_eq,(hready'.inv.entry _ _ _ (lookup_some hl)).2.2.2 hrooted,Path.pathName_eq]
      exact length_fresh_dot hready.wf (cwd_root hash hcwd)
    | none => exact Nat.le_refl _
  generalize (lookup hash st' ((cwd hash getcwd).pathName ++ ['/','.'])).getD (cwd hash getcwd) = p at hlen
  constructor
  · intro h
    by_contra hne
    have hshown := length_displayRoot p.pathName
    rw [h,List.length_append,List.length_singleton] at hshown
    have hpos := List.length_pos_of_ne_nil hne
    omega
  · intro hnil
    rw [hnil] at hlen ⊢
    rw [List.length_eq_zero_iff.mp (Nat.le_zero.mp hlen)]
    rfl

include hcwd in
theorem relativize_iff :
    Leads hash getcwd st f (relativize hash getcwd st none f) ↔ RelativizeFaithful hash getcwd st f := by
  have htarget := insert_target hash hready.inv hready.wf hready.known nofun (matchRoot_slash hf)
  have hshow : relativize hash getcwd st none f =
      if (cwd hash getcwd).pathName = target hash st f then (['.'],(insert hash st (cwd hash getcwd) f).2)
      else if stringPrefix false ((cwd hash getcwd).pathName ++ ['/']) (target hash st f) then
        (if (target hash st f).drop ((cwd hash getcwd).pathName ++ ['/']).length = [] then ['.']
          else (target hash st f).drop ((cwd hash getcwd).pathName ++ ['/']).length,
          (insert hash st (cwd hash getcwd) f).2)
      else (target hash st f,(insert hash st (cwd hash getcwd) f).2) := by
    rw [← htarget]
    rfl
  rw [hshow,RelativizeFaithful]
  by_cases hcur : target hash st f = (cwd hash getcwd).pathName
  · rw [if_pos hcur.symm,if_pos hcur]
    exact leads_dot_iff hready hf hcur
  · rw [if_neg (Ne.symm hcur),if_neg hcur]
    by_cases hpre : stringPrefix false ((cwd hash getcwd).pathName ++ ['/']) (target hash st f) = true
    · rw [if_pos hpre]
      obtain ⟨d,hd⟩ := stringPrefix_iff.mp hpre
      have hname : target hash st f = (cwd hash getcwd).pathName ++ '/' :: d := by
        rw [hd]
        simp
      have hother : ∀ {d'}, target hash st f = (cwd hash getcwd).pathName ++ '/' :: d' → d' = d := fun h =>
        (List.cons.inj (List.append_cancel_left (h.symm.trans hname))).2
      have hne : target hash st f ≠ [] := by
        rw [hname]
        simp
      rw [hd,List.drop_left]
      by_cases hnil : d = []
      · subst hnil
        rw [if_pos rfl,leads_dot_slash_iff hready hcwd hf hname,List.append_nil,← hname]
        refine ⟨fun h => ⟨hne,fun d' hd' => ⟨fun _ => h,?_⟩,fun hstale => hstale.2.1 ?_⟩,fun h => (h.2.1 [] hname).1 rfl⟩
        · rw [hother hd']
          rfl
        · -- the name of the root with a separator is resolved to that of the root
          rw [hname,h]
          rfl
      · rw [if_neg hnil,leads_drop_iff hready hf hname,← hd]
        constructor
        · rintro ⟨⟨_,_,hroot⟩,hstale⟩
          refine ⟨hne,fun d' hd' => ?_,hstale⟩
          rw [hother hd']
          exact ⟨fun h => absurd h hnil,hroot⟩
        · rintro ⟨_,hroot,hstale⟩
          exact ⟨⟨rfl,hnil,(hroot d hname).2⟩,hstale⟩
    · rw [if_neg hpre,leads_full_iff hready hf]
      have hno : ∀ d, target hash st f ≠ (cwd hash getcwd).pathName ++ '/' :: d := fun d h =>
        hpre (stringPrefix_iff.mpr ⟨d,by rw [h]; simp⟩)
      exact ⟨fun h => ⟨h.1,fun d hd => absurd hd (hno d),h.2⟩,fun h => ⟨h.1,h.2.2⟩⟩

end Display

/-- In every state without symbolic names, a displayed absolute name leads to the file exactly when the
directory cut off is one that the name is in, and the cache answers for it with the file. -/
theorem displayed_iff (hash : Name → ℕ) {getcwd f : Name} {ops : List Op} (hcwd : getcwd.head? = some '/')
    (hf : f.head? = some '/') (hops : ∀ op ∈ ops, op.Plain) :
    (Leads hash getcwd (stateAfter hash getcwd ops) f (pretty hash getcwd (stateAfter hash getcwd ops) f) ↔
        PrettyFaithful hash getcwd (stateAfter hash getcwd ops) f) ∧
      (Leads hash getcwd (stateAfter hash getcwd ops) f (relativize hash getcwd (stateAfter hash getcwd ops) none f) ↔
        RelativizeFaithful hash getcwd (stateAfter hash getcwd ops) f) := by
  have hready : Ready hash getcwd false (stateAfter hash getcwd ops) := ready_stateAfter ops nofun nofun
  exact ⟨pretty_iff hready hf (symbolicName_stateAfter hops),relativize_iff hready hcwd hf⟩

/-- A file in the current directory. -/
theorem displayed_iff_file :
    PrettyFaithful (fun _ => 0) ['/','w'] (stateAfter (fun _ => 0) ['/','w'] []) ['/','w','/','x'] :=
  (@displayed_iff (fun _ => 0) _ _ [] rfl rfl nofun).1.mp (by unfold Leads; decide)

/-- The name of the current directory starts that of a directory beside it, and is cut off. -/
theorem pretty_sibling :
    (pretty (fun _ => 0) ['/','a'] (initial (fun _ => 0) ['/','a']) ['/','a','b','/','x']).1 = ['/','x'] ∧
      ¬ Leads (fun _ => 0) ['/','a'] (initial (fun _ => 0) ['/','a']) ['/','a','b','/','x']
        (pretty (fun _ => 0) ['/','a'] (initial (fun _ => 0) ['/','a']) ['/','a','b','/','x']) := by
  unfold Leads
  decide

end FramaC.Filepath
