import FramaC.Filepath.Insert

/-! # Normalized names

A name that starts with no drive is resolved lexically, whatever was looked up before.
-/
namespace FramaC.Filepath
open LexicalPath

def lexical (dir : List Name) (s : Name) : List Name :=
  resolve ['.'] ['.','.'] (if s.head? = some '/' then [] else dir) (split s)

def absolute (comps : List Name) : Name := displayRoot (tail '/' comps)

def NoDrive (fs : List Name) : Prop := ∀ f, fs.head? = some f → matchDrive f = false

instance (fs : List Name) : Decidable (NoDrive fs) :=
  decidable_of_iff (fs.head?.all fun f => !matchDrive f) (by simp [NoDrive,Option.all_eq_true])

/-- A name that is told apart from the names that a doubled separator leaves in the table. -/
def Tidy (s : Name) : Prop := s ≠ [] ∧ s.getLast? ≠ some '/' ∧ s.head? ≠ some '\\'

instance (s : Name) : Decidable (Tidy s) := inferInstanceAs (Decidable (_ ∧ _ ∧ _))

theorem nameParts_eq_split {s : Name} (h : NoDrive (split s)) : nameParts s = split s := by
  unfold nameParts
  split
  · next hs => rw [hs]
  · next p ps hs =>
    rw [hs,if_neg]
    have := h p (by rw [hs]; rfl)
    simp [this]

theorem matchRoot_noDrive {s : Name} (h : NoDrive (split s)) :
    (∃ cs, s = '/' :: cs ∧ matchRoot s = some 1) ∨ matchRoot s = none ∧ s.head? ≠ some '/' := by
  rcases matchRoot_cases s with hs | ⟨d,c,rest,rfl,hd,hc,_⟩ | hs
  · exact .inl hs
  · have hsplit : split (d :: ':' :: c :: rest) = [d,':'] :: fields isSep rest [] := by
      rw [split,if_neg (by simp [isLetter_ne_sep hd])]
      exact fields_append_cons (ValidRoot.plain (.inr ⟨d,hd,rfl⟩)) hc rest []
    have := h [d,':'] (by rw [hsplit]; rfl)
    simp [matchDrive,hd] at this
  · exact .inr hs

theorem fresh_eq_lexical {s : Name} (h : NoDrive (split s)) (dir : List Name) :
    fresh ⟨[],dir⟩ s = ⟨[],lexical dir s⟩ := by
  rw [fresh,nameParts_eq_split h,lexical]
  rcases matchRoot_noDrive h with ⟨cs,rfl,hm⟩ | ⟨hm,hhead⟩
  · rw [start,hm]
    exact Loc.norm_eq_resolve [] _
  · rw [start,hm,if_neg hhead]
    exact Loc.norm_eq_resolve dir _

theorem clean_of_valid {fs : List Name} (h : ∀ f ∈ fs, ValidComp f) : Clean ['.'] ['.','.'] fs := fun f hf => (h f hf).2

theorem fields_tail_append {d : Name} {ds : List Name} (h : ∀ f ∈ d :: ds, Plain isSep f) (s : Name) :
    fields isSep (d ++ tail '/' ds ++ '/' :: s) [] = d :: ds ++ fields isSep s [] := by
  induction ds generalizing d with
  | nil =>
    rw [tail_nil,List.append_nil,fields_append_cons (h d List.mem_cons_self) slash_isSep]
    rfl
  | cons e ds ih =>
    have hrec := ih fun f hf => h f (List.mem_cons_of_mem _ hf)
    rw [tail_cons,List.append_assoc,List.cons_append,List.cons_append,
      fields_append_cons (h d List.mem_cons_self) slash_isSep,hrec]
    rfl

theorem fields_eq_split {s : Name} (h : ∀ c, s.head? = some c → isSep c = false) : fields isSep s [] = split s := by
  cases s with
  | nil => rfl
  | cons c cs =>
    rw [split,if_neg]
    simp [h c rfl]

theorem split_tail_append {dir : List Name} (hdir : ∀ f ∈ dir, Plain isSep f) {s : Name}
    (h : ∀ c, s.head? = some c → isSep c = false) : split (tail '/' dir ++ '/' :: s) = dir ++ split s := by
  cases dir with
  | nil =>
    rw [tail_nil,List.nil_append,split,if_pos slash_isSep]
    exact fields_eq_split h
  | cons d ds =>
    rw [tail_cons,List.cons_append,List.cons_append,split,if_pos slash_isSep,fields_tail_append hdir,fields_eq_split h]

theorem lexical_tail_append {dir : List Name} (hdir : ∀ f ∈ dir, ValidComp f) {s : Name}
    (h : ∀ c, s.head? = some c → isSep c = false) : lexical [] (tail '/' dir ++ '/' :: s) = lexical dir s := by
  have hs : s.head? ≠ some '/' := by
    intro hslash
    have := h '/' hslash
    rw [slash_isSep] at this
    cases this
  rw [lexical,lexical,if_neg hs,split_tail_append (fun f hf => (hdir f hf).1) h,resolve_append,
    ite_self,resolve_clean (clean_of_valid hdir),List.nil_append]

theorem getLast?_tail {fs : List Name} {f : Name} (h : fs.getLast? = some f) :
    (tail '/' fs).getLast? = ('/' :: f).getLast? := by
  obtain ⟨init,rfl⟩ := List.getLast?_eq_some_iff.mp h
  rw [tail_append,tail_cons,tail_nil,List.append_nil,List.getLast?_append]
  simp [List.getLast?_cons]

theorem lexical_written {dir : List Name} {g : Name} {gs : List Name} (h : ∀ f ∈ g :: gs, ValidComp f)
    (hhead : ∀ c, (g ++ tail '/' gs).head? = some c → isSep c = false) (hlast : (g :: gs).getLast? ≠ some []) :
    lexical dir (g ++ tail '/' gs) = dir ++ g :: gs := by
  have hs : (g ++ tail '/' gs).head? ≠ some '/' := by
    intro hslash
    have := hhead '/' hslash
    rw [slash_isSep] at this
    cases this
  rw [lexical,if_neg hs,← fields_eq_split hhead,fields_tail slash_isSep (fun f hf => (h f hf).1) hlast,
    resolve_clean (clean_of_valid h)]

theorem lexical_rooted {fs : List Name} (h : ∀ f ∈ fs, ValidComp f) (hne : fs ≠ []) (hlast : fs.getLast? ≠ some [])
    (dir : List Name) : lexical dir (tail '/' fs) = fs := by
  obtain ⟨g,gs,rfl⟩ := List.exists_cons_of_ne_nil hne
  rw [lexical,tail_cons,List.cons_append,split,if_pos slash_isSep,
    fields_tail slash_isSep (fun f hf => (h f hf).1) hlast]
  exact resolve_clean (clean_of_valid h)

section Insert
variable {hash : Name → ℕ} {single : Bool} {st : State} {base : Path} {s : Name}

theorem found_rooted {l : Loc} (hl : l.Wf) {cs : Name} (hname : l.name = '/' :: cs)
    (hlast : l.comps.getLast? ≠ some []) (dir : List Name) : l = ⟨[],lexical dir ('/' :: cs)⟩ := by
  have hroot := hl.root_nil hname
  have htail : tail '/' l.comps = '/' :: cs := by
    rw [← hname,Loc.name,hroot]
    rfl
  have hne : l.comps ≠ [] := by
    intro h
    rw [h] at htail
    cases htail
  rw [← htail,lexical_rooted hl.comps hne hlast]
  cases l
  exact congrArg (Loc.mk · _) hroot

theorem last_nonempty {l : Loc} (hs : Tidy s ∨ single = true) (h : single = true → [] ∉ l.comps)
    (hname : Tidy s → l.name.getLast? = s.getLast?) (hroot : l.root = []) : l.comps.getLast? ≠ some [] := by
  intro hlast
  rcases hs with htidy | hsingle
  · have := hname htidy
    rw [Loc.name,hroot,List.nil_append,getLast?_tail hlast] at this
    exact htidy.2.1 this.symm
  · exact h hsingle (List.mem_of_getLast? hlast)

variable (hi : Inv single st) (hk : Known st base) (hsingle : single = true → Single s) (hs : Tidy s ∨ single = true)
include hi hk hsingle hs

variable (hash) in
theorem insert_rooted (hb : base.loc.Wf) (hdrive : NoDrive (split s)) (hslash : s.head? = some '/') (dir : List Name) :
    (insert hash st base s).1.loc = ⟨[],lexical dir s⟩ := by
  obtain ⟨cs,rfl⟩ : ∃ cs, s = '/' :: cs := by
    cases s with
    | nil => cases hslash
    | cons c cs =>
      obtain rfl := Option.some.inj hslash
      exact ⟨cs,rfl⟩
  have hrooted : (matchRoot ('/' :: cs)).isSome := rfl
  have hlex : ∀ l : Loc, fresh l ('/' :: cs) = ⟨[],lexical dir ('/' :: cs)⟩ := by
    intro l
    rw [fresh_rooted hrooted l ⟨[],dir⟩,fresh_eq_lexical hdrive]
  have hfull : fullName base.loc ('/' :: cs) = '/' :: cs := if_pos hrooted
  obtain ⟨_,_,hwf,_,hcases⟩ := insert_spec hash hi hb hk hsingle
  rcases hcases with h | ⟨_,⟨hmem,hname⟩ | ⟨_,h⟩⟩
  · obtain ⟨h1,_⟩ := lookup_fresh hi hb h
    rw [h1,hfull]
    exact hlex _
  · rw [hfull] at hname
    exact found_rooted hwf hname
      (last_nonempty hs (fun h => hi.nonempty h _ hmem) (fun _ => by rw [hname]) (hwf.root_nil hname)) dir
  · rw [h]
    exact hlex _

theorem insert_relative {dir : List Name} (hb : base.loc = ⟨[],dir⟩) (hdir : ∀ f ∈ dir, ValidComp f)
    (hdirDrive : NoDrive dir) (hdrive : NoDrive (split s)) (hslash : s.head? ≠ some '/') :
    (insert hash st base s).1.loc = ⟨[],lexical dir s⟩ := by
  have hbwf : base.loc.Wf := by
    rw [hb]
    exact ⟨.inl rfl,hdir⟩
  have hm : matchRoot s = none := by
    rcases matchRoot_noDrive hdrive with ⟨cs,rfl,_⟩ | ⟨hm,_⟩
    · exact absurd rfl hslash
    · exact hm
  have hfull : fullName base.loc s = tail '/' dir ++ '/' :: s := by
    rw [fullName,hm,hb]
    rfl
  obtain ⟨_,_,hwf,_,hcases⟩ := insert_spec hash hi hbwf hk hsingle
  rcases hcases with h | ⟨_,⟨hmem,hname⟩ | ⟨_,h⟩⟩
  · obtain ⟨h1,h2⟩ := lookup_fresh hi hbwf h
    rw [hfull] at h1 h2
    -- a backslash at the start would follow the slash after the directory
    have hhead : ∀ c, s.head? = some c → isSep c = false := by
      intro c hc
      by_contra hsep
      rw [Bool.not_eq_false] at hsep
      rcases hs with htidy | hsg
      · have hc' : c = '/' ∨ c = '\\' := by simpa [isSep] using hsep
        rcases hc' with rfl | rfl
        · exact hslash hc
        · exact htidy.2.2 hc
      · cases s with
        | nil => cases hc
        | cons x xs =>
          obtain rfl := Option.some.inj hc
          have hchain := (h2 hsg).right_of_append
          rw [List.isChain_cons_cons] at hchain
          exact hchain.1 ⟨slash_isSep,hsep⟩
    have hsplit : NoDrive (split (tail '/' dir ++ '/' :: s)) := by
      rw [split_tail_append (fun f hf => (hdir f hf).1) hhead]
      cases dir with
      | nil => exact hdrive
      | cons d ds =>
        intro f hf
        exact hdirDrive f hf
    rw [h1,fresh_eq_lexical hsplit,lexical_tail_append hdir hhead]
  · rw [hfull] at hname
    have hsplit := congrArg (List.splitOn '/') hname
    rw [Loc.name,splitOn_join (slash_not_mem hwf.root.plain) (fun c hc => slash_not_mem (hwf.comps c hc).1),
      List.splitOn_append_cons_self] at hsplit
    have hdirsplit : ([] ++ tail '/' dir).splitOn '/' = [] :: dir :=
      splitOn_join (by simp) fun f hf => slash_not_mem (hdir f hf).1
    rw [List.nil_append] at hdirsplit
    rw [hdirsplit,List.cons_append] at hsplit
    obtain ⟨hroot,hcomps⟩ := List.cons.inj hsplit
    obtain ⟨g,gs,hg⟩ := List.exists_cons_of_ne_nil (List.splitOn_ne_nil '/' s)
    rw [hg] at hcomps
    have hwritten : s = g ++ tail '/' gs := by
      have h1 : (insert hash st base s).1.loc.name = tail '/' dir ++ '/' :: (g ++ tail '/' gs) := by
        rw [Loc.name,hroot,hcomps]
        simp
      rw [hname] at h1
      exact (List.cons.inj (List.append_cancel_left h1)).2
    have hvalid : ∀ f ∈ g :: gs, ValidComp f := by
      intro f hf
      exact hwf.comps f (by rw [hcomps]; exact List.mem_append_right _ hf)
    have hlast : (g :: gs).getLast? ≠ some [] := by
      have hall : (insert hash st base s).1.loc.comps.getLast? ≠ some [] := by
        refine last_nonempty hs (fun h => hi.nonempty h _ hmem) (fun htidy => ?_) hroot
        rw [hname,List.getLast?_append]
        cases s with
        | nil => exact absurd rfl htidy.1
        | cons c cs => simp [List.getLast?_cons]
      rw [hcomps,List.getLast?_append] at hall
      intro hnil
      exact hall (by rw [hnil]; rfl)
    have hhead : ∀ c, (g ++ tail '/' gs).head? = some c → isSep c = false := by
      intro c hc
      rw [← hwritten] at hc
      by_contra hsep
      rw [Bool.not_eq_false] at hsep
      have hmem' : c ∈ (insert hash st base s).1.loc.name := by
        rw [hname]
        exact List.mem_append_right _ (List.mem_cons_of_mem _ (List.mem_of_head? hc))
      rw [hwf.no_backslash c hmem' hsep] at hc
      exact hslash hc
    have hlex : lexical dir s = dir ++ g :: gs := by
      rw [hwritten]
      exact lexical_written hvalid hhead hlast
    rw [hlex,← hcomps]
    generalize (insert hash st base s).1.loc = l at hroot
    cases l
    exact congrArg (Loc.mk · _) hroot
  · rw [h,hb]
    exact fresh_eq_lexical hdrive dir

variable (hash) in
theorem insert_lexical {dir : List Name} (hb : base.loc = ⟨[],dir⟩) (hdir : ∀ f ∈ dir, ValidComp f)
    (hdirDrive : NoDrive dir) (hdrive : NoDrive (split s)) : (insert hash st base s).1.loc = ⟨[],lexical dir s⟩ := by
  by_cases hslash : s.head? = some '/'
  · refine insert_rooted hash hi hk hsingle hs ?_ hdrive hslash dir
    rw [hb]
    exact ⟨.inl rfl,hdir⟩
  · exact insert_relative hi hk hsingle hs hb hdir hdirDrive hdrive hslash

end Insert

theorem lexical_valid {dir : List Name} (h : ∀ f ∈ dir, ValidComp f) {s : Name} : ∀ f ∈ lexical dir s, ValidComp f := by
  intro f hf
  rcases mem_resolve hf with hf | ⟨hf,hne⟩
  · split at hf
    · cases hf
    · exact h f hf
  · exact ⟨plain_of_mem_split hf,hne⟩

theorem lexical_nonempty {dir : List Name} (h : [] ∉ dir) {s : Name} (hs : Single s) : [] ∉ lexical dir s := by
  intro hmem
  rcases mem_resolve hmem with hmem | ⟨hmem,_⟩
  · split at hmem
    · cases hmem
    · exact h hmem
  · exact split_nonempty hs hmem

section Interface
variable (hash : Name → ℕ) (getcwd : Name)

def baseComps : Option Name → List Name
  | none => lexical [] getcwd
  | some b => lexical (lexical [] getcwd) b

theorem baseComps_valid (b : Option Name) : ∀ f ∈ baseComps getcwd b, ValidComp f := by
  have hcwd : ∀ f ∈ lexical [] getcwd, ValidComp f := lexical_valid (by simp)
  cases b with
  | none => exact hcwd
  | some b => exact lexical_valid hcwd

/-- No drive at the start of the names, nor of what they resolve to. -/
structure Posix (b : Option Name) (s : Name) : Prop where
  getcwdName : NoDrive (split getcwd)
  cwd : NoDrive (lexical [] getcwd)
  baseName : ∀ n ∈ b, NoDrive (split n)
  base : NoDrive (baseComps getcwd b)
  name : NoDrive (split s)

/-- Either the names are told apart from the ones in the table by their last character, or no name of
the run has two separators in a row. -/
def Apart (ops : List Op) (b : Option Name) (s : Name) : Prop :=
  (Tidy s ∧ ∀ n ∈ b, Tidy n) ∨
    (Single s ∧ ∀ n ∈ b, Single n) ∧ Single getcwd ∧ ∀ op ∈ ops, ∀ n ∈ op.names, Single n

variable {getcwd}

theorem cwd_loc (h : NoDrive (split getcwd)) : (cwd hash getcwd).loc = ⟨[],lexical [] getcwd⟩ := by
  have hdummy : Path.dummy.loc.Wf := Loc.wf_nil
  obtain ⟨_,_,_,_,hcases⟩ := insert_spec hash (inv_empty false) (s := getcwd) hdummy (.inr rfl) nofun
  rcases hcases with h | ⟨_,⟨hmem,_⟩ | ⟨_,hfresh⟩⟩
  · cases h
  · cases hmem
  · exact hfresh.trans (fresh_eq_lexical h [])

section Ready
variable {hash} {single : Bool} {st : State} {b : Option Name} {s : Name}
variable (hready : Ready hash getcwd single st) (hposix : Posix getcwd b s)
include hready hposix

theorem baseDir_loc (hsingle : single = true → ∀ n ∈ b.toList, Single n) (hb : ∀ n ∈ b, Tidy n ∨ single = true) :
    (baseDir hash getcwd st b).1.loc = ⟨[],baseComps getcwd b⟩ := by
  cases b with
  | none => exact cwd_loc hash hposix.getcwdName
  | some n =>
    exact insert_lexical hash hready.inv hready.known (fun h => hsingle h n (by simp)) (hb n rfl)
      (cwd_loc hash hposix.getcwdName) (baseComps_valid getcwd none) hposix.cwd (hposix.baseName n rfl)

theorem normalize_ready (hne : s ≠ []) (hsingle : single = true → Single s ∧ ∀ n ∈ b.toList, Single n)
    (hb : ∀ n ∈ b, Tidy n ∨ single = true) (hs : Tidy s ∨ single = true) :
    (normalize hash getcwd st b s).1 = absolute (lexical (baseComps getcwd b) s) := by
  have hbase := baseDir_loc hready hposix (fun h => (hsingle h).2) hb
  obtain ⟨h1,_,h3⟩ := hready.baseDir fun h => (hsingle h).2
  have hloc := insert_lexical hash h1.inv h3 (fun h => (hsingle h).1) hs hbase (baseComps_valid getcwd b)
    hposix.base hposix.name
  rw [normalize,if_neg hne]
  show displayRoot (insert hash _ _ s).1.pathName = _
  rw [Path.pathName_eq,hloc]
  rfl

end Ready

theorem normalize_absolute {st : State} (hready : Ready hash getcwd false st) (b : Option Name) {comps : List Name}
    (hcomps : ∀ f ∈ comps, ValidComp f) (hdrive : NoDrive comps) (hlast : comps.getLast? ≠ some []) :
    (normalize hash getcwd st b (absolute comps)).1 = absolute comps := by
  obtain ⟨h1,h2,h3⟩ := hready.baseDir (b := b) (by simp)
  have hshow : ∀ n : Name, n ≠ [] → (normalize hash getcwd st b n).1 =
      displayRoot (insert hash (baseDir hash getcwd st b).2 (baseDir hash getcwd st b).1 n).1.loc.name := by
    intro n hn
    rw [normalize,if_neg hn,← Path.pathName_eq]
  cases hc : comps with
  | nil =>
    have hroot : absolute [] = ['/'] := rfl
    rw [hroot,hshow _ (by simp)]
    have hfull : ∀ l : Loc, fullName l ['/'] = ['/'] := fun _ => rfl
    obtain ⟨_,_,_,_,hcases⟩ := insert_spec hash h1.inv (s := ['/']) h2 h3 (by simp)
    rcases hcases with h | ⟨_,⟨_,h⟩ | ⟨_,h⟩⟩
    · rw [(lookup_fresh h1.inv h2 h).1,hfull]
      rfl
    · rw [h,hfull]
      rfl
    · rw [h]
      rfl
  | cons f fs =>
    rw [← hc]
    have hne : comps ≠ [] := by
      rw [hc]
      exact List.cons_ne_nil f fs
    have habs : absolute comps = tail '/' comps := by
      rw [hc]
      rfl
    have htidy : Tidy (tail '/' comps) := by
      obtain ⟨g,hg⟩ := Option.ne_none_iff_exists'.mp (mt List.getLast?_eq_none_iff.mp hne)
      refine ⟨?_,?_,?_⟩
      · rw [hc]
        exact List.cons_ne_nil _ _
      · rw [getLast?_tail hg]
        intro hslash
        cases g with
        | nil => exact hlast hg
        | cons c cs =>
          have hmem : '/' ∈ c :: cs := List.mem_of_getLast? (by simpa [List.getLast?_cons] using hslash)
          exact slash_not_mem (hcomps _ (List.mem_of_getLast? hg)).1 hmem
      · rw [hc]
        simp
    have hsplit : split (tail '/' comps) = comps := by
      rw [hc] at hcomps hlast ⊢
      rw [tail_cons,List.cons_append,split,if_pos slash_isSep]
      exact fields_tail slash_isSep (fun g hg => (hcomps g hg).1) hlast
    have hloc := insert_rooted hash h1.inv h3 (by simp) (.inl htidy) h2 (by rw [hsplit]; exact hdrive)
      (by rw [hc]; rfl) []
    rw [habs,hshow _ htidy.1,hloc,lexical_rooted hcomps hne hlast]
    exact habs

end Interface
end FramaC.Filepath
