import FramaC.Lib.LexicalPath

/-! # File paths

The paths of `filepath.ml`. A path is known by its name in a table of all paths, and the last name
looked up in each slot of a cache is kept with its path. Names are taken as lists of characters.
-/
namespace FramaC.Filepath
open LexicalPath

abbrev Name := List Char

def isLetter (c : Char) : Bool := ('A' ≤ c && c ≤ 'Z') || ('a' ≤ c && c ≤ 'z')

/-- The characters that `re_path` matches. -/
def isSep (c : Char) : Bool := c == '/' || c == '\\'

/-- Whether `re_drive` matches at the start of a name. -/
def matchDrive : Name → Bool
  | d :: ':' :: _ => isLetter d
  | _ => false

/-- The end of the match of `re_root` at the start of a name. -/
def matchRoot : Name → Option ℕ
  | '/' :: _ => some 1
  | d :: ':' :: c :: _ => if isLetter d && isSep c then some 3 else none
  | _ => none

/-- `Str.split re_path`: a separator at the start is skipped, and the empty field at the end is left
out; the other empty fields are kept. -/
def split : Name → List Name
  | [] => []
  | c :: cs => if isSep c then fields isSep cs [] else fields isSep (c :: cs) []

/-- Each path that the module builds: `dummy`, a root, or a name in a directory. The hash is that of
the name. -/
inductive Path
  | dummy
  | top (pathName : Name)
  | child (dir : Path) (baseName : Name)
  deriving DecidableEq

namespace Path

def pathName : Path → Name
  | dummy => []
  | top n => n
  | child d b => d.pathName ++ '/' :: b

def baseName : Path → Name
  | dummy => ['.']
  | top _ => ['.']
  | child _ b => b

def dir : Path → Option Path
  | dummy => none
  | top _ => none
  | child d _ => some d

end Path

/-- The table of paths, the cache, and the symbolic names that are set. -/
structure State where
  hcons : List Path
  cache : ℕ → Option (Name × Path)
  symbolicName : List (Path × Name)

namespace State

def empty : State := ⟨[],fun _ => none,[]⟩

/-- `HPath.find`: paths are equal when their names are. -/
def find (st : State) (n : Name) : Option Path := st.hcons.find? fun q => q.pathName == n

/-- A new path. It is a copy of `dummy` with other fields, and has the symbolic name that `dummy` has. -/
def add (st : State) (p : Path) : State :=
  { st with
    hcons := p :: st.hcons
    symbolicName := (st.symbolicName.lookup .dummy).toList.map (fun sn => (p,sn)) ++ st.symbolicName }

/-- `HPath.merge` -/
def merge (st : State) (p : Path) : Path × State :=
  match st.find p.pathName with
  | some q => (q,st)
  | none => (p,st.add p)

def root (st : State) (pathName : Name) : Path × State := st.merge (.top pathName)

def make (st : State) (dir : Path) (baseName : Name) : Path × State := st.merge (.child dir baseName)

end State

/-- The parent of a root is `dummy`. -/
def getdir (path : Path) : Path :=
  match path.dir with
  | none => .dummy
  | some d => d

def norm (st : State) (path : Path) : List Name → Path × State
  | [] => (path,st)
  | p :: ps =>
    if p = ['.','.'] then norm st (getdir path) ps
    else if p = ['.'] then norm st path ps
    else
      let (path,st) := st.make path p
      norm st path ps

def fullPathName (base : Path) (pathName : Name) : Name :=
  if (matchRoot pathName).isSome then pathName else base.pathName ++ '/' :: pathName

/-- The components of a name, without the drive that it may start with. -/
def nameParts (pathName : Name) : List Name :=
  match split pathName with
  | [] => []
  | p :: ps => if matchDrive p then ps else p :: ps

/-- Where the components of a name are followed from: the base is not taken into account when the name
is rooted. -/
def startDir (st : State) (base : Path) (pathName : Name) : Path × State :=
  match matchRoot pathName with
  | some e => st.root (pathName.take (e - 1))
  | none => (base,st)

section Insert
variable (hash : Name → ℕ)

def slot (n : Name) : ℕ := hash n &&& 255

/-- The path of the entry at the slot of a name, if it is for this name. -/
def lookup (st : State) (full : Name) : Option Path :=
  match st.cache (slot hash full) with
  | some (pn,p) => if full = pn then some p else none
  | none => none

def insert (st : State) (base : Path) (pathName : Name) : Path × State :=
  let full := fullPathName base pathName
  match lookup hash st full with
  | some p => (p,st)
  | none =>
    match st.find full with
    | some p => (p,st)
    | none =>
      let (base,st) := startDir st base pathName
      let (path,st) := norm st base (nameParts pathName)
      (path,{ st with cache := Function.update st.cache (slot hash full) (some (pathName,path)) })

end Insert

/-! ## The interface

The current directory is inserted when the module is loaded.
-/

section Interface
variable (hash : Name → ℕ) (getcwd : Name)

def cwd : Path := (insert hash .empty .dummy getcwd).1

def initial : State := (insert hash .empty .dummy getcwd).2

def baseDir (st : State) : Option Name → Path × State
  | none => (cwd hash getcwd,st)
  | some b => insert hash st (cwd hash getcwd) b

/-- The name of the root is empty, and displayed as `/`. -/
def displayRoot (n : Name) : Name := if n = [] then ['/'] else n

def normalize (st : State) (baseName : Option Name) (pathName : Name) : Name × State :=
  if pathName = [] then ([],st)
  else
    let (base,st) := baseDir hash getcwd st baseName
    let (path,st) := insert hash st base pathName
    (displayRoot path.pathName,st)

def addSymbolicDir (st : State) (name dir : Name) : State :=
  let (path,st) := insert hash st (cwd hash getcwd) dir
  { st with symbolicName := (path,name) :: st.symbolicName }

def addPath (st : State) : Path → Name
  | .dummy =>
    match st.symbolicName.lookup .dummy with
    | some sn => sn
    | none => []
  | .top n =>
    match st.symbolicName.lookup (.top n) with
    | some sn => sn
    | none => n
  | .child d b =>
    match st.symbolicName.lookup (.child d b) with
    | some sn => sn
    | none => if d ≠ cwd hash getcwd then addPath st d ++ '/' :: b else b

def skipDot : Name → Name
  | '.' :: '/' :: n => skipDot n
  | n => n

/-- `Filename.is_relative` -/
def isRelativeName : Name → Bool
  | '/' :: _ => false
  | _ => true

/-- `Extlib.string_prefix` -/
def stringPrefix (strict : Bool) (pre s : Name) : Bool :=
  decide (pre.length + (if strict then 1 else 0) ≤ s.length) && s.take pre.length == pre

def pretty (st : State) (fileName : Name) : Name × State :=
  if isRelativeName fileName then (skipDot fileName,st)
  else
    let (path,st) := insert hash st (cwd hash getcwd) fileName
    let cwdName := (cwd hash getcwd).pathName
    if stringPrefix true cwdName path.pathName then (path.pathName.drop (1 + cwdName.length),st)
    else (addPath hash getcwd st path,st)

def relativize (st : State) (baseName : Option Name) (fileName : Name) : Name × State :=
  let (file,st) := insert hash st (cwd hash getcwd) fileName
  let (base,st) := baseDir hash getcwd st baseName
  if base.pathName = file.pathName then (['.'],st)
  else
    let base := base.pathName ++ ['/']
    if stringPrefix false base file.pathName then
      let n := file.pathName.drop base.length
      (if n = [] then ['.'] else n,st)
    else (file.pathName,st)

def isRelative (st : State) (baseName : Option Name) (fileName : Name) : Bool × State :=
  let (file,st) := insert hash st (cwd hash getcwd) fileName
  let (base,st) := baseDir hash getcwd st baseName
  (base.pathName = file.pathName || stringPrefix false (base.pathName ++ ['/']) file.pathName,st)

inductive Op
  | normalize (baseName : Option Name) (pathName : Name)
  | addSymbolicDir (name dir : Name)
  | pretty (fileName : Name)
  | relativize (baseName : Option Name) (fileName : Name)
  | isRelative (baseName : Option Name) (fileName : Name)

def Op.run (st : State) : Op → State
  | .normalize b n => (Filepath.normalize hash getcwd st b n).2
  | .addSymbolicDir name dir => Filepath.addSymbolicDir hash getcwd st name dir
  | .pretty n => (Filepath.pretty hash getcwd st n).2
  | .relativize b n => (Filepath.relativize hash getcwd st b n).2
  | .isRelative b n => (Filepath.isRelative hash getcwd st b n).2

def stateAfter (ops : List Op) : State := ops.foldl (Op.run hash getcwd) (initial hash getcwd)

end Interface

end FramaC.Filepath

/-! ## Names and places

A path stands for a root and the components below it, which its name determines. What a name resolves
to does not depend on the table or on the cache.
-/
namespace FramaC.Filepath
open LexicalPath

/-- A root and the components below it. -/
structure Loc where
  root : Name
  comps : List Name

namespace Loc

def name (l : Loc) : Name := l.root ++ tail '/' l.comps

/-- No directory is above the components; a drive is left through its root. -/
def parent (l : Loc) : Loc := if l.comps = [] then ⟨[],[]⟩ else ⟨l.root,l.comps.dropLast⟩

def child (l : Loc) (b : Name) : Loc := ⟨l.root,l.comps ++ [b]⟩

def norm (l : Loc) : List Name → Loc
  | [] => l
  | p :: ps => if p = ['.','.'] then norm l.parent ps else if p = ['.'] then norm l ps else norm (l.child p) ps

end Loc

@[grind =] def Path.loc : Path → Loc
  | .dummy => ⟨[],[]⟩
  | .top n => ⟨n,[]⟩
  | .child d b => d.loc.child b

@[simp] theorem Loc.child_name (l : Loc) (b : Name) : (l.child b).name = l.name ++ '/' :: b := by
  simp [Loc.child,Loc.name]

theorem Path.pathName_eq (p : Path) : p.pathName = p.loc.name := by
  induction p with
  | dummy => rfl
  | top n => simp [Path.pathName,Path.loc,Loc.name]
  | child d b ih => rw [Path.pathName,Path.loc,Loc.child_name,ih]

theorem getdir_loc (p : Path) : (getdir p).loc = p.loc.parent := by
  cases p with
  | dummy => rfl
  | top n => rfl
  | child d b => simp [getdir,Path.dir,Path.loc,Loc.parent,Loc.child]

def ValidRoot (n : Name) : Prop := n = [] ∨ ∃ d, isLetter d = true ∧ n = [d,':']

/-- A component that is not a separator, the directory itself or its parent. -/
def ValidComp (b : Name) : Prop := Plain isSep b ∧ b ≠ ['.'] ∧ b ≠ ['.','.']

structure Loc.Wf (l : Loc) : Prop where
  root : ValidRoot l.root
  comps : ∀ c ∈ l.comps, ValidComp c

theorem slash_isSep : isSep '/' = true := rfl

theorem slash_not_mem {w : Name} (h : Plain isSep w) : '/' ∉ w := fun hw => by
  have := h '/' hw
  rw [slash_isSep] at this
  cases this

theorem isLetter_ne_sep {d : Char} (h : isLetter d = true) : isSep d = false := by
  by_contra hs
  rw [Bool.not_eq_false,isSep,Bool.or_eq_true,beq_iff_eq,beq_iff_eq] at hs
  rcases hs with rfl | rfl <;> exact absurd h (by decide)

theorem ValidRoot.plain {n : Name} (h : ValidRoot n) : Plain isSep n := by
  rcases h with rfl | ⟨d,hd,rfl⟩
  · simp [Plain]
  · intro c hc
    simp only [List.mem_cons,List.not_mem_nil,or_false] at hc
    rcases hc with rfl | rfl
    · exact isLetter_ne_sep hd
    · rfl

theorem Loc.wf_nil : (⟨[],[]⟩ : Loc).Wf := ⟨.inl rfl,by simp⟩

theorem Loc.Wf.parent {l : Loc} (h : l.Wf) : l.parent.Wf := by
  unfold Loc.parent
  split
  · exact Loc.wf_nil
  · exact ⟨h.root,fun c hc => h.comps c (List.dropLast_subset _ hc)⟩

theorem Loc.Wf.child {l : Loc} (h : l.Wf) {b : Name} (hb : ValidComp b) : (l.child b).Wf := by
  refine ⟨h.root,fun c hc => ?_⟩
  rcases List.mem_append.mp hc with hc | hc
  · exact h.comps c hc
  · rwa [List.mem_singleton.mp hc]

theorem Loc.Wf.norm {l : Loc} (h : l.Wf) {ps : List Name} (hps : ∀ p ∈ ps, Plain isSep p) : (l.norm ps).Wf := by
  induction ps generalizing l with
  | nil => exact h
  | cons p ps ih =>
    have hps' : ∀ q ∈ ps, Plain isSep q := fun q hq => hps q (List.mem_cons_of_mem _ hq)
    rw [Loc.norm]
    split_ifs with hup hdot
    · exact ih h.parent hps'
    · exact ih h hps'
    · exact ih (h.child ⟨hps p List.mem_cons_self,hdot,hup⟩) hps'

theorem Loc.Wf.name_injective {l l' : Loc} (h : l.Wf) (h' : l'.Wf) (he : l.name = l'.name) : l = l' := by
  obtain ⟨hroot,hcomps⟩ := join_injective (slash_not_mem h.root.plain) (fun c hc => slash_not_mem (h.comps c hc).1)
    (slash_not_mem h'.root.plain) (fun c hc => slash_not_mem (h'.comps c hc).1) he
  cases l
  cases l'
  simp only at hroot hcomps
  rw [hroot,hcomps]

theorem Loc.Wf.root_nil {l : Loc} (h : l.Wf) {cs : Name} (hname : l.name = '/' :: cs) : l.root = [] := by
  rcases h.root with hroot | ⟨d,hd,hroot⟩
  · exact hroot
  · rw [Loc.name,hroot] at hname
    obtain ⟨rfl,-⟩ := List.cons.inj hname
    exact absurd hd (by decide)

theorem Loc.Wf.no_backslash {l : Loc} (h : l.Wf) : ∀ c ∈ l.name, isSep c = true → c = '/' := by
  have htail : ∀ fs : List Name, (∀ f ∈ fs, ValidComp f) → ∀ c ∈ tail '/' fs, isSep c = true → c = '/' := by
    intro fs hfs c hc hsep
    obtain ⟨f,hf,hcf⟩ := List.mem_flatMap.mp hc
    rcases List.mem_cons.mp hcf with rfl | hcf
    · rfl
    · rw [(hfs f hf).1 c hcf] at hsep
      cases hsep
  intro c hc hsep
  rcases List.mem_append.mp hc with hc | hc
  · rw [h.root.plain c hc] at hsep
    cases hsep
  · exact htail l.comps h.comps c hc hsep

theorem Loc.norm_eq_resolve (dir : List Name) (ps : List Name) :
    Loc.norm ⟨[],dir⟩ ps = ⟨[],resolve ['.'] ['.','.'] dir ps⟩ := by
  induction ps generalizing dir with
  | nil => rfl
  | cons p ps ih =>
    have hparent : Loc.parent ⟨[],dir⟩ = ⟨[],dir.dropLast⟩ := by
      unfold Loc.parent
      split
      · next h =>
        obtain rfl : dir = [] := h
        rfl
      · rfl
    rw [Loc.norm,resolve,hparent]
    split_ifs
    · exact ih _
    · exact ih _
    · exact ih _

theorem Loc.norm_root {l : Loc} (h : l.root = []) (ps : List Name) : (l.norm ps).root = [] := by
  induction ps generalizing l with
  | nil => exact h
  | cons p ps ih =>
    have hparent : l.parent.root = [] := by
      unfold Loc.parent
      split
      · rfl
      · exact h
    rw [Loc.norm]
    split_ifs
    · exact ih hparent
    · exact ih h
    · exact ih h

theorem Loc.length_norm (l : Loc) (ps : List Name) :
    (l.norm ps).name.length ≤ l.name.length + (tail '/' ps).length ∧
      ((l.norm ps).name.length = l.name.length + (tail '/' ps).length → l.norm ps = ⟨l.root,l.comps ++ ps⟩) := by
  induction ps generalizing l with
  | nil => simp [Loc.norm]
  | cons p ps ih =>
    have hparent : l.parent.name.length ≤ l.name.length := by
      unfold Loc.parent
      split
      · simp [Loc.name]
      · next h =>
        have happ := List.dropLast_append_getLast h
        have hname : l.name = (⟨l.root,l.comps.dropLast⟩ : Loc).name ++ '/' :: l.comps.getLast h := by
          rw [← Loc.child_name,Loc.child,happ]
        rw [hname,List.length_append]
        exact Nat.le_add_right _ _
    rw [Loc.norm]
    simp only [tail_cons,List.length_cons,List.length_append,List.cons_append]
    split_ifs with hup hdot
    · obtain ⟨h1,_⟩ := ih l.parent
      exact ⟨by omega,fun h => absurd h (by omega)⟩
    · obtain ⟨h1,_⟩ := ih l
      exact ⟨by omega,fun h => absurd h (by omega)⟩
    · obtain ⟨h1,h2⟩ := ih (l.child p)
      have hchild : (l.child p).name.length = l.name.length + (p.length + 1) := by
        rw [Loc.child_name,List.length_append,List.length_cons]
      refine ⟨by omega,fun h => ?_⟩
      rw [h2 (by omega)]
      simp [Loc.child]

theorem matchRoot_cases (s : Name) :
    (∃ cs, s = '/' :: cs ∧ matchRoot s = some 1) ∨
      (∃ d c rest, s = d :: ':' :: c :: rest ∧ isLetter d = true ∧ isSep c = true ∧ matchRoot s = some 3) ∨
      matchRoot s = none ∧ s.head? ≠ some '/' := by
  unfold matchRoot
  split
  · next cs => exact .inl ⟨cs,rfl,rfl⟩
  · next d c rest hd =>
    right
    split
    · next h =>
      rw [Bool.and_eq_true] at h
      exact .inl ⟨d,c,rest,rfl,h.1,h.2,rfl⟩
    · refine .inr ⟨rfl,fun h => ?_⟩
      obtain rfl := Option.some.inj h
      exact hd rfl
  · next h1 h2 =>
    refine .inr (.inr ⟨rfl,fun h => ?_⟩)
    cases s with
    | nil => cases h
    | cons c cs =>
      obtain rfl := Option.some.inj h
      exact h1 cs rfl

theorem plain_of_mem_split {s w : Name} (h : w ∈ split s) : Plain isSep w := by
  cases s with
  | nil => simp [split] at h
  | cons c cs =>
    rw [split] at h
    split at h
    · exact plain_of_mem_fields (by simp [Plain]) h
    · exact plain_of_mem_fields (by simp [Plain]) h

theorem nameParts_subset (s : Name) : nameParts s ⊆ split s := by
  unfold nameParts
  split
  · simp
  · next p ps h =>
    rw [h]
    split
    · exact List.subset_cons_self _ _
    · exact List.Subset.refl _

theorem plain_of_mem_nameParts {s w : Name} (h : w ∈ nameParts s) : Plain isSep w :=
  plain_of_mem_split (nameParts_subset s h)

theorem length_nameParts (s : Name) : (tail '/' (nameParts s)).length ≤ (tail '/' (split s)).length ∧
    ((tail '/' (nameParts s)).length = (tail '/' (split s)).length → nameParts s = split s) := by
  unfold nameParts
  split
  · next h => simp [h]
  · next p ps h =>
    rw [h]
    split
    · simp only [tail_cons,List.length_cons,List.length_append,List.cons_append]
      exact ⟨by omega,fun hlen => absurd hlen (by omega)⟩
    · exact ⟨Nat.le_refl _,fun _ => rfl⟩

def start (base : Loc) (s : Name) : Loc :=
  match matchRoot s with
  | some e => ⟨s.take (e - 1),[]⟩
  | none => base

def fresh (base : Loc) (s : Name) : Loc := (start base s).norm (nameParts s)

def fullName (base : Loc) (s : Name) : Name := if (matchRoot s).isSome then s else base.name ++ '/' :: s

theorem fullPathName_eq (base : Path) (s : Name) : fullPathName base s = fullName base.loc s := by
  rw [fullPathName,fullName,Path.pathName_eq]

theorem start_wf {base : Loc} (h : base.Wf) (s : Name) : (start base s).Wf := by
  unfold start
  rcases matchRoot_cases s with ⟨cs,rfl,hm⟩ | ⟨d,c,rest,rfl,hd,hc,hm⟩ | ⟨hm,_⟩
  · rw [hm]
    exact Loc.wf_nil
  · rw [hm]
    exact ⟨.inr ⟨d,hd,rfl⟩,by simp⟩
  · rw [hm]
    exact h

theorem fresh_wf {base : Loc} (h : base.Wf) (s : Name) : (fresh base s).Wf :=
  (start_wf h s).norm fun _ hp => plain_of_mem_nameParts hp

theorem fresh_rooted {s : Name} (h : (matchRoot s).isSome) (base base' : Loc) : fresh base s = fresh base' s := by
  obtain ⟨e,he⟩ := Option.isSome_iff_exists.mp h
  simp only [fresh,start,he]

theorem length_split_slash {c : Char} (hc : isSep c = true) (cs : Name) :
    (tail '/' (split (c :: cs))).length ≤ (c :: cs).length ∧
      ((∀ x ∈ cs, isSep x = true → x = '/') → (tail '/' (split (c :: cs))).length = (c :: cs).length →
        tail '/' (split (c :: cs)) = '/' :: cs) := by
  obtain ⟨h1,h2⟩ := length_tail_fields '/' isSep cs []
  rw [split,if_pos hc]
  simp only [List.length_nil,Nat.zero_add,List.reverse_nil,List.nil_append,List.length_cons] at h1 h2 ⊢
  exact ⟨h1,h2⟩

theorem length_split (s : Name) : (tail '/' (split s)).length ≤ s.length + 1 ∧
    ((∀ x ∈ s, isSep x = true → x = '/') → (tail '/' (split s)).length = s.length + 1 →
      tail '/' (split s) = '/' :: s) := by
  cases s with
  | nil => simp [split]
  | cons c cs =>
    by_cases hc : isSep c = true
    · obtain ⟨h1,_⟩ := length_split_slash hc cs
      exact ⟨by omega,fun _ h => absurd h (by omega)⟩
    · obtain ⟨h1,h2⟩ := length_tail_fields '/' isSep (c :: cs) []
      rw [split,if_neg hc]
      simp only [List.length_nil,Nat.zero_add,List.reverse_nil,List.nil_append] at h1 h2
      exact ⟨h1,h2⟩

theorem length_fresh {base : Loc} (s : Name) :
    (fresh base s).name.length ≤ (fullName base s).length ∧
      ((∀ c ∈ fullName base s, isSep c = true → c = '/') →
        (fresh base s).name.length = (fullName base s).length → (fresh base s).name = fullName base s) := by
  obtain ⟨p1,p2⟩ := length_nameParts s
  obtain ⟨n1,n2⟩ := (start base s).length_norm (nameParts s)
  rcases matchRoot_cases s with ⟨cs,rfl,hm⟩ | ⟨d,c,rest,rfl,hd,hc,hm⟩ | ⟨hm,_⟩
  · have hstart : start base ('/' :: cs) = ⟨[],[]⟩ := by
      rw [start,hm]
      rfl
    have hfull : fullName base ('/' :: cs) = '/' :: cs := by
      rw [fullName,hm]
      rfl
    obtain ⟨l1,l2⟩ := length_split_slash slash_isSep cs
    have hzero : (⟨[],[]⟩ : Loc).name.length = 0 := rfl
    rw [hstart] at n1 n2
    rw [hfull,fresh,hstart]
    refine ⟨by omega,fun hsep hlen => ?_⟩
    rw [n2 (by omega),p2 (by omega)]
    exact l2 (fun x hx => hsep x (List.mem_cons_of_mem _ hx)) (by omega)
  · have hstart : start base (d :: ':' :: c :: rest) = ⟨[d,':'],[]⟩ := by
      rw [start,hm]
      rfl
    have hfull : fullName base (d :: ':' :: c :: rest) = d :: ':' :: c :: rest := by
      rw [fullName,hm]
      rfl
    have hplain : Plain isSep [d,':'] := ValidRoot.plain (.inr ⟨d,hd,rfl⟩)
    have hsplit : split (d :: ':' :: c :: rest) = [d,':'] :: fields isSep rest [] := by
      rw [split,if_neg (by simp [isLetter_ne_sep hd])]
      exact fields_append_cons hplain hc rest []
    have hparts : nameParts (d :: ':' :: c :: rest) = fields isSep rest [] := by
      rw [nameParts,hsplit]
      simp [matchDrive,hd]
    obtain ⟨l1,l2⟩ := length_tail_fields '/' isSep rest []
    have htwo : (⟨[d,':'],[]⟩ : Loc).name.length = 2 := rfl
    rw [hstart,hparts] at n1 n2
    rw [hfull,fresh,hstart,hparts]
    simp only [List.length_cons,List.length_nil,Nat.zero_add,List.reverse_nil,List.nil_append] at l1 l2 ⊢
    refine ⟨by omega,fun hsep hlen => ?_⟩
    have hslash : c = '/' := hsep c (by simp) hc
    rw [n2 (by omega),Loc.name,List.nil_append,
      l2 (fun x hx => hsep x (by simp [hx])) (by omega),hslash]
    rfl
  · have hstart : start base s = base := by rw [start,hm]
    have hfull : fullName base s = base.name ++ '/' :: s := by
      rw [fullName,hm]
      rfl
    obtain ⟨l1,l2⟩ := length_split s
    rw [hstart] at n1 n2
    rw [hfull,fresh,hstart]
    simp only [List.length_append,List.length_cons]
    refine ⟨by omega,fun hsep hlen => ?_⟩
    rw [n2 (by omega),p2 (by omega),Loc.name,tail_append,
      l2 (fun x hx => hsep x (by simp [hx])) (by omega),Loc.name]
    simp

end FramaC.Filepath
