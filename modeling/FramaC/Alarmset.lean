import FramaC.Lib.MapMerge

/-! # Alarm maps

Alarms not bound by a closed map are true, those not bound by an open map are unknown. Union and intersection treat maps
of one expression in several states; combination treats maps of several expressions in one state, and does not use the
defaults. The type of the alarms is a parameter.
-/
namespace FramaC.Alarmset
open Outcome MapMerge

inductive Status
  | true
  | false
  | unknown
  deriving DecidableEq, Repr

inductive Exn
  | inconsistent
  | assertFalse
  | fatal
  deriving DecidableEq, Repr

abbrev Bindings (α : Type) := AList fun _ : α => Status

inductive AlarmMap (α : Type)
  | just (m : Bindings α)
  | allBut (m : Bindings α)

def Status.join : Status → Status → Status
  | .true, .true => .true
  | .false, .false => .false
  | _, _ => .unknown

def Status.inter : Status → Status → Except Exn Status
  | .unknown, y => .ok y
  | x, .unknown => .ok x
  | .true, .true => .ok .true
  | .false, .false => .ok .false
  | .true, .false => .error .inconsistent
  | .false, .true => .error .inconsistent

namespace AlarmMap
section Operations
variable {α : Type} [DecidableEq α]

def none : AlarmMap α := .just ∅
def all : AlarmMap α := .allBut ∅

def equal : AlarmMap α → AlarmMap α → Bool
  | .just m, .just n => decide (m.entries.Perm n.entries)
  | .allBut m, .allBut n => decide (m.entries.Perm n.entries)
  | _, _ => false

def get : AlarmMap α → Bindings α
  | .just m => m
  | .allBut m => m

def isEmpty : AlarmMap α → Bool
  | .allBut _ => false
  | .just m => m.entries.isEmpty

def singleton (status : Status) (a : α) : AlarmMap α :=
  if status = .true then .just ∅ else .just (AList.singleton a status)

def set (alarm : α) (status : Status) : AlarmMap α → AlarmMap α
  | .just m => if status = .true then .just (m.erase alarm) else .just (m.insert alarm status)
  | .allBut m => if status = .unknown then .allBut (m.erase alarm) else .allBut (m.insert alarm status)

def default : AlarmMap α → Status
  | .just _ => .true
  | .allBut _ => .unknown

def find (alarm : α) (t : AlarmMap α) : Status := (t.get.lookup alarm).getD t.default

/-- `return` of `merge`: the default of the result is not bound. -/
def returned (closedSet : Bool) (p : Status) : Option Status :=
  if closedSet then (if p = .true then Option.none else some p) else if p = .unknown then Option.none else some p

/-- The function that `merge` gives to the merge of the bindings. -/
def mergeBinding (combine closedSet : Bool) (mergeStatus : Status → Status → Except Exn Status) (d1 d2 : Status) :
    Option Status → Option Status → Except Exn (Option Status)
  | .none, .none => .error .assertFalse
  | some p, .none => if combine then .ok (some p) else do return returned closedSet (← mergeStatus p d2)
  | .none, some p => if combine then .ok (some p) else do return returned closedSet (← mergeStatus d1 p)
  | some p1, some p2 => do return returned closedSet (← mergeStatus p1 p2)

/-- `closed_set` of `merge`, from the merged defaults. -/
def closedSet : Status → Except Exn Bool
  | .true => .ok true
  | .unknown => .ok false
  | .false => .error .assertFalse

def merge (combine : Bool) (mergeStatus : Status → Status → Except Exn Status) (s1 s2 : AlarmMap α) :
    Except Exn (AlarmMap α) := do
  let d1 := s1.default
  let d2 := s2.default
  let closedSet ← closedSet (← mergeStatus d1 d2)
  let m ← MapMerge.merge (fun _ => mergeBinding combine closedSet mergeStatus d1 d2) s1.get s2.get
  return if closedSet then .just m else .allBut m

def union : AlarmMap α → AlarmMap α → Except Exn (AlarmMap α) := merge false fun x y => .ok (x.join y)

/-- The result is inconsistent when this raises `Inconsistent`. -/
def inter : AlarmMap α → AlarmMap α → Except Exn (AlarmMap α) := merge false Status.inter

def combine (s1 s2 : AlarmMap α) : Except Exn (AlarmMap α) :=
  match merge true Status.inter s1 s2 with
  | .error .inconsistent => .error .fatal
  | r => r

end Operations

section Normal
variable {α : Type} [DecidableEq α] {t t1 t2 : AlarmMap α}

def Canonical (t : AlarmMap α) : Prop := ∀ a, t.get.lookup a ≠ some t.default

def SameKind (t1 t2 : AlarmMap α) : Prop := t1.default = t2.default

theorem find_of_lookup {a : α} {p : Status} (h : t.get.lookup a = some p) : t.find a = p := by
  rw [find,h,Option.getD_some]

theorem find_of_not_mem {a : α} (h : a ∉ t.get) : t.find a = t.default := by
  rw [find,AList.lookup_eq_none.mpr h,Option.getD_none]

theorem Canonical.find_eq_default_iff (h : t.Canonical) {a : α} : t.find a = t.default ↔ a ∉ t.get := by
  constructor
  · intro hf hmem
    obtain ⟨p,hp⟩ := Option.isSome_iff_exists.mp (AList.lookup_isSome.mpr hmem)
    rw [find_of_lookup hp] at hf
    subst hf
    exact h a hp
  · exact find_of_not_mem

theorem canonical_empty {d : Status} (a : α) : (∅ : Bindings α).lookup a ≠ some d := by
  rw [AList.lookup_empty]
  simp

theorem canonical_erase {m : Bindings α} {d : Status} (h : ∀ a, m.lookup a ≠ some d) (b a : α) :
    (m.erase b).lookup a ≠ some d := by
  by_cases hab : a = b
  · subst hab
    rw [AList.lookup_erase]
    simp
  · rw [AList.lookup_erase_ne hab]
    exact h a

theorem canonical_insert {m : Bindings α} {d p : Status} (h : ∀ a, m.lookup a ≠ some d) (hp : p ≠ d) (b a : α) :
    (m.insert b p).lookup a ≠ some d := by
  rw [lookup_insert_eq]
  split
  · simpa using hp
  · exact h a

theorem set_canonical (h : t.Canonical) (a : α) (status : Status) : (t.set a status).Canonical := by
  cases t with
  | just m =>
    simp only [set]
    split
    · exact canonical_erase h a
    · rename_i hs
      exact canonical_insert h hs a
  | allBut m =>
    simp only [set]
    split
    · exact canonical_erase h a
    · rename_i hs
      exact canonical_insert h hs a

theorem singleton_canonical (status : Status) (a : α) : (singleton status a).Canonical := by
  unfold singleton
  split
  · exact canonical_empty
  · rename_i hs
    rw [← AList.insert_empty]
    exact canonical_insert canonical_empty hs a

theorem exists_unbound [Infinite α] (m1 m2 : Bindings α) : ∃ a, a ∉ m1 ∧ a ∉ m2 := by
  obtain ⟨a,ha⟩ := Infinite.exists_notMem_finset (m1.keys ++ m2.keys).toFinset
  rw [List.mem_toFinset,List.mem_append,not_or] at ha
  exact ⟨a,ha.1,ha.2⟩

theorem equal_iff [Infinite α] (h1 : t1.Canonical) (h2 : t2.Canonical) :
    equal t1 t2 = true ↔ ∀ a, t1.find a = t2.find a := by
  have hsame : t1.SameKind t2 → (t1.get.entries.Perm t2.get.entries ↔ ∀ a, t1.find a = t2.find a) := by
    intro hk
    rw [perm_entries_iff]
    constructor
    · intro h a
      rw [find,find,h,hk]
    · intro h a
      cases hl1 : t1.get.lookup a with
      | none =>
        have hf := find_of_not_mem (AList.lookup_eq_none.mp hl1)
        rw [h a,hk] at hf
        exact (AList.lookup_eq_none.mpr (h2.find_eq_default_iff.mp hf)).symm
      | some p =>
        have hf := find_of_lookup hl1
        cases hl2 : t2.get.lookup a with
        | none =>
          have hf2 := find_of_not_mem (AList.lookup_eq_none.mp hl2)
          rw [← h a,hf,← hk] at hf2
          subst hf2
          exact absurd hl1 (h1 a)
        | some q =>
          have hf2 := find_of_lookup hl2
          rw [← hf,← hf2,h a]
  obtain ⟨a,ha1,ha2⟩ := exists_unbound t1.get t2.get
  cases t1 with
  | just m =>
    cases t2 with
    | just n => exact decide_eq_true_iff.trans (hsame rfl)
    | allBut n =>
      refine ⟨fun h => by simp [equal] at h,fun h => ?_⟩
      have hf := h a
      rw [find_of_not_mem ha1,find_of_not_mem ha2] at hf
      cases hf
  | allBut m =>
    cases t2 with
    | just n =>
      refine ⟨fun h => by simp [equal] at h,fun h => ?_⟩
      have hf := h a
      rw [find_of_not_mem ha1,find_of_not_mem ha2] at hf
      cases hf
    | allBut n => exact decide_eq_true_iff.trans (hsame rfl)

theorem isEmpty_iff [Infinite α] (h : t.Canonical) : isEmpty t = true ↔ ∀ a, t.find a = .true := by
  cases t with
  | just m =>
    rw [isEmpty,List.isEmpty_iff]
    constructor
    · intro he a
      refine find_of_not_mem ?_
      rw [AList.mem_keys,AList.keys,get,he]
      exact List.not_mem_nil
    · intro hall
      have hkeys : m.keys = [] := List.eq_nil_iff_forall_not_mem.mpr fun a ha =>
        (h.find_eq_default_iff.mp (hall a)) ha
      exact List.map_eq_nil_iff.mp hkeys
  | allBut m =>
    refine ⟨fun he => by simp [isEmpty] at he,fun hall => ?_⟩
    obtain ⟨a,ha,_⟩ := exists_unbound m m
    have hf := hall a
    rw [find_of_not_mem ha] at hf
    cases hf

end Normal

section Merges
variable {α : Type} [DecidableEq α] {s1 s2 t : AlarmMap α} {mergeStatus : Status → Status → Except Exn Status}

theorem getD_returned {closedSet : Bool} {d p : Status} (h : d = if closedSet then .true else .unknown) :
    (returned closedSet p).getD d = p := by
  subst h
  cases closedSet <;> cases p <;> rfl

theorem returned_ne {closedSet : Bool} {d p : Status} (h : d = if closedSet then .true else .unknown) :
    returned closedSet p ≠ some d := by
  subst h
  cases closedSet <;> cases p <;> decide

theorem merge_eq (combine : Bool) {d : Status} (hd : mergeStatus s1.default s2.default = .ok d)
    (hd' : d = .true ∨ d = .unknown) : merge combine mergeStatus s1 s2 =
      MapMerge.merge (fun _ => mergeBinding combine (decide (d = .true)) mergeStatus s1.default s2.default) s1.get s2.get >>=
        fun m => .ok (if d = .true then .just m else .allBut m) := by
  change (mergeStatus s1.default s2.default >>= _) = _
  rw [hd]
  rcases hd' with rfl | rfl
  · rfl
  · rfl

omit [DecidableEq α] in
theorem default_ite {d : Status} (hd : d = .true ∨ d = .unknown) (m : Bindings α) :
    (if d = .true then AlarmMap.just m else .allBut m).default = d ∧ (if d = .true then AlarmMap.just m else .allBut m).get = m := by
  rcases hd with rfl | rfl
  · exact ⟨rfl,rfl⟩
  · exact ⟨rfl,rfl⟩

theorem kind_ite {d : Status} (hd : d = .true ∨ d = .unknown) : d = if decide (d = .true) = true then .true else .unknown := by
  rcases hd with rfl | rfl
  · rfl
  · rfl

theorem mergeBinding_eq {a : α} (closedSet : Bool) (ha : a ∈ s1.get ∨ a ∈ s2.get) :
    mergeBinding false closedSet mergeStatus s1.default s2.default (s1.get.lookup a) (s2.get.lookup a) =
      (mergeStatus (s1.find a) (s2.find a)).map (returned closedSet) := by
  unfold find
  cases h1 : s1.get.lookup a with
  | none =>
    cases h2 : s2.get.lookup a with
    | none => exact (ha.elim (AList.lookup_eq_none.mp h1) (AList.lookup_eq_none.mp h2)).elim
    | some p => rfl
  | some p =>
    cases h2 : s2.get.lookup a with
    | none => rfl
    | some q => rfl

theorem merge_sat {d : Status} (hd : mergeStatus s1.default s2.default = .ok d) (hd' : d = .true ∨ d = .unknown) :
    Sat (fun t => t.Canonical ∧ ∀ a, mergeStatus (s1.find a) (s2.find a) = .ok (t.find a))
      (fun e => ∃ a, mergeStatus (s1.find a) (s2.find a) = .error e) (merge false mergeStatus s1 s2) := by
  rw [merge_eq false hd hd']
  refine Sat.bind ((MapMerge.merge_sat _ s1.get s2.get).mono (fun _ h => h) ?_) fun m hm => ?_
  · rintro e ⟨a,ha,he⟩
    rw [mergeBinding_eq _ ha] at he
    refine ⟨a,?_⟩
    cases hs : mergeStatus (s1.find a) (s2.find a) with
    | error e' =>
      rw [hs] at he
      cases he
      rfl
    | ok p =>
      rw [hs] at he
      cases he
  · obtain ⟨hdef,hget⟩ := default_ite hd' m
    -- the statuses of an alarm, bound or not
    have hall : ∀ a, m.lookup a ≠ some d ∧ mergeStatus (s1.find a) (s2.find a) = .ok ((m.lookup a).getD d) := by
      intro a
      by_cases ha : a ∈ s1.get ∨ a ∈ s2.get
      · have hbind := (hm a).1 ha
        rw [mergeBinding_eq _ ha] at hbind
        cases hs : mergeStatus (s1.find a) (s2.find a) with
        | error e' =>
          rw [hs] at hbind
          cases hbind
        | ok p =>
          rw [hs] at hbind
          have hl : returned (decide (d = .true)) p = m.lookup a := by injection hbind
          rw [← hl,getD_returned (kind_ite hd')]
          exact ⟨returned_ne (kind_ite hd'),rfl⟩
      · rw [(hm a).2 ha]
        rw [not_or] at ha
        rw [find_of_not_mem ha.1,find_of_not_mem ha.2]
        exact ⟨by simp,hd⟩
    refine ⟨?_,?_⟩
    · intro a
      rw [hdef,hget]
      exact (hall a).1
    · intro a
      have hfind : find a (if d = .true then .just m else .allBut m) = (m.lookup a).getD d := by rw [find,hdef,hget]
      rw [hfind]
      exact (hall a).2

theorem union_spec (s1 s2 : AlarmMap α) : ∃ t, union s1 s2 = .ok t ∧ t.Canonical ∧
    ∀ a, t.find a = (s1.find a).join (s2.find a) := by
  have hd : (s1.default.join s2.default) = .true ∨ (s1.default.join s2.default) = .unknown := by
    cases s1 with
    | just m =>
      cases s2 with
      | just n => exact Or.inl rfl
      | allBut n => exact Or.inr rfl
    | allBut m =>
      cases s2 with
      | just n => exact Or.inr rfl
      | allBut n => exact Or.inr rfl
  have hret : Sat (fun t : AlarmMap α => t.Canonical ∧
      ∀ a, (.ok ((s1.find a).join (s2.find a)) : Except Exn Status) = .ok (t.find a)) (fun _ => False) (union s1 s2) := by
    refine (merge_sat rfl hd).mono (fun _ h => h) ?_
    rintro e ⟨a,ha⟩
    cases ha
  obtain ⟨t,ht,hc,hf⟩ := hret.exists_ok
  refine ⟨t,ht,hc,?_⟩
  intro a
  have := hf a
  injection this with this
  exact this.symm

omit [DecidableEq α] in
theorem inter_default (s1 s2 : AlarmMap α) :
    ∃ d, Status.inter s1.default s2.default = .ok d ∧ (d = .true ∨ d = .unknown) ∧
      (s1.SameKind s2 → d = s1.default) ∧ (¬ s1.SameKind s2 → d = .true) := by
  cases s1 with
  | just m =>
    cases s2 with
    | just n => exact ⟨_,rfl,Or.inl rfl,fun _ => rfl,fun _ => rfl⟩
    | allBut n => exact ⟨_,rfl,Or.inl rfl,fun _ => rfl,fun _ => rfl⟩
  | allBut m =>
    cases s2 with
    | just n => exact ⟨_,rfl,Or.inl rfl,(by rintro ⟨⟩),fun _ => rfl⟩
    | allBut n => exact ⟨_,rfl,Or.inr rfl,fun _ => rfl,fun h => absurd rfl h⟩

theorem status_inter_error {x y : Status} {e : Exn} :
    Status.inter x y = .error e ↔ e = .inconsistent ∧ (x = .true ∧ y = .false ∨ x = .false ∧ y = .true) := by
  cases x <;> cases y <;> simp [Status.inter,eq_comm]

theorem status_inter_ok {x y z : Status} (h : Status.inter x y = .ok z) : z = if x = .unknown then y else x := by
  cases x <;> cases y <;> cases h <;> rfl

def Conflict (t1 t2 : AlarmMap α) : Prop :=
  ∃ a, t1.find a = .true ∧ t2.find a = .false ∨ t1.find a = .false ∧ t2.find a = .true

theorem inter_spec (s1 s2 : AlarmMap α) : (inter s1 s2 = .error .inconsistent ∧ s1.Conflict s2) ∨
    ∃ t, inter s1 s2 = .ok t ∧ ¬ s1.Conflict s2 ∧ t.Canonical ∧
      ∀ a, t.find a = if s1.find a = .unknown then s2.find a else s1.find a := by
  obtain ⟨d,hd,hd',_⟩ := inter_default s1 s2
  have hsat := merge_sat hd hd'
  unfold inter
  cases hm : merge false Status.inter s1 s2 with
  | error e =>
    rw [hm] at hsat
    obtain ⟨a,ha⟩ := hsat
    obtain ⟨rfl,hc⟩ := (status_inter_error).mp ha
    exact Or.inl ⟨rfl,a,hc⟩
  | ok t =>
    rw [hm] at hsat
    obtain ⟨hcan,hf⟩ := hsat
    refine Or.inr ⟨t,rfl,?_,hcan,fun a => status_inter_ok (hf a)⟩
    rintro ⟨a,ha⟩
    have herr := (status_inter_error).mpr ⟨rfl,ha⟩
    rw [hf a] at herr
    cases herr

theorem combine_spec (h : combine s1 s2 = .ok t) : ∃ d, (s1.SameKind s2 → d = s1.default) ∧
    (¬ s1.SameKind s2 → d = .true) ∧ t.default = d ∧
    ∀ a, (a ∉ s1.get → a ∉ s2.get → a ∉ t.get) ∧
      (∀ p, s1.get.lookup a = some p → a ∉ s2.get → t.get.lookup a = some p) ∧
      (∀ p, a ∉ s1.get → s2.get.lookup a = some p → t.get.lookup a = some p) ∧
      (a ∈ s1.get → a ∈ s2.get → t.get.lookup a ≠ some d) := by
  obtain ⟨d,hd,hd',hsame,hmixed⟩ := inter_default s1 s2
  refine ⟨d,hsame,hmixed,?_⟩
  have hsat := MapMerge.merge_sat (fun _ => mergeBinding true (decide (d = .true)) Status.inter s1.default s2.default)
    s1.get s2.get
  unfold combine at h
  rw [merge_eq true hd hd'] at h
  cases hm : MapMerge.merge (fun _ => mergeBinding true (decide (d = .true)) Status.inter s1.default s2.default)
      s1.get s2.get with
  | error e =>
    rw [hm] at h
    cases e <;> cases h
  | ok m =>
    rw [hm] at hsat h
    cases h
    obtain ⟨hdef,hget⟩ := default_ite hd' m
    refine ⟨hdef,?_⟩
    intro a
    rw [hget]
    obtain ⟨hbound,hfree⟩ := hsat a
    refine ⟨?_,?_,?_,?_⟩
    · intro h1 h2
      exact AList.lookup_eq_none.mp (hfree (not_or.mpr ⟨h1,h2⟩))
    · intro p hp h2
      have hb := hbound (Or.inl (AList.lookup_isSome.mp (by rw [hp]; rfl)))
      rw [hp,AList.lookup_eq_none.mpr h2] at hb
      injection hb with hb
      exact hb.symm
    · intro p h1 hp
      have hb := hbound (Or.inr (AList.lookup_isSome.mp (by rw [hp]; rfl)))
      rw [hp,AList.lookup_eq_none.mpr h1] at hb
      injection hb with hb
      exact hb.symm
    · intro h1 h2
      have hb := hbound (Or.inl h1)
      obtain ⟨p,hp⟩ := Option.isSome_iff_exists.mp (AList.lookup_isSome.mpr h1)
      obtain ⟨q,hq⟩ := Option.isSome_iff_exists.mp (AList.lookup_isSome.mpr h2)
      rw [hp,hq,mergeBinding] at hb
      cases hi : Status.inter p q with
      | error e =>
        rw [hi] at hb
        cases hb
      | ok r =>
        rw [hi] at hb
        injection hb with hb
        rw [← hb]
        exact returned_ne (kind_ite hd')

theorem combine_canonical (h1 : s1.Canonical) (h2 : s2.Canonical) (hk : s1.SameKind s2) (h : combine s1 s2 = .ok t) :
    t.Canonical := by
  obtain ⟨d,hd,_,hdef,hb⟩ := combine_spec h
  have hd := hd hk
  subst hd
  intro a
  obtain ⟨hnone,hleft,hright,hboth⟩ := hb a
  rw [hdef]
  cases hl1 : s1.get.lookup a with
  | none =>
    have ha1 := AList.lookup_eq_none.mp hl1
    cases hl2 : s2.get.lookup a with
    | none =>
      rw [AList.lookup_eq_none.mpr (hnone ha1 (AList.lookup_eq_none.mp hl2))]
      simp
    | some q =>
      rw [hright q ha1 hl2,hk,← hl2]
      exact h2 a
  | some p =>
    cases hl2 : s2.get.lookup a with
    | none =>
      rw [hleft p hl1 (AList.lookup_eq_none.mp hl2),← hl1]
      exact h1 a
    | some q => exact hboth (AList.lookup_isSome.mp (by rw [hl1]; rfl)) (AList.lookup_isSome.mp (by rw [hl2]; rfl))

/-- What a map must satisfy to be sound for two expressions in one state. -/
def SoundFor (t1 t2 t : AlarmMap α) : Prop :=
  (∀ a, t1.find a = .unknown → a ∉ t2.get → t.find a = .unknown) ∧
  (∀ a, t2.find a = .unknown → a ∉ t1.get → t.find a = .unknown) ∧
  (∀ a p, t1.get.lookup a = some p → a ∉ t2.get → t.find a = p) ∧
  ∀ a p, a ∉ t1.get → t2.get.lookup a = some p → t.find a = p

theorem combine_sound_iff [Infinite α] (h : combine s1 s2 = .ok t) : SoundFor s1 s2 t ↔ s1.SameKind s2 := by
  obtain ⟨d,hsame,hmixed,hdef,hb⟩ := combine_spec h
  constructor
  · rintro ⟨hl,hr,_,_⟩
    by_contra hk
    obtain ⟨a,ha1,ha2⟩ := exists_unbound s1.get s2.get
    have hft : t.find a = .true := by rw [find_of_not_mem ((hb a).1 ha1 ha2),hdef,hmixed hk]
    have hunk : s1.default = .unknown ∨ s2.default = .unknown := by
      cases s1 with
      | just m =>
        cases s2 with
        | just n => exact absurd rfl hk
        | allBut n => exact Or.inr rfl
      | allBut m => exact Or.inl rfl
    rcases hunk with hu | hu
    · have hf := hl a (by rw [find_of_not_mem ha1,hu]) ha2
      rw [hft] at hf
      cases hf
    · have hf := hr a (by rw [find_of_not_mem ha2,hu]) ha1
      rw [hft] at hf
      cases hf
  · intro hk
    have hd := hsame hk
    have hleft : ∀ a p, s1.get.lookup a = some p → a ∉ s2.get → t.find a = p := fun a p hp h2 =>
      find_of_lookup ((hb a).2.1 p hp h2)
    have hright : ∀ a p, a ∉ s1.get → s2.get.lookup a = some p → t.find a = p := fun a p h1 hp =>
      find_of_lookup ((hb a).2.2.1 p h1 hp)
    refine ⟨?_,?_,hleft,hright⟩
    · intro a hf h2
      cases hl : s1.get.lookup a with
      | none =>
        have h1 := AList.lookup_eq_none.mp hl
        rw [find_of_not_mem h1] at hf
        rw [find_of_not_mem ((hb a).1 h1 h2),hdef,hd,hf]
      | some p =>
        rw [find_of_lookup hl] at hf
        subst hf
        exact hleft a _ hl h2
    · intro a hf h1
      cases hl : s2.get.lookup a with
      | none =>
        have h2 := AList.lookup_eq_none.mp hl
        rw [find_of_not_mem h2] at hf
        rw [find_of_not_mem ((hb a).1 h1 h2),hdef,hd,hk,hf]
      | some p =>
        rw [find_of_lookup hl] at hf
        subst hf
        exact hright a _ h1 hl

end Merges

/-- The maps built by the operations, with combinations of maps of the same kind. -/
inductive Reachable {α : Type} [DecidableEq α] : AlarmMap α → Prop
  | none : Reachable none
  | all : Reachable all
  | singleton (status : Status) (a : α) : Reachable (singleton status a)
  | set {t : AlarmMap α} (a : α) (status : Status) : Reachable t → Reachable (t.set a status)
  | union {t1 t2 t : AlarmMap α} : Reachable t1 → Reachable t2 → union t1 t2 = .ok t → Reachable t
  | inter {t1 t2 t : AlarmMap α} : Reachable t1 → Reachable t2 → inter t1 t2 = .ok t → Reachable t
  | combine {t1 t2 t : AlarmMap α} : Reachable t1 → Reachable t2 → t1.SameKind t2 → combine t1 t2 = .ok t → Reachable t

theorem Reachable.canonical {α : Type} [DecidableEq α] {t : AlarmMap α} (h : Reachable t) : t.Canonical := by
  induction h with
  | none => exact canonical_empty
  | all => exact canonical_empty
  | singleton status a => exact singleton_canonical status a
  | set a status _ ih => exact set_canonical ih a status
  | @union t1 t2 t _ _ hu _ _ =>
    obtain ⟨t',ht',hc,_⟩ := union_spec t1 t2
    rw [hu] at ht'
    cases ht'
    exact hc
  | @inter t1 t2 t _ _ hi _ _ =>
    rcases inter_spec t1 t2 with ⟨he,_⟩ | ⟨t',ht',_,hc,_⟩
    · rw [hi] at he
      cases he
    · rw [hi] at ht'
      cases ht'
      exact hc
  | combine _ _ hk hc ih1 ih2 => exact combine_canonical ih1 ih2 hk hc

end AlarmMap

open AlarmMap

/-- In a run whose combinations are of maps of the same kind, the defaults are never bound, so that equality and emptiness
are those of the statuses; unions join, intersections refine or find a conflict, and a combination is sound exactly when it
is of maps of the same kind. -/
theorem alarm_maps_sound {α : Type} [DecidableEq α] [Infinite α] {t1 t2 : AlarmMap α} (h1 : Reachable t1)
    (h2 : Reachable t2) :
    (∀ m, t1 = .just m → ∀ a, m.lookup a ≠ some .true) ∧ (∀ m, t1 = .allBut m → ∀ a, m.lookup a ≠ some .unknown) ∧
    (equal t1 t2 = true ↔ ∀ a, t1.find a = t2.find a) ∧ (isEmpty t1 = true ↔ ∀ a, t1.find a = .true) ∧
    (∃ t, union t1 t2 = .ok t ∧ ∀ a, t.find a = (t1.find a).join (t2.find a)) ∧
    (inter t1 t2 = .error .inconsistent ↔ Conflict t1 t2) ∧
    (¬ Conflict t1 t2 →
      ∃ t, inter t1 t2 = .ok t ∧ ∀ a, t.find a = if t1.find a = .unknown then t2.find a else t1.find a) ∧
    ∀ t, combine t1 t2 = .ok t → (SoundFor t1 t2 t ↔ SameKind t1 t2) := by
  have hc1 := h1.canonical
  obtain ⟨u,hu,_,huf⟩ := union_spec t1 t2
  refine ⟨?_,?_,equal_iff hc1 h2.canonical,isEmpty_iff hc1,⟨u,hu,huf⟩,?_,?_,fun t ht => combine_sound_iff ht⟩
  · rintro m rfl
    exact hc1
  · rintro m rfl
    exact hc1
  · rcases inter_spec t1 t2 with ⟨he,hconf⟩ | ⟨t,ht,hconf,_⟩
    · exact ⟨fun _ => hconf,fun _ => he⟩
    · refine ⟨fun he => ?_,fun h => absurd h hconf⟩
      rw [ht] at he
      cases he
  · intro hconf
    rcases inter_spec t1 t2 with ⟨_,h⟩ | ⟨t,ht,_,_,hf⟩
    · exact absurd h hconf
    · exact ⟨t,ht,hf⟩

theorem alarm_maps_sound_open :
    ∃ t : AlarmMap ℕ, union all (AlarmMap.singleton .false 3) = .ok t ∧ t.find 3 = .unknown := by
  obtain ⟨t,ht,hf⟩ := (alarm_maps_sound Reachable.all (Reachable.singleton .false 3)).2.2.2.2.1
  exact ⟨t,ht,hf 3⟩

theorem combine_forgets_open_map : ∃ t : AlarmMap ℕ, combine AlarmMap.none AlarmMap.all = .ok t ∧
    AlarmMap.all.find 0 = .unknown ∧ 0 ∉ (AlarmMap.none : AlarmMap ℕ).get ∧ t.find 0 = .true :=
  ⟨.just ∅,rfl,rfl,AList.notMem_empty 0,rfl⟩

end FramaC.Alarmset
