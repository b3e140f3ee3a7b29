import FramaC.EAcsl.Bittree.Model

/-! # Initialization over whole runs

A run of the tracking functions is compared with a memory that keeps the sizes of the tracked blocks and the set of
initialized addresses. The two agree after every prefix of a run exactly when no `realloc` cuts a partially
initialized block in the middle of a byte of its bitmap that has later bits set.
-/
namespace FramaC.EAcsl.Bittree

/-- The calls, with what the environment chooses: the addresses returned by the allocator and the content of newly
allocated private memory. -/
inductive Op where
  | storeBlock (ptr size : ℕ)
  | malloc (size res : ℕ)
  | calloc (nbrBlock sizeBlock res : ℕ)
  | initializeBytes (fresh : Bytes) (ptr size : ℕ)
  | fullInit (ptr : ℕ)
  | realloc (fresh : Bytes) (ptr size res : ℕ)
  | deleteBlock (ptr : ℕ)
  | free (ptr : ℕ)

def step (s : Store) : Op → Option Store
  | .storeBlock ptr size => some (storeBlock s ptr size)
  | .malloc size res => some (malloc s size res)
  | .calloc nbrBlock sizeBlock res => some (calloc s nbrBlock sizeBlock res)
  | .initializeBytes fresh ptr size => initializeBytes s fresh ptr size
  | .fullInit ptr => some (fullInit s ptr)
  | .realloc fresh ptr size res => realloc s fresh ptr size res
  | .deleteBlock ptr => some (deleteBlock s ptr)
  | .free ptr => free s ptr

def run (s : Store) : List Op → Option Store
  | [] => some s
  | op :: ops => (step s op).bind fun s' => run s' ops

/-- A new block, unless its address is `NULL`. -/
def trackBlock (a : Memory) (p n : ℕ) (init : Bool) : Memory := if p = 0 then a else a.track p n init

def specStep (a : Memory) : Op → Memory
  | .storeBlock ptr size => trackBlock a ptr size false
  | .malloc size res => if size = 0 then a else trackBlock a res size false
  | .calloc nbrBlock sizeBlock res =>
    if nbrBlock * sizeBlock = 0 then a else trackBlock a res (nbrBlock * sizeBlock) true
  | .initializeBytes _ ptr size => { a with init := mark a.init ptr size }
  | .fullInit ptr => { a with init := mark a.init ptr ((a.size ptr).getD 0) }
  | .realloc _ ptr size res =>
    if ptr = 0 then (if size = 0 then a else trackBlock a res size false)
    else if size = 0 then a.untrack ptr
    else if res = 0 then a
    else a.move ptr ((a.size ptr).getD 0) res size
  | .deleteBlock ptr => a.untrack ptr
  | .free ptr => a.untrack ptr

def specRun (a : Memory) (ops : List Op) : Memory := ops.foldl specStep a

/-- The calls that the instrumented program can make: new blocks are apart from the tracked ones, sizes are below
`2 ^ 31`, ranges lie in one block, and `realloc` and `free` get a tracked block or `NULL`. -/
def Valid (a : Memory) : Op → Prop
  | .storeBlock ptr size => size < 2 ^ 31 ∧ (ptr ≠ 0 → a.Fresh ptr size)
  | .malloc size res => size < 2 ^ 31 ∧ (res ≠ 0 → a.Fresh res size)
  | .calloc nbrBlock sizeBlock res =>
    nbrBlock * sizeBlock < 2 ^ 31 ∧ (res ≠ 0 → a.Fresh res (nbrBlock * sizeBlock))
  | .initializeBytes _ ptr size => a.Inside ptr size
  | .fullInit _ => True
  | .realloc _ ptr size res =>
    size < 2 ^ 31 ∧ (ptr ≠ 0 → ∃ n, a.size ptr = some n) ∧ (res ≠ 0 → (a.untrack ptr).Fresh res size)
  | .deleteBlock _ => True
  | .free ptr => ptr ≠ 0 → ∃ n, a.size ptr = some n

/-- No call of `realloc` leaves bits of initialized bytes after the new end of a partially initialized block. -/
def Safe (a : Memory) : Op → Prop
  | .realloc _ ptr size res => ptr ≠ 0 → size ≠ 0 → res ≠ 0 → TailClear a.init ptr ((a.size ptr).getD 0) size
  | _ => True

/-- The counters are those of the initialized bytes, and `initialized` answers for the bytes of a range. -/
structure Exact (s : Store) (a : Memory) : Prop where
  counts : ∀ p b, btLookup s p = some b → a.size p = some b.size ∧ b.initBytes = initCount a.init p b.size
  tracked : ∀ p n, a.size p = some n → ∃ b, btLookup s p = some b
  initialized : ∀ p n, 1 ≤ n → a.Inside p n → initialized s p n = some (decide (∀ i < n, a.init (p + i) = true))

structure Agrees (s : Store) (a : Memory) : Prop where
  keyed : ∀ b ∈ s, btLookup s b.ptr = some b
  size : ∀ p, a.size p = (btLookup s p).map Block.size
  null : btLookup s 0 = none
  separate : ∀ p q b c, p ≠ q → btLookup s p = some b → btLookup s q = some c → Separate p b.size q c.size
  tracks : ∀ p b, btLookup s p = some b → Tracks a.init b

theorem ptr_of_btLookup {s : Store} {p : ℕ} {b : Block} (h : btLookup s p = some b) : b.ptr = p := by
  have := List.find?_some h
  exact eq_of_beq this

theorem mem_of_btLookup {s : Store} {p : ℕ} {b : Block} (h : btLookup s p = some b) : b ∈ s :=
  List.mem_of_find?_eq_some h

theorem btLookup_cons (d : Block) (s : Store) (q : ℕ) :
    btLookup (d :: s) q = if d.ptr = q then some d else btLookup s q := by
  by_cases h : d.ptr = q
  · simp [btLookup,h]
  · simp [btLookup,h]

theorem btLookup_btInsert (b : Block) (s : Store) :
    btLookup (btInsert b s) = Function.update (btLookup s) b.ptr (some b) := by
  funext q
  rw [btInsert,btLookup_cons,Function.update_apply]
  simp only [eq_comm]

theorem btLookup_btRemove (b : Block) (s : Store) :
    btLookup (btRemove b s) = Function.update (btLookup s) b.ptr none := by
  funext q
  rw [Function.update_apply]
  induction s with
  | nil => simp [btLookup,btRemove]
  | cons c s ih =>
    by_cases hc : c.ptr = b.ptr
    · have hdrop : btRemove b (c :: s) = btRemove b s := by simp [btRemove,hc]
      rw [hdrop,ih,btLookup_cons,hc]
      by_cases hq : q = b.ptr
      · simp [hq]
      · simp [hq,eq_comm]
    · have hkeep : btRemove b (c :: s) = c :: btRemove b s := by simp [btRemove,hc]
      rw [hkeep,btLookup_cons,btLookup_cons,ih]
      by_cases hq : q = b.ptr
      · simp [hq,hc]
      · simp [hq]

theorem btLookup_assign {s : Store} {p : ℕ} {b c : Block} (hb : b.ptr = p) (hc : btLookup s p = some c) :
    btLookup (assign s p b) = Function.update (btLookup s) p (some b) := by
  funext q
  rw [Function.update_apply]
  by_cases hq : q = p
  · subst hq
    rw [if_pos rfl]
    induction s with
    | nil => cases hc
    | cons d s ih =>
      rw [assign,List.map_cons,btLookup_cons]
      rw [btLookup_cons] at hc
      by_cases hd : d.ptr = q
      · simp [hd,hb]
      · rw [if_neg hd] at hc
        simp only [hd,if_false]
        exact ih hc
  · rw [if_neg hq]
    clear hc
    induction s with
    | nil => rfl
    | cons d s ih =>
      rw [assign,List.map_cons,btLookup_cons,btLookup_cons]
      by_cases hd : d.ptr = p
      · have hpq : p ≠ q := fun e => hq e.symm
        simp only [hd,if_true,hb,hpq,if_false]
        exact ih
      · simp only [hd,if_false]
        rw [← ih]
        rfl

theorem mem_assign {s : Store} {p : ℕ} {b c : Block} (h : c ∈ assign s p b) : c = b ∨ c ∈ s ∧ c.ptr ≠ p := by
  obtain ⟨d,hd,rfl⟩ := List.mem_map.1 h
  by_cases hp : d.ptr = p
  · exact Or.inl (if_pos hp)
  · rw [if_neg hp]
    exact Or.inr ⟨hd,hp⟩

theorem Agrees.put {s s' : Store} {a a' : Memory} {p : ℕ} {b : Block} (h : Agrees s a) (hp : p ≠ 0) (hb : b.ptr = p)
    (hl : btLookup s' = Function.update (btLookup s) p (some b)) (hk : ∀ c ∈ s', c = b ∨ c ∈ s ∧ c.ptr ≠ p)
    (hsep : ∀ q c, q ≠ p → btLookup s q = some c → Separate p b.size q c.size)
    (hsize : a'.size = Function.update a.size p (some b.size))
    (hinit : ∀ x, ¬(p ≤ x ∧ x < p + b.size) → a'.init x = a.init x) (ht : Tracks a'.init b) : Agrees s' a' := by
  have hcases (q : ℕ) (c : Block) (hq : btLookup s' q = some c) : q = p ∧ c = b ∨ q ≠ p ∧ btLookup s q = some c := by
    rw [hl,Function.update_apply] at hq
    by_cases h : q = p
    · rw [if_pos h] at hq
      exact Or.inl ⟨h,(Option.some.inj hq).symm⟩
    · rw [if_neg h] at hq
      exact Or.inr ⟨h,hq⟩
  constructor
  · intro c hc
    rw [hl]
    rcases hk c hc with rfl | ⟨hc,hne⟩
    · rw [hb,Function.update_self]
    · rw [Function.update_of_ne hne,h.keyed c hc]
  · intro q
    rw [hsize,hl,Function.update_apply,Function.update_apply]
    by_cases hq : q = p
    · simp [hq]
    · simp only [hq,if_false]
      exact h.size q
  · rw [hl,Function.update_of_ne hp.symm,h.null]
  · intro q r c d hqr hq hr
    rcases hcases q c hq with ⟨rfl,rfl⟩ | ⟨hqp,hq⟩
    · rcases hcases r d hr with ⟨rfl,_⟩ | ⟨hrp,hr⟩
      · exact absurd rfl hqr
      · exact hsep r d hrp hr
    · rcases hcases r d hr with ⟨rfl,rfl⟩ | ⟨_,hr⟩
      · exact separate_symm (hsep q c hqp hq)
      · exact h.separate q r c d hqr hq hr
  · intro q c hq
    rcases hcases q c hq with ⟨rfl,rfl⟩ | ⟨hqp,hq⟩
    · exact ht
    · apply (h.tracks q c hq).congr
      intro o ho
      rw [ptr_of_btLookup hq]
      exact (hinit _ (separate_out (hsep q c hqp hq) ho)).symm

theorem Agrees.erase {s : Store} {a : Memory} {b : Block} (h : Agrees s a) :
    Agrees (btRemove b s) (a.untrack b.ptr) := by
  have hl := btLookup_btRemove b s
  have hcases (q : ℕ) (c : Block) (hq : btLookup (btRemove b s) q = some c) : q ≠ b.ptr ∧ btLookup s q = some c := by
    rw [hl,Function.update_apply] at hq
    by_cases h : q = b.ptr
    · rw [if_pos h] at hq
      cases hq
    · rw [if_neg h] at hq
      exact ⟨h,hq⟩
  constructor
  · intro c hc
    obtain ⟨hc,hne⟩ := List.mem_filter.1 hc
    rw [hl,Function.update_of_ne (bne_iff_ne.1 hne),h.keyed c hc]
  · intro q
    simp only [hl,Memory.untrack,Function.update_apply]
    by_cases hq : q = b.ptr
    · simp [hq]
    · simp only [hq,if_false]
      exact h.size q
  · rw [hl,Function.update_apply]
    split
    · rfl
    · exact h.null
  · intro q r c d hqr hq hr
    exact h.separate q r c d hqr (hcases q c hq).2 (hcases r d hr).2
  · intro q c hq
    exact h.tracks q c (hcases q c hq).2

theorem Agrees.assign {s : Store} {a a' : Memory} {p : ℕ} {b c : Block} (h : Agrees s a)
    (hc : btLookup s p = some c) (hb : b.ptr = p) (hs : b.size = c.size) (hsize : a'.size = a.size)
    (hinit : ∀ x, ¬(p ≤ x ∧ x < p + b.size) → a'.init x = a.init x) (ht : Tracks a'.init b) :
    Agrees (assign s p b) a' := by
  have hp : p ≠ 0 := by
    rintro rfl
    rw [h.null] at hc
    cases hc
  apply h.put hp hb (btLookup_assign hb hc) (fun d hd => mem_assign hd) _ _ hinit ht
  · intro q d hq hd
    rw [hs]
    exact h.separate p q c d hq.symm hc hd
  · have hold := h.size p
    rw [hc] at hold
    rw [hs,hsize]
    exact (Function.update_eq_self_iff.2 hold.symm).symm

theorem Agrees.insert {s : Store} {a a' : Memory} {b : Block} (h : Agrees s a) (hp : b.ptr ≠ 0)
    (hfresh : a.Fresh b.ptr b.size) (hsize : a'.size = Function.update a.size b.ptr (some b.size))
    (hinit : ∀ x, ¬(b.ptr ≤ x ∧ x < b.ptr + b.size) → a'.init x = a.init x) (ht : Tracks a'.init b) :
    Agrees (btInsert b s) a' := by
  have hsep (q : ℕ) (c : Block) (hc : btLookup s q = some c) : Separate b.ptr b.size q c.size := by
    apply hfresh
    rw [h.size q,hc]
    rfl
  apply h.put hp rfl (btLookup_btInsert b s) _ (fun q c _ hc => hsep q c hc) hsize hinit ht
  intro c hc
  rcases List.mem_cons.1 hc with rfl | hc
  · exact Or.inl rfl
  · refine Or.inr ⟨hc,?_⟩
    intro e
    have hs := hsep _ c (h.keyed c hc)
    rw [e] at hs
    unfold Separate at hs
    omega

theorem Agrees.storeBlock {s : Store} {a : Memory} (h : Agrees s a) {p n : ℕ} (hf : p ≠ 0 → a.Fresh p n) :
    Agrees (storeBlock s p n) (trackBlock a p n false) := by
  by_cases hp : p = 0
  · subst hp
    exact h
  · simp only [Bittree.storeBlock,trackBlock,Memory.track,hp,if_false]
    apply h.insert hp (hf hp) rfl
    · intro x hx
      exact if_neg hx
    · refine ⟨?_,fun hne _ => absurd rfl hne⟩
      symm
      apply (countP_range_eq_zero _).2
      intro o ho
      have hin : p ≤ p + o ∧ p + o < p + n := ⟨Nat.le_add_right p o,Nat.add_lt_add_left ho p⟩
      exact if_pos hin

theorem Agrees.storeFreeableBlock {s : Store} {a : Memory} (h : Agrees s a) {p n : ℕ} (hf : p ≠ 0 → a.Fresh p n)
    (init : Bool) : Agrees (storeFreeableBlock s p n init) (trackBlock a p n init) := by
  have hstore := h.storeBlock hf
  by_cases hp : p = 0
  · subst hp
    exact h
  · have hl : btLookup (Bittree.storeBlock s p n) p = some ⟨p,n,none,0,false,false⟩ := by
      simp [Bittree.storeBlock,hp,btLookup_btInsert]
    simp only [Bittree.storeFreeableBlock,hp,if_false,hl]
    have ht := hstore.tracks _ _ hl
    cases init with
    | false =>
      exact hstore.assign hl rfl rfl rfl (fun _ _ => rfl) ⟨ht.count,fun hne _ => absurd rfl hne⟩
    | true =>
      apply hstore.assign hl (by rfl) (by rfl)
      · simp only [trackBlock,Memory.track,hp,if_false]
      · intro x hx
        have hno : ¬(p ≤ x ∧ x < p + n) := hx
        simp only [trackBlock,Memory.track,hp,if_false,hno]
      · refine ⟨?_,fun _ hne => absurd rfl hne⟩
        symm
        apply (countP_range_eq_self _).2
        intro o ho
        have hin : p ≤ p + o ∧ p + o < p + n := ⟨Nat.le_add_right p o,Nat.add_lt_add_left ho p⟩
        simp only [trackBlock,Memory.track,hp,if_false,hin,and_self,if_true]

theorem Agrees.untrack {s : Store} {a : Memory} (h : Agrees s a) {p : ℕ} (hp : btLookup s p = none) :
    Agrees s (a.untrack p) := by
  have hsize : (a.untrack p).size = a.size := by
    apply Function.update_eq_self_iff.2
    rw [h.size p,hp]
    rfl
  exact ⟨h.keyed,fun q => by rw [hsize,h.size q],h.null,h.separate,h.tracks⟩

theorem Agrees.remove {s : Store} {a : Memory} (h : Agrees s a) {p : ℕ} {b : Block} (hb : btLookup s p = some b) :
    Agrees (btRemove b.clean s) (a.untrack p) := by
  have hp := ptr_of_btLookup hb
  subst hp
  exact h.erase

theorem Agrees.deleteBlock {s : Store} {a : Memory} (h : Agrees s a) (p : ℕ) :
    Agrees (deleteBlock s p) (a.untrack p) := by
  unfold Bittree.deleteBlock
  by_cases hp : p = 0
  · subst hp
    exact h.untrack h.null
  · rw [if_neg hp]
    cases hb : btLookup s p with
    | none => exact h.untrack hb
    | some b => exact h.remove hb

theorem Agrees.free {s : Store} {a : Memory} (h : Agrees s a) {p : ℕ} (hp : p ≠ 0 → ∃ n, a.size p = some n) :
    ∃ s', free s p = some s' ∧ Agrees s' (a.untrack p) := by
  unfold Bittree.free
  by_cases h0 : p = 0
  · subst h0
    exact ⟨s,if_pos rfl,h.untrack h.null⟩
  · obtain ⟨n,hn⟩ := hp h0
    rw [h.size p] at hn
    obtain ⟨b,hb,_⟩ := Option.map_eq_some_iff.1 hn
    rw [if_neg h0,hb]
    exact ⟨_,rfl,h.remove hb⟩

theorem Agrees.fullInit {s : Store} {a : Memory} (h : Agrees s a) (p : ℕ) :
    Agrees (fullInit s p) { a with init := mark a.init p ((a.size p).getD 0) } := by
  unfold Bittree.fullInit
  cases hb : btLookup s p with
  | none =>
    have hsize : a.size p = none := by rw [h.size p,hb]; rfl
    rw [hsize]
    simp only [Option.getD_none,mark_zero,ite_self]
    exact h
  | some b =>
    have hsize : a.size p = some b.size := by rw [h.size p,hb]; rfl
    have hp := ptr_of_btLookup hb
    have h0 : p ≠ 0 := by
      rintro rfl
      rw [h.null] at hb
      cases hb
    simp only [h0,if_false,hsize,Option.getD_some,hp]
    apply h.assign hb (by exact hp) (by rfl) (by rfl)
    · intro x hx
      exact mark_of_not_mem hx
    · refine ⟨?_,fun _ hne => absurd rfl hne⟩
      symm
      apply (countP_range_eq_self _).2
      intro o ho
      have hin : p ≤ b.ptr + o ∧ b.ptr + o < p + b.size := by
        simp only [Block.fullInit] at ho
        omega
      simp [mark,Block.fullInit,hin]

theorem Agrees.btFind {s : Store} {a : Memory} (h : Agrees s a) {p q : ℕ} {b : Block} (hb : btLookup s q = some b)
    (hq : q ≤ p) (hp : p < q + b.size) : btFind s p = some b := by
  have hbq := ptr_of_btLookup hb
  have hmem := mem_of_btLookup hb
  have hcon : b.contains p = true := by
    have hlt : p - b.ptr < b.size := by omega
    have hle : b.ptr ≤ p := by omega
    simp [Block.contains,hlt,hle]
  cases hf : Bittree.btFind s p with
  | none =>
    have hnone := List.find?_eq_none.1 hf b hmem
    exact absurd hcon hnone
  | some c =>
    have hc : c.contains p = true := by
      have hsome := List.find?_some hf
      exact hsome
    have hlc := h.keyed c (List.mem_of_find?_eq_some hf)
    by_cases hne : c.ptr = q
    · rw [hne,hb] at hlc
      rw [hlc]
    · have hsep := h.separate _ _ _ _ hne hlc hb
      simp only [Block.contains,Bool.and_eq_true,Bool.or_eq_true,decide_eq_true_iff] at hc
      unfold Separate at hsep
      omega

theorem contains_of_btFind {s : Store} {p : ℕ} {b : Block} (h : btFind s p = some b) :
    b.ptr ≤ p ∧ p ≤ b.ptr + b.size := by
  have hc : b.contains p = true := by
    have hsome := List.find?_some h
    exact hsome
  simp only [Block.contains,Bool.and_eq_true,Bool.or_eq_true,decide_eq_true_iff] at hc
  omega

theorem Agrees.inside {s : Store} {a : Memory} (h : Agrees s a) {p n : ℕ} (hin : a.Inside p n) :
    ∃ q b, btLookup s q = some b ∧ q ≤ p ∧ p + n ≤ q + b.size := by
  obtain ⟨q,k,hk,hq,hp⟩ := hin
  rw [h.size q] at hk
  obtain ⟨b,hb,rfl⟩ := Option.map_eq_some_iff.1 hk
  exact ⟨q,b,hb,hq,hp⟩

theorem Agrees.initializeBytes {s : Store} {a : Memory} (h : Agrees s a) (fresh : Bytes) {p n : ℕ}
    (hin : a.Inside p n) :
    ∃ s', initializeBytes s fresh p n = some s' ∧ Agrees s' { a with init := mark a.init p n } := by
  obtain ⟨q,b,hb,hq,hp⟩ := h.inside hin
  have h0 : p ≠ 0 := by
    intro e
    have hq0 : q = 0 := by omega
    rw [hq0,h.null] at hb
    cases hb
  rw [Bittree.initializeBytes,if_neg h0]
  -- an empty range may start at the end of the block, in the next one
  have hfind : ∀ c, Bittree.btFind s p = some c → c.ptr ≤ p ∧ p + n ≤ c.ptr + c.size := by
    intro c hc
    by_cases hn : n = 0
    · have := contains_of_btFind hc
      omega
    · rw [h.btFind hb hq (by omega)] at hc
      obtain rfl := Option.some.inj hc
      rw [ptr_of_btLookup hb]
      exact ⟨hq,hp⟩
  cases hc : Bittree.btFind s p with
  | none =>
    have hn : n = 0 := by
      by_contra hne
      rw [h.btFind hb hq (by omega)] at hc
      cases hc
    rw [hn,mark_zero]
    exact ⟨s,rfl,h⟩
  | some c =>
    obtain ⟨hcp,hcn⟩ := hfind c hc
    have hlc := h.keyed c (List.mem_of_find?_eq_some hc)
    obtain ⟨c',hc',hptr,hsize,ht⟩ := (h.tracks _ _ hlc).initializeBytes fresh hcp hcn
    refine ⟨_,congrArg (Option.map _) hc',?_⟩
    apply h.assign hlc hptr hsize (by rfl) _ (by exact ht)
    intro x hx
    have hno : ¬(p ≤ x ∧ x < p + n) := by
      rw [hsize] at hx
      omega
    exact mark_of_not_mem hno

theorem Agrees.exact {s : Store} {a : Memory} (h : Agrees s a) : Exact s a := by
  constructor
  · intro p b hb
    have ht := (h.tracks p b hb).count
    rw [ptr_of_btLookup hb] at ht
    rw [h.size p,hb]
    exact ⟨rfl,ht⟩
  · intro p n hn
    rw [h.size p] at hn
    obtain ⟨b,hb,_⟩ := Option.map_eq_some_iff.1 hn
    exact ⟨b,hb⟩
  · intro p n hpos hin
    obtain ⟨q,b,hb,hq,hp⟩ := h.inside hin
    rw [Bittree.initialized,h.btFind hb hq (by omega)]
    have hbq := ptr_of_btLookup hb
    exact (h.tracks q b hb).initialized (by omega) (by omega) hpos

theorem Agrees.move {s : Store} {a : Memory} (h : Agrees s a) {p res : ℕ} {b b' : Block} (hb : btLookup s p = some b)
    (h0 : res ≠ 0) (hptr : b'.ptr = res) (hfresh : (a.untrack p).Fresh res b'.size)
    (ht : Tracks (reallocInit a.init p b.size res b'.size) b') :
    Agrees (Bittree.assign (if b.ptr ≠ res then btInsert { b with ptr := res } (btRemove b s) else s) res b')
      (a.move p b.size res b'.size) := by
  have hp := ptr_of_btLookup hb
  have hinit : ∀ x, ¬(res ≤ x ∧ x < res + b'.size) → reallocInit a.init p b.size res b'.size x = a.init x :=
    fun x hx => if_neg hx
  have hsep : ∀ q c, q ≠ p → btLookup s q = some c → Separate res b'.size q c.size := by
    intro q c hq hc
    apply hfresh
    simp only [Memory.untrack,Function.update_of_ne hq,h.size q,hc,Option.map_some]
  by_cases hmove : b.ptr = res
  · have hpr : p = res := hp.symm.trans hmove
    subst hpr
    simp only [hmove,ne_eq,not_true_eq_false,if_false]
    apply h.put h0 hptr (btLookup_assign hptr hb) (fun d hd => mem_assign hd) hsep _ hinit ht
    simp only [Memory.move,Function.update_idem]
  · have herase : Agrees (btRemove b s) (a.untrack p) := hp ▸ h.erase
    have hpr : p ≠ res := fun e => hmove (hp.trans e)
    have hl := btLookup_btInsert { b with ptr := res } (btRemove b s)
    have hlr : btLookup (btInsert { b with ptr := res } (btRemove b s)) res = some { b with ptr := res } := by
      rw [hl,Function.update_self]
    simp only [hmove,ne_eq,not_false_eq_true,if_true]
    have hremoved (q : ℕ) (c : Block) (hc : btLookup (btRemove b s) q = some c) : q ≠ p ∧ btLookup s q = some c := by
      rw [btLookup_btRemove,hp,Function.update_apply] at hc
      split at hc
      · cases hc
      · exact ⟨by assumption,hc⟩
    apply herase.put h0 hptr _ _ (fun q c _ hc => hsep q c (hremoved q c hc).1 (hremoved q c hc).2) rfl hinit ht
    · rw [btLookup_assign hptr hlr,hl,Function.update_idem]
    · intro c hc
      rcases mem_assign hc with rfl | ⟨hc,hne⟩
      · exact Or.inl rfl
      · rcases List.mem_cons.1 hc with rfl | hc
        · exact absurd rfl hne
        · exact Or.inr ⟨hc,hne⟩

theorem Agrees.realloc {s : Store} {a : Memory} (h : Agrees s a) (fresh : Bytes) {p n res : ℕ}
    (hv : Valid a (.realloc fresh p n res)) :
    ∃ s', realloc s fresh p n res = some s' ∧
      (Safe a (.realloc fresh p n res) → Agrees s' (specStep a (.realloc fresh p n res))) ∧
      (¬Safe a (.realloc fresh p n res) → ¬Exact s' (specStep a (.realloc fresh p n res))) := by
  obtain ⟨_,htracked,hfresh⟩ := hv
  simp only [Safe,specStep,Bittree.realloc]
  by_cases hp : p = 0
  · subst hp
    refine ⟨_,if_pos rfl,fun _ => ?_,fun hs => absurd (fun hne => absurd rfl hne) hs⟩
    unfold Bittree.malloc
    simp only [if_true]
    by_cases hn : n = 0
    · rw [if_pos hn,if_pos hn]
      exact h
    · rw [if_neg hn,if_neg hn]
      apply h.storeFreeableBlock
      intro hr q k hk
      apply hfresh hr q k
      have hq : q ≠ 0 := by
        rintro rfl
        rw [h.size 0,h.null] at hk
        cases hk
      simp only [Memory.untrack,Function.update_of_ne hq,hk]
  · obtain ⟨k,hk⟩ := htracked hp
    have hk' := hk
    rw [h.size p] at hk'
    obtain ⟨b,hb,rfl⟩ := Option.map_eq_some_iff.1 hk'
    simp only [hp,if_false,hb,hk,Option.getD_some,ne_eq,not_false_eq_true,forall_true_left]
    by_cases hn : n = 0
    · simp only [hn,if_true,not_true_eq_false,false_implies,forall_true_left]
      obtain ⟨s',hs',ha⟩ := h.free htracked
      exact ⟨s',hs',ha,trivial⟩
    · by_cases hr : res = 0
      · simp only [hn,hr,if_false,if_true,not_true_eq_false,false_implies,implies_true,forall_true_left]
        exact ⟨s,rfl,h,trivial⟩
      · simp only [hn,hr,if_false,not_false_eq_true,forall_true_left]
        obtain ⟨b',hb',hptr,hsize,hgood,hbad⟩ := (h.tracks p b hb).resize fresh res n
        have hbp := ptr_of_btLookup hb
        rw [hbp] at hgood hbad
        refine ⟨_,congrArg (Option.map _) hb',?_,?_⟩
        · intro htail
          have ht := hgood htail
          rw [← hsize] at ht ⊢
          exact h.move hb hr hptr (hsize ▸ hfresh hr) ht
        · intro htail hexact
          apply hbad htail
          have hl : btLookup (Bittree.assign (if b.ptr ≠ res then btInsert { b with ptr := res } (btRemove b s)
              else s) res b') res = some b' := by
            by_cases hmove : b.ptr = res
            · have hb'' : btLookup s res = some b := by rw [← hmove,hbp,hb]
              rw [if_neg (not_not.2 hmove),btLookup_assign hptr hb'',Function.update_self]
            · have hlr : btLookup (btInsert { b with ptr := res } (btRemove b s)) res = some { b with ptr := res } := by
                rw [btLookup_btInsert,Function.update_self]
              rw [if_pos hmove,btLookup_assign hptr hlr,Function.update_self]
          have hcount := (hexact.counts res b' hl).2
          rw [hsize] at hcount
          exact hcount

theorem Agrees.step {s : Store} {a : Memory} (h : Agrees s a) {op : Op} (hv : Valid a op) :
    ∃ s', step s op = some s' ∧ (Safe a op → Agrees s' (specStep a op)) ∧ (¬Safe a op → ¬Exact s' (specStep a op)) := by
  cases op with
  | storeBlock ptr size => exact ⟨_,rfl,fun _ => h.storeBlock hv.2,fun hs => absurd trivial hs⟩
  | malloc size res =>
    refine ⟨_,rfl,fun _ => ?_,fun hs => absurd trivial hs⟩
    simp only [specStep,Bittree.malloc]
    by_cases hn : size = 0
    · rw [if_pos hn,if_pos hn]
      exact h
    · rw [if_neg hn,if_neg hn]
      exact h.storeFreeableBlock hv.2 false
  | calloc nbrBlock sizeBlock res =>
    refine ⟨_,rfl,fun _ => ?_,fun hs => absurd trivial hs⟩
    simp only [specStep,Bittree.calloc]
    by_cases hn : nbrBlock * sizeBlock = 0
    · rw [if_pos hn,if_pos hn]
      exact h
    · rw [if_neg hn,if_neg hn]
      exact h.storeFreeableBlock hv.2 true
  | initializeBytes fresh ptr size =>
    obtain ⟨s',hs',ha⟩ := h.initializeBytes fresh hv
    exact ⟨s',hs',fun _ => ha,fun hs => absurd trivial hs⟩
  | fullInit ptr => exact ⟨_,rfl,fun _ => h.fullInit ptr,fun hs => absurd trivial hs⟩
  | realloc fresh ptr size res => exact h.realloc fresh hv
  | deleteBlock ptr => exact ⟨_,rfl,fun _ => h.deleteBlock ptr,fun hs => absurd trivial hs⟩
  | free ptr =>
    obtain ⟨s',hs',ha⟩ := h.free hv
    exact ⟨s',hs',fun _ => ha,fun hs => absurd trivial hs⟩

theorem agrees_empty : Agrees [] Memory.empty :=
  ⟨fun _ hb => (List.not_mem_nil hb).elim,fun _ => rfl,rfl,fun _ _ _ _ _ h => (nomatch h),fun _ _ h => (nomatch h)⟩

theorem exact_along_iff {s : Store} {a : Memory} (h : Agrees s a) (ops : List Op) (hv : Along specStep Valid a ops) :
    (∀ before, before <+: ops → ∃ s', run s before = some s' ∧ Exact s' (specRun a before)) ↔ Along specStep Safe a ops := by
  induction ops generalizing s a with
  | nil =>
    refine ⟨fun _ => trivial,?_⟩
    intro _ before hpre
    obtain rfl := List.prefix_nil.1 hpre
    exact ⟨s,rfl,h.exact⟩
  | cons op ops ih =>
    obtain ⟨hop,hops⟩ := hv
    obtain ⟨s₁,hs₁,hgood,hbad⟩ := h.step hop
    have hrun (before : List Op) : run s (op :: before) = run s₁ before := by
      simp only [run,hs₁,Option.bind_some]
    constructor
    · intro hall
      have hsafe : Safe a op := by
        by_contra hs
        obtain ⟨s',hs',hexact⟩ := hall [op] ⟨ops,rfl⟩
        rw [hrun] at hs'
        obtain rfl := Option.some.inj hs'
        exact hbad hs hexact
      refine ⟨hsafe,(ih (hgood hsafe) hops).1 ?_⟩
      intro before hpre
      have hcons := hall (op :: before) ((List.prefix_cons_inj op).2 hpre)
      rwa [hrun] at hcons
    · rintro ⟨hsafe,hrest⟩ before hpre
      cases before with
      | nil => exact ⟨s,rfl,h.exact⟩
      | cons op' before =>
        obtain ⟨rfl,htail⟩ := List.cons_prefix_cons.1 hpre
        rw [hrun]
        exact (ih (hgood hsafe) hops).2 hrest before htail

/-- The counters and the answers of `initialized` after every prefix of a run from the empty store. -/
theorem initialized_exact_iff (ops : List Op) (hv : Along specStep Valid Memory.empty ops) :
    (∀ before, before <+: ops → ∃ s, run [] before = some s ∧ Exact s (specRun Memory.empty before)) ↔
      Along specStep Safe Memory.empty ops :=
  exact_along_iff agrees_empty ops hv

/-- Sixteen bytes at 32, of which the first eight and the tenth are written, cut to nine bytes. -/
def cutRun : List Op :=
  [.malloc 16 32,.initializeBytes (fun _ => 0) 32 8,.initializeBytes (fun _ => 0) 41 1,.realloc (fun _ => 0) 32 9 32]

theorem cutRun_valid : Along specStep Valid Memory.empty cutRun := by
  refine ⟨⟨by decide,fun _ q k hk => (nomatch hk)⟩,⟨32,16,rfl,by decide,by decide⟩,⟨32,16,rfl,by decide,by decide⟩,
    ⟨by decide,fun _ => ⟨16,rfl⟩,?_⟩,trivial⟩
  intro _ q k hk
  simp [specStep,trackBlock,Memory.track,Memory.untrack,Memory.empty,Function.update_idem] at hk

/-- The run leaves the ninth byte uninitialized, and `initialized` says that it is. -/
theorem cutRun_not_exact : Along specStep Valid Memory.empty cutRun ∧
    ¬∃ s, run [] cutRun = some s ∧ Exact s (specRun Memory.empty cutRun) := by
  refine ⟨cutRun_valid,?_⟩
  rintro ⟨s,hs,hexact⟩
  have hin : (specRun Memory.empty cutRun).Inside 40 1 := ⟨32,9,rfl,by decide,by decide⟩
  have hinit := hexact.initialized 40 1 (by decide) hin
  have hspec : ¬∀ i < 1, (specRun Memory.empty cutRun).init (40 + i) = true := by
    intro hall
    have hbyte := hall 0 (by decide)
    have hclear : (specRun Memory.empty cutRun).init 40 = false := by decide
    rw [hclear] at hbyte
    cases hbyte
  have hcode : (run [] cutRun).bind (fun s => initialized s 40 1) = some true := by decide
  rw [hs] at hcode
  rw [decide_eq_false hspec] at hinit
  rw [Option.bind_some,hinit] at hcode
  cases hcode

theorem initialized_exact_malloc : Along specStep Valid Memory.empty [Op.malloc 16 32] ∧
    ((∀ before, before <+: [Op.malloc 16 32] → ∃ s, run [] before = some s ∧ Exact s (specRun Memory.empty before)) ↔
      Along specStep Safe Memory.empty [Op.malloc 16 32]) := by
  have hv : Along specStep Valid Memory.empty [Op.malloc 16 32] := ⟨⟨by decide,fun _ q k hk => (nomatch hk)⟩,trivial⟩
  exact ⟨hv,initialized_exact_iff _ hv⟩

end FramaC.EAcsl.Bittree
