import FramaC.EAcsl.Segment.Heap

/-! # Runs over heap blocks

The bits of the init shadow are the initialization status of the bytes of the live blocks in every run whose
reallocations meet two conditions on the shadow they find; a query is then right when it starts at a byte of the shadow,
or lies in one byte whose other bits are clear, or is to be answered negatively.
-/
namespace FramaC.EAcsl.Segment

variable (L : HeapLayout)

/-- An unaligned query is about one shadow byte, and no other bit of this byte is set. -/
def AloneInByte (m : Bytes) (addr len : ℕ) : Prop :=
  (addr - L.heapStart) % 8 ≠ 0 → (addr - L.heapStart) % 8 + len ≤ 8 ∧
    ∀ x, L.heapStart ≤ x → (x - L.heapStart) / 8 = (addr - L.heapStart) / 8 → ¬(addr ≤ x ∧ x < addr + len) →
      initBit L m x = false

theorem getLsbD_mask_byte {set skip k : ℕ} (hk : k < 8) :
    ((setbits64Skip set 0 skip).setWidth 8).getLsbD k = decide (skip ≤ k ∧ k < skip + set) := by
  have h := @getLsbD_setbits64Skip_byte 0 set skip k hk
  simpa using h

theorem heapInitialized_iff (m : Bytes) {addr len : ℕ} (ha : L.heapStart ≤ addr) (hl : 1 ≤ len) :
    heapInitialized L m addr len = true ↔ (∀ i < len, initBit L m (addr + i) = true) ∧ AloneInByte L m addr len := by
  have hsh : 8 * heapInitShadow L addr + (addr - L.heapStart) % 8 = 8 * L.initShadow + (addr - L.heapStart) := by
    unfold heapInitShadow
    omega
  have hdiv : heapInitShadow L addr = L.initShadow + (addr - L.heapStart) / 8 := rfl
  unfold heapInitialized AloneInByte initBit
  generalize heapInitShadow L addr = shadow at hsh hdiv
  by_cases hs : (addr - L.heapStart) % 8 = 0
  · have hpos : len > 0 := by omega
    simp only [hs,ne_eq,not_true_eq_false,if_false,hpos,if_true,false_implies,and_true]
    rw [checkbits_iff]
    apply forall₂_congr
    intro i _
    have hidx : 8 * L.initShadow + (addr + i - L.heapStart) = 8 * shadow + i := by omega
    rw [hidx]
  · simp only [ne_eq,hs,not_false_eq_true,if_true,forall_true_left]
    by_cases hlong : len > 8 - (addr - L.heapStart) % 8
    · -- the rest of a longer range is looked for from the first bit of the same byte on, which is not in the mask
      have hno : ¬(addr - L.heapStart) % 8 + len ≤ 8 := by omega
      have hrest : len - (8 - (addr - L.heapStart) % 8) > 0 := by omega
      simp only [hlong,if_true,hrest,hno,false_and,and_false,iff_false]
      intro htrue
      by_cases hb : m shadow = (setbits64Skip (8 - (addr - L.heapStart) % 8) 0 ((addr - L.heapStart) % 8)).setWidth 8
      · simp only [hb,not_true_eq_false,if_false] at htrue
        rw [checkbits_iff] at htrue
        have hbit := htrue 0 hrest
        have hd : (8 * shadow + 0) / 8 = shadow := by omega
        have hm : (8 * shadow + 0) % 8 = 0 := by omega
        rw [bitAt,hd,hm,hb,getLsbD_mask_byte (by omega)] at hbit
        have := of_decide_eq_true hbit
        omega
      · simp only [hb,not_false_eq_true,if_true] at htrue
        cases htrue
    · have hshort : (addr - L.heapStart) % 8 + len ≤ 8 := by omega
      have hzero : ¬len - len > 0 := by omega
      simp only [hlong,if_false,hzero,hshort,true_and]
      have hbits : m shadow = (setbits64Skip len 0 ((addr - L.heapStart) % 8)).setWidth 8 ↔
          ∀ k < 8, (m shadow).getLsbD k = decide ((addr - L.heapStart) % 8 ≤ k ∧ k < (addr - L.heapStart) % 8 + len) := by
        constructor
        · intro h k hk
          rw [h]
          exact getLsbD_mask_byte hk
        · intro h
          apply BitVec.eq_of_getLsbD_eq
          intro k hk
          rw [h k hk,getLsbD_mask_byte hk]
      have hdecide : ((if ¬m shadow = (setbits64Skip len 0 ((addr - L.heapStart) % 8)).setWidth 8 then false
          else true) = true) ↔ m shadow = (setbits64Skip len 0 ((addr - L.heapStart) % 8)).setWidth 8 := by
        by_cases h : m shadow = (setbits64Skip len 0 ((addr - L.heapStart) % 8)).setWidth 8
        · rw [if_neg (not_not.2 h)]
          exact ⟨fun _ => h,fun _ => rfl⟩
        · rw [if_pos h]
          exact ⟨fun e => absurd e Bool.false_ne_true,fun e => absurd e h⟩
      rw [hdecide,hbits]
      constructor
      · intro h
        constructor
        · intro i hi
          have hd : (8 * L.initShadow + (addr + i - L.heapStart)) / 8 = shadow := by omega
          rw [bitAt,hd,h _ (Nat.mod_lt _ (by omega)),decide_eq_true_iff]
          omega
        · intro x hx hgroup hout
          have hd : (8 * L.initShadow + (x - L.heapStart)) / 8 = shadow := by omega
          rw [bitAt,hd,h _ (Nat.mod_lt _ (by omega)),decide_eq_false_iff_not]
          omega
      · rintro ⟨hset,hclear⟩ k hk
        by_cases hin : (addr - L.heapStart) % 8 ≤ k ∧ k < (addr - L.heapStart) % 8 + len
        · have hbit := hset (k - (addr - L.heapStart) % 8) (by omega)
          have hd : (8 * L.initShadow + (addr + (k - (addr - L.heapStart) % 8) - L.heapStart)) / 8 = shadow := by omega
          have hm : (8 * L.initShadow + (addr + (k - (addr - L.heapStart) % 8) - L.heapStart)) % 8 = k := by omega
          rw [bitAt,hd,hm] at hbit
          rw [hbit,decide_eq_true hin]
        · have hbit := hclear (addr - (addr - L.heapStart) % 8 + k) (by omega) (by omega) (by omega)
          have hd : (8 * L.initShadow + (addr - (addr - L.heapStart) % 8 + k - L.heapStart)) / 8 = shadow := by omega
          have hm : (8 * L.initShadow + (addr - (addr - L.heapStart) % 8 + k - L.heapStart)) % 8 = k := by omega
          rw [bitAt,hd,hm] at hbit
          rw [hbit,decide_eq_false hin]

theorem allocSize_spec {n : ℕ} (h : n < maxAllocated) : allocSize n % 32 = 0 ∧ n ≤ allocSize n ∧ allocSize n < n + 32 := by
  simp only [allocSize,h,if_true,alignRight,heapSegment]
  by_cases hm : n % 32 = 0
  · simp only [hm,ne_eq,not_true_eq_false,if_false]
    omega
  · simp only [ne_eq,hm,not_false_eq_true,if_true]
    omega

theorem allocSize_le {n k : ℕ} (hk : k < maxAllocated) (h : n ≤ k) : allocSize n ≤ allocSize k := by
  have hn : n < maxAllocated := lt_of_le_of_lt h hk
  have := allocSize_spec hn
  have := allocSize_spec hk
  omega

def AtByte (p : ℕ) : Prop := L.heapStart ≤ p ∧ (p - L.heapStart) % 8 = 0

variable {L}

theorem AtByte.shadow {p : ℕ} (h : AtByte L p) : 8 * heapInitShadow L p = 8 * L.initShadow + (p - L.heapStart) := by
  unfold AtByte at h
  unfold heapInitShadow
  omega

theorem initBit_memsetAt {p : ℕ} (h : AtByte L p) (m : Bytes) {v : BitVec 8} {c : Bool}
    (hv : ∀ k < 8, v.getLsbD k = c) (n : ℕ) {x : ℕ} (hx : L.heapStart ≤ x) :
    initBit L (memsetAt m (heapInitShadow L p) v n) x = if p ≤ x ∧ x < p + 8 * n then c else initBit L m x := by
  have hsh := h.shadow
  have hp := h.1
  unfold initBit bitAt memsetAt
  generalize heapInitShadow L p = shadow at hsh
  have hiff : (shadow ≤ (8 * L.initShadow + (x - L.heapStart)) / 8 ∧
      (8 * L.initShadow + (x - L.heapStart)) / 8 < shadow + n) ↔ (p ≤ x ∧ x < p + 8 * n) := by omega
  simp only [hiff]
  split
  · exact hv _ (Nat.mod_lt _ (by omega))
  · rfl

theorem initBit_memcpyAt {p q : ℕ} (h : AtByte L p) (h' : AtByte L q) (m : Bytes) (n : ℕ) {x : ℕ} (hx : L.heapStart ≤ x) :
    initBit L (memcpyAt m (heapInitShadow L p) (heapInitShadow L q) n) x =
      if p ≤ x ∧ x < p + 8 * n then initBit L m (q + (x - p)) else initBit L m x := by
  have hsh := h.shadow
  have hsh' := h'.shadow
  have hp := h.1
  have hq := h'.1
  unfold initBit bitAt memcpyAt
  generalize heapInitShadow L p = shadow at hsh
  generalize heapInitShadow L q = shadow' at hsh'
  have hiff : (shadow ≤ (8 * L.initShadow + (x - L.heapStart)) / 8 ∧
      (8 * L.initShadow + (x - L.heapStart)) / 8 < shadow + n) ↔ (p ≤ x ∧ x < p + 8 * n) := by omega
  simp only [hiff]
  split
  · have hd : shadow' + ((8 * L.initShadow + (x - L.heapStart)) / 8 - shadow) =
        (8 * L.initShadow + (q + (x - p) - L.heapStart)) / 8 := by omega
    have hm : (8 * L.initShadow + (x - L.heapStart)) % 8 = (8 * L.initShadow + (q + (x - p) - L.heapStart)) % 8 := by omega
    rw [hd,hm]
  · rfl

theorem initBit_clearbitsRight {p : ℕ} (h : AtByte L p) (m : Bytes) {n size : ℕ} (hn : n % 8 = 0) (hs : size ≤ n) {x : ℕ}
    (hx : L.heapStart ≤ x) : initBit L (clearbitsRight (n - size) m (heapInitShadow L p + n / 8)) x =
      (initBit L m x && !decide (p + size ≤ x ∧ x < p + n)) := by
  have hsh := h.shadow
  have hp := h.1
  have hroom := L.room
  unfold initBit
  generalize heapInitShadow L p = shadow at hsh
  rw [bitAt_clearbitsRight _ _ _ _ (by omega)]
  congr 3
  apply propext
  omega

/-- A block of the heap that does not touch the live ones. -/
structure NewBlock (L : HeapLayout) (a : Memory) (p n : ℕ) : Prop where
  inHeap : L.heapStart ≤ p
  aligned : p % heapSegment = 0
  size : n < maxAllocated
  apart : ∀ q k, a.size q = some k → p + allocSize n ≤ q ∨ q + allocSize k ≤ p

theorem NewBlock.atByte {a : Memory} {p n : ℕ} (h : NewBlock L a p n) : AtByte L p := by
  have h₁ := h.inHeap
  have h₂ := h.aligned
  have h₃ := L.aligned
  unfold heapSegment at h₂
  unfold AtByte
  omega

structure HeapAgrees (L : HeapLayout) (h : Heap) (a : Memory) : Prop where
  length : h.length = a.size
  block : ∀ b n, a.size b = some n → b ≠ 0 ∧ AtByte L b ∧ 1 ≤ n ∧ n < maxAllocated
  separate : ∀ p q n k, p ≠ q → a.size p = some n → a.size q = some k → p + allocSize n ≤ q ∨ q + allocSize k ≤ p
  bits : ∀ b n, a.size b = some n → ∀ i < n, initBit L h.init (b + i) = a.init (b + i)
  outside : ∀ x, L.heapStart ≤ x → (∀ b n, a.size b = some n → ¬(b ≤ x ∧ x < b + allocSize n)) →
    initBit L h.init x = false

theorem update_size_cases {f : ℕ → Option ℕ} {p q k : ℕ} {o : Option ℕ} (h : Function.update f p o q = some k) :
    q = p ∧ o = some k ∨ q ≠ p ∧ f q = some k := by
  rw [Function.update_apply] at h
  by_cases hq : q = p
  · rw [if_pos hq] at h
    exact Or.inl ⟨hq,h⟩
  · rw [if_neg hq] at h
    exact Or.inr ⟨hq,h⟩

theorem HeapAgrees.put {h h' : Heap} {a a' : Memory} {p n : ℕ} (hh : HeapAgrees L h a) (h0 : p ≠ 0) (hn : 1 ≤ n)
    (hb : NewBlock L a p n) (hlen : h'.length = Function.update h.length p (some n))
    (hsize : a'.size = Function.update a.size p (some n))
    (hinit : ∀ x, ¬(p ≤ x ∧ x < p + n) → a'.init x = a.init x)
    (hkeep : ∀ x, L.heapStart ≤ x → ¬(p ≤ x ∧ x < p + allocSize n) → initBit L h'.init x = initBit L h.init x)
    (hnew : ∀ i < n, initBit L h'.init (p + i) = a'.init (p + i)) : HeapAgrees L h' a' := by
  have halloc := (allocSize_spec hb.size).2.1
  have hcases (q k : ℕ) (hq : a'.size q = some k) : q = p ∧ k = n ∨ q ≠ p ∧ a.size q = some k := by
    rw [hsize] at hq
    rcases update_size_cases hq with ⟨hq,hk⟩ | hq
    · exact Or.inl ⟨hq,(Option.some.inj hk).symm⟩
    · exact Or.inr hq
  constructor
  · rw [hlen,hsize,hh.length]
  · intro b k hbk
    rcases hcases b k hbk with ⟨rfl,rfl⟩ | ⟨_,hbk⟩
    · exact ⟨h0,hb.atByte,hn,hb.size⟩
    · exact hh.block b k hbk
  · intro q r k l hqr hq hr
    rcases hcases q k hq with ⟨rfl,rfl⟩ | ⟨_,hq'⟩
    · rcases hcases r l hr with ⟨rfl,_⟩ | ⟨_,hr'⟩
      · exact absurd rfl hqr
      · exact hb.apart r l hr'
    · rcases hcases r l hr with ⟨rfl,rfl⟩ | ⟨_,hr'⟩
      · exact (hb.apart q k hq').symm
      · exact hh.separate q r k l hqr hq' hr'
  · intro b k hbk i hi
    rcases hcases b k hbk with ⟨rfl,rfl⟩ | ⟨_,hbk⟩
    · exact hnew i hi
    · obtain ⟨_,hat,_,hk⟩ := hh.block b k hbk
      have hapart := hb.apart b k hbk
      have hkalloc := (allocSize_spec hk).2.1
      have hb' := hat.1
      rw [hkeep (b + i) (by omega) (by omega),hinit (b + i) (by omega)]
      exact hh.bits b k hbk i hi
  · intro x hx hout
    have hp : a'.size p = some n := by rw [hsize,Function.update_self]
    rw [hkeep x hx (hout p n hp)]
    apply hh.outside x hx
    intro b k hbk hin
    by_cases hbp : b = p
    · subst hbp
      have hapart := hb.apart b k hbk
      have hk := (hh.block b k hbk).2.2
      have hkalloc := (allocSize_spec hk.2).2.1
      omega
    · apply hout b k _ hin
      rw [hsize,Function.update_of_ne hbp,hbk]

theorem HeapAgrees.unset {h : Heap} {a : Memory} (hh : HeapAgrees L h a) {p n : ℕ} (hp : a.size p = some n) :
    HeapAgrees L (unsetHeapSegment L h p true) (a.untrack p) ∧ ∀ x, L.heapStart ≤ x →
      initBit L (unsetHeapSegment L h p true).init x = if p ≤ x ∧ x < p + allocSize n then false else initBit L h.init x := by
  obtain ⟨_,hat,_,hn⟩ := hh.block p n hp
  have hspec := allocSize_spec hn
  have hbit : ∀ x, L.heapStart ≤ x →
      initBit L (unsetHeapSegment L h p true).init x = if p ≤ x ∧ x < p + allocSize n then false else initBit L h.init x := by
    intro x hx
    have h8 : 8 * (allocSize n / 8) = allocSize n := by omega
    have hset := initBit_memsetAt hat h.init (fun k _ => BitVec.getLsbD_zero) (allocSize n / 8) hx
    rw [h8] at hset
    simp only [unsetHeapSegment,hh.length,hp,Option.getD_some,if_true]
    exact hset
  have hcases (q k : ℕ) (hq : (a.untrack p).size q = some k) : q ≠ p ∧ a.size q = some k := by
    rcases update_size_cases hq with ⟨_,hno⟩ | hq
    · cases hno
    · exact hq
  refine ⟨⟨?_,?_,?_,?_,?_⟩,hbit⟩
  · simp only [unsetHeapSegment,Memory.untrack,hh.length]
  · intro b k hb
    exact hh.block b k (hcases b k hb).2
  · intro q r k l hqr hq hr
    exact hh.separate q r k l hqr (hcases q k hq).2 (hcases r l hr).2
  · intro b k hb i hi
    obtain ⟨hbp,hb'⟩ := hcases b k hb
    have hsep := hh.separate b p k n hbp hb' hp
    obtain ⟨_,hbat,_,hk⟩ := hh.block b k hb'
    have hkalloc := (allocSize_spec hk).2.1
    have hle := hbat.1
    rw [hbit (b + i) (by omega),if_neg (by omega)]
    exact hh.bits b k hb' i hi
  · intro x hx hout
    rw [hbit x hx]
    split
    · rfl
    · apply hh.outside x hx
      intro b k hb
      by_cases hbp : b = p
      · subst hbp
        rw [hp] at hb
        obtain rfl := Option.some.inj hb
        assumption
      · apply hout b k
        simp only [Memory.untrack,Function.update_of_ne hbp,hb]

inductive HeapOp where
  | malloc (size res : ℕ)
  | calloc (nmemb size res : ℕ)
  | free (ptr : ℕ)
  | realloc (ptr size res : ℕ)
  | initializeHeapRegion (addr len : ℕ)

variable (L)

def heapStep (h : Heap) : HeapOp → Option Heap
  | .malloc size res => some (malloc L h size res)
  | .calloc nmemb size res => some (calloc L h nmemb size res)
  | .free ptr => free L h ptr
  | .realloc ptr size res => realloc L h ptr size res
  | .initializeHeapRegion addr len => some { h with init := initializeHeapRegion L h.init addr len }

def heapRun (h : Heap) : List HeapOp → Option Heap
  | [] => some h
  | op :: ops => (heapStep L h op).bind fun h' => heapRun h' ops

variable {L}

/-- The number of bytes that `calloc` asks for, zero when the product overflows. -/
def callocBytes (nmemb size : ℕ) : ℕ := if size ≠ 0 ∧ nmemb > (2 ^ 64 - 1) / size then 0 else nmemb * size

def mallocSpec (a : Memory) (size res : ℕ) : Memory := if allocSize size = 0 ∨ res = 0 then a else a.track res size false

def heapSpec (a : Memory) : HeapOp → Memory
  | .malloc size res => mallocSpec a size res
  | .calloc nmemb size res =>
    if callocBytes nmemb size = 0 ∨ res = 0 then a else a.track res (callocBytes nmemb size) true
  | .free ptr => a.untrack ptr
  | .realloc ptr size res =>
    if ptr = 0 then mallocSpec a size res
    else if size = 0 then a.untrack ptr
    else if res = 0 then a
    else a.move ptr ((a.size ptr).getD 0) res size
  | .initializeHeapRegion addr len => { a with init := mark a.init addr len }

variable (L)

/-- The allocator returns `NULL` or a block of the heap apart from the live ones, `free` and `realloc` get a live block or
`NULL`, and regions lie in a live block. -/
def HeapValid (a : Memory) : HeapOp → Prop
  | .malloc size res => res ≠ 0 → allocSize size ≠ 0 → NewBlock L a res size
  | .calloc nmemb size res => res ≠ 0 → callocBytes nmemb size ≠ 0 → NewBlock L a res (callocBytes nmemb size)
  | .free ptr => ptr ≠ 0 → ∃ n, a.size ptr = some n
  | .realloc ptr size res =>
    (ptr = 0 → res ≠ 0 → allocSize size ≠ 0 → NewBlock L a res size) ∧
      (ptr ≠ 0 → (∃ n, a.size ptr = some n) ∧ (res ≠ 0 → size ≠ 0 → NewBlock L (a.untrack ptr) res size))
  | .initializeHeapRegion addr len => a.Inside addr len

/-- The number of shadow bytes that a moving `realloc` copies, one for each heap byte. -/
def copySize (old size : ℕ) : ℕ := if old > size then allocSize size else allocSize old

/-- What a `realloc` that succeeds needs from the shadow: the bits between the old size and the new one are clear up to
the end of the old allocation, and a move finds no bit set in what it copies beyond the block. -/
def ReallocSafe (m : Bytes) (ptr old size res : ℕ) : Prop :=
  (∀ x, ptr + old ≤ x → x < ptr + min size (allocSize old) → initBit L m x = false) ∧
  (res ≠ ptr →
    (ptr + 8 * copySize old size ≤ res ∨ res + 8 * copySize old size ≤ ptr) ∧
    ∀ i, copySize old size ≤ i → i < 8 * copySize old size →
      initBit L m (ptr + i) = false ∧ initBit L m (res + i) = false)

def HeapSafe (h : Heap) : HeapOp → Prop
  | .realloc ptr size res =>
    ptr ≠ 0 → size ≠ 0 → res ≠ 0 → ∀ old, h.length ptr = some old → ReallocSafe L h.init ptr old size res
  | _ => True

def HeapSafeRun (h : Heap) : List HeapOp → Prop
  | [] => True
  | op :: ops => HeapSafe L h op ∧ ∀ h', heapStep L h op = some h' → HeapSafeRun h' ops

/-- The bits of the live bytes are their status; a query is answered right exactly when it is alone in its byte or some
byte of it is not initialized. -/
structure HeapExact (h : Heap) (a : Memory) : Prop where
  length : h.length = a.size
  status : ∀ b n, a.size b = some n → ∀ i < n, initBit L h.init (b + i) = a.init (b + i)
  query : ∀ addr len, 1 ≤ len → a.Inside addr len →
    ((heapInitialized L h.init addr len = true ↔ ∀ i < len, a.init (addr + i) = true) ↔
      AloneInByte L h.init addr len ∨ ∃ i < len, a.init (addr + i) = false)

variable {L}

theorem HeapAgrees.exact {h : Heap} {a : Memory} (hh : HeapAgrees L h a) : HeapExact L h a := by
  refine ⟨hh.length,hh.bits,?_⟩
  rintro addr len hl ⟨b,n,hb,hba,hlen⟩
  have hat := (hh.block b n hb).2.1.1
  rw [heapInitialized_iff L h.init (by omega) hl]
  have hbits : (∀ i < len, initBit L h.init (addr + i) = true) ↔ ∀ i < len, a.init (addr + i) = true := by
    apply forall₂_congr
    intro i hi
    have hbit := hh.bits b n hb (addr - b + i) (by omega)
    have haddr : b + (addr - b + i) = addr + i := by omega
    rw [haddr] at hbit
    rw [hbit]
  rw [hbits]
  have hex : (∃ i < len, a.init (addr + i) = false) ↔ ¬∀ i < len, a.init (addr + i) = true := by
    simp
  rw [hex]
  generalize (∀ i < len, a.init (addr + i) = true) = all
  tauto

theorem allocSize_eq_zero {n : ℕ} (hn : n < maxAllocated) : allocSize n = 0 ↔ n = 0 := by
  have := allocSize_spec hn
  omega

theorem HeapAgrees.bit_new {h : Heap} {a : Memory} (hh : HeapAgrees L h a) {p n x : ℕ} (hb : NewBlock L a p n)
    (hx : p ≤ x) (hx' : x < p + allocSize n) : initBit L h.init x = false := by
  apply hh.outside x (le_trans hb.inHeap hx)
  intro q k hq hin
  have hapart := hb.apart q k hq
  omega

theorem HeapAgrees.malloc {h : Heap} {a : Memory} (hh : HeapAgrees L h a) {size res : ℕ}
    (hv : res ≠ 0 → allocSize size ≠ 0 → NewBlock L a res size) :
    HeapAgrees L (malloc L h size res) (mallocSpec a size res) := by
  unfold Segment.malloc mallocSpec
  by_cases h0 : allocSize size = 0 ∨ res = 0
  · rw [if_pos h0,if_pos h0]
    exact hh
  · rw [if_neg h0,if_neg h0]
    obtain ⟨hsize,hres⟩ := not_or.1 h0
    have hb := hv hres hsize
    have halloc := (allocSize_spec hb.size).2.1
    have hpos : 1 ≤ size := by
      have := mt (allocSize_eq_zero hb.size).2 hsize
      omega
    apply hh.put hres hpos hb rfl rfl
    · intro x hx
      exact if_neg hx
    · intro x _ _
      rfl
    · intro i hi
      have hin : res ≤ res + i ∧ res + i < res + size := by omega
      have hnew : (a.track res size false).init (res + i) = false := if_pos hin
      rw [hnew]
      exact hh.bit_new hb (by omega) (by omega)

theorem HeapAgrees.calloc {h : Heap} {a : Memory} (hh : HeapAgrees L h a) {nmemb size res : ℕ}
    (hv : res ≠ 0 → callocBytes nmemb size ≠ 0 → NewBlock L a res (callocBytes nmemb size)) :
    HeapAgrees L (calloc L h nmemb size res) (heapSpec a (.calloc nmemb size res)) := by
  have hcode : Segment.calloc L h nmemb size res = if callocBytes nmemb size = 0 ∨ res = 0 then h
      else setHeapSegment L h res (callocBytes nmemb size) (allocSize (callocBytes nmemb size)) true := rfl
  rw [hcode,heapSpec]
  generalize callocBytes nmemb size = n at hv
  by_cases h0 : n = 0 ∨ res = 0
  · rw [if_pos h0,if_pos h0]
    exact hh
  · rw [if_neg h0,if_neg h0]
    obtain ⟨hn,hres⟩ := not_or.1 h0
    have hb := hv hres hn
    have halloc := allocSize_spec hb.size
    have h8 : 8 * (allocSize n / 8) = allocSize n := by omega
    have hones : ∀ k < 8, (255 : BitVec 8).getLsbD k = true := by decide
    have hset (x : ℕ) (hx : L.heapStart ≤ x) :
        initBit L (setHeapSegment L h res n (allocSize n) true).init x =
          if res ≤ x ∧ x < res + allocSize n then true else initBit L h.init x := by
      have hmem := initBit_memsetAt hb.atByte h.init hones (allocSize n / 8) hx
      rw [h8] at hmem
      exact hmem
    apply hh.put hres (Nat.pos_of_ne_zero hn) hb rfl rfl
    · intro x hx
      exact if_neg hx
    · intro x hx hout
      rw [hset x hx,if_neg hout]
    · intro i hi
      have hin : res ≤ res + i ∧ res + i < res + n := by omega
      have hall : res ≤ res + i ∧ res + i < res + allocSize n := by omega
      have hnew : (a.track res n true).init (res + i) = true := if_pos hin
      have hle := hb.inHeap
      rw [hnew,hset _ (by omega),if_pos hall]

theorem HeapAgrees.untrack_null {h : Heap} {a : Memory} (hh : HeapAgrees L h a) : a.untrack 0 = a := by
  have hnone : a.size 0 = none := by
    cases hs : a.size 0 with
    | none => rfl
    | some n => exact absurd rfl (hh.block 0 n hs).1
  have hsize : Function.update a.size 0 none = a.size := Function.update_eq_self_iff.2 hnone.symm
  rw [Memory.untrack,hsize]

theorem HeapAgrees.free {h : Heap} {a : Memory} (hh : HeapAgrees L h a) {ptr : ℕ}
    (hv : ptr ≠ 0 → ∃ n, a.size ptr = some n) : ∃ h', free L h ptr = some h' ∧ HeapAgrees L h' (a.untrack ptr) := by
  unfold Segment.free
  by_cases h0 : ptr = 0
  · subst h0
    rw [hh.untrack_null]
    exact ⟨h,if_pos rfl,hh⟩
  · obtain ⟨n,hn⟩ := hv h0
    have hsome : (h.length ptr).isSome = true := by
      rw [hh.length,hn]
      rfl
    exact ⟨_,(if_neg h0).trans (if_pos hsome),(hh.unset hn).1⟩

theorem HeapAgrees.initializeHeapRegion {h : Heap} {a : Memory} (hh : HeapAgrees L h a) {addr len : ℕ}
    (hin : a.Inside addr len) :
    HeapAgrees L { h with init := initializeHeapRegion L h.init addr len } { a with init := mark a.init addr len } := by
  obtain ⟨q,k,hq,hqa,hlen⟩ := hin
  obtain ⟨_,hqat,_,hk⟩ := hh.block q k hq
  have hkalloc := (allocSize_spec hk).2.1
  have hqs := hqat.1
  have hbit (x : ℕ) (hx : L.heapStart ≤ x) : initBit L
      ({ h with init := Segment.initializeHeapRegion L h.init addr len } : Heap).init x =
        (initBit L h.init x || decide (addr ≤ x ∧ x < addr + len)) :=
    initBit_initializeHeapRegion L h.init (by omega) hx
  refine ⟨hh.length,hh.block,hh.separate,?_,?_⟩
  · intro b n hb i hi
    have hbs := (hh.block b n hb).2.1.1
    rw [hbit (b + i) (by omega),hh.bits b n hb i hi]
    rfl
  · intro x hx hout
    have hno : ¬(addr ≤ x ∧ x < addr + len) := by
      have := hout q k hq
      omega
    rw [hbit x hx,hh.outside x hx hout]
    simp [hno]

section Realloc

variable {h : Heap} {a : Memory} {ptr old size res : ℕ}

theorem HeapAgrees.initBit_shrunk (hh : HeapAgrees L h a) (hold : a.size ptr = some old) {x : ℕ}
    (hx : L.heapStart ≤ x) :
    initBit L (if old > size then clearbitsRight (allocSize old - size) h.init (heapInitShadow L ptr + allocSize old / 8)
      else h.init) x = (initBit L h.init x && !decide (old > size ∧ ptr + size ≤ x ∧ x < ptr + allocSize old)) := by
  obtain ⟨_,hat,_,hn⟩ := hh.block ptr old hold
  have halloc := allocSize_spec hn
  by_cases hs : old > size
  · rw [if_pos hs,initBit_clearbitsRight hat _ (by omega) (by omega) hx]
    simp only [hs,true_and]
  · rw [if_neg hs]
    simp only [hs,false_and,decide_false,Bool.not_false,Bool.and_true]

theorem HeapAgrees.bit_grown (hh : HeapAgrees L h a) (hold : a.size ptr = some old)
    (hb : NewBlock L (a.untrack ptr) res size) {x : ℕ} (hx : res ≤ x) (hx' : x < res + allocSize size)
    (hout : ¬(ptr ≤ x ∧ x < ptr + allocSize old)) : initBit L h.init x = false := by
  apply hh.outside x (le_trans hb.inHeap hx)
  intro q k hq hin
  by_cases hqp : q = ptr
  · subst hqp
    rw [hold] at hq
    obtain rfl := Option.some.inj hq
    exact hout hin
  · have hapart := hb.apart q k (by simp only [Memory.untrack,Function.update_of_ne hqp,hq])
    omega

theorem HeapAgrees.bit_extended (hh : HeapAgrees L h a) (hold : a.size ptr = some old)
    (hsafe : ReallocSafe L h.init ptr old size res) {i : ℕ} (hi : i < size) (hia : i < allocSize old) :
    initBit L h.init (ptr + i) = (decide (i < old) && a.init (ptr + i)) := by
  by_cases hlt : i < old
  · rw [hh.bits ptr old hold i hlt]
    simp [hlt]
  · rw [hsafe.1 (ptr + i) (by omega) (by omega)]
    simp [hlt]

theorem initBit_moveInit_inPlace (hh : HeapAgrees L h a) (hold : a.size ptr = some old) (size : ℕ) {x : ℕ}
    (hx : L.heapStart ≤ x) : initBit L (moveInit L h.init ptr old size ptr) x =
      (initBit L h.init x && !decide (old > size ∧ ptr + size ≤ x ∧ x < ptr + allocSize old)) := by
  simp only [moveInit,ne_eq,not_true_eq_false,if_false]
  exact hh.initBit_shrunk hold hx

theorem initBit_moveInit_moved (hh : HeapAgrees L h a) (hold : a.size ptr = some old) (hne : res ≠ ptr) (hat : AtByte L res)
    {x : ℕ} (hx : L.heapStart ≤ x) : initBit L (moveInit L h.init ptr old size res) x =
      if ptr ≤ x ∧ x < ptr + 8 * copySize old size then false
      else if res ≤ x ∧ x < res + 8 * copySize old size then
        initBit L h.init (ptr + (x - res)) &&
          !decide (old > size ∧ ptr + size ≤ ptr + (x - res) ∧ ptr + (x - res) < ptr + allocSize old)
      else initBit L h.init x && !decide (old > size ∧ ptr + size ≤ x ∧ x < ptr + allocSize old) := by
  obtain ⟨_,hptr,_,hn⟩ := hh.block ptr old hold
  have hstart := hptr.1
  simp only [moveInit,ne_eq,hne,not_false_eq_true,if_true]
  have hcopy : (if old > size then allocSize size else allocSize old) = copySize old size := rfl
  have hzero : ∀ k < 8, (0 : BitVec 8).getLsbD k = false := fun _ _ => BitVec.getLsbD_zero
  rw [hcopy,initBit_memsetAt hptr _ hzero _ hx,initBit_memcpyAt hat hptr _ _ hx,
    hh.initBit_shrunk hold (by omega),hh.initBit_shrunk hold hx]

theorem HeapAgrees.move_inPlace (hh : HeapAgrees L h a) (hold : a.size ptr = some old) (hpos : 1 ≤ size)
    (hb : NewBlock L (a.untrack ptr) ptr size) (hsafe : ReallocSafe L h.init ptr old size ptr) :
    HeapAgrees L ⟨Function.update (Function.update h.length ptr none) ptr (some size),moveInit L h.init ptr old size ptr⟩
      (a.move ptr old ptr size) := by
  obtain ⟨h0,hptr,_,hn⟩ := hh.block ptr old hold
  obtain ⟨hunset,hbit⟩ := hh.unset hold
  have halloc := allocSize_spec hb.size
  have holdAlloc := allocSize_spec hn
  have hstart := hptr.1
  apply hunset.put h0 hpos hb rfl rfl
  · intro x hx
    exact if_neg hx
  · intro x hx hout
    rw [hbit x hx,initBit_moveInit_inPlace hh hold size hx]
    by_cases hin : ptr ≤ x ∧ x < ptr + allocSize old
    · have hshrink : old > size := by
        by_contra hle
        have := allocSize_le hb.size (Nat.le_of_not_lt hle)
        omega
      have hclear : old > size ∧ ptr + size ≤ x ∧ x < ptr + allocSize old := by omega
      rw [if_pos hin,decide_eq_true hclear]
      exact Bool.and_false _
    · have hclear : ¬(old > size ∧ ptr + size ≤ x ∧ x < ptr + allocSize old) := by omega
      rw [if_neg hin,decide_eq_false hclear]
      exact Bool.and_true _
  · intro i hi
    have hspec : (a.move ptr old ptr size).init (ptr + i) = (decide (i < old) && a.init (ptr + i)) :=
      reallocInit_add a.init ptr old ptr hi
    have hclear : ¬(old > size ∧ ptr + size ≤ ptr + i ∧ ptr + i < ptr + allocSize old) := by omega
    rw [hspec,initBit_moveInit_inPlace hh hold size (by omega),decide_eq_false hclear]
    simp only [Bool.not_false,Bool.and_true]
    by_cases hia : i < allocSize old
    · exact hh.bit_extended hold hsafe hi hia
    · have hge : ¬i < old := by omega
      rw [hh.bit_grown hold hb (Nat.le_add_right ptr i) (by omega) (by omega)]
      simp [hge]

theorem HeapAgrees.move_moved (hh : HeapAgrees L h a) (hold : a.size ptr = some old) (hpos : 1 ≤ size)
    (hres : res ≠ 0) (hne : res ≠ ptr) (hb : NewBlock L (a.untrack ptr) res size)
    (hsafe : ReallocSafe L h.init ptr old size res) :
    HeapAgrees L ⟨Function.update (Function.update h.length ptr none) res (some size),moveInit L h.init ptr old size res⟩
      (a.move ptr old res size) := by
  obtain ⟨_,hptr,_,hn⟩ := hh.block ptr old hold
  obtain ⟨hunset,hbit⟩ := hh.unset hold
  obtain ⟨hapart,htail⟩ := hsafe.2 hne
  have halloc := allocSize_spec hb.size
  have holdAlloc := allocSize_spec hn
  have hstart := hptr.1
  have hrstart := hb.inHeap
  have hcopy : (old > size ∧ copySize old size = allocSize size ∧ allocSize size ≤ allocSize old) ∨
      (old ≤ size ∧ copySize old size = allocSize old ∧ allocSize old ≤ allocSize size) := by
    by_cases hs : old > size
    · exact Or.inl ⟨hs,if_pos hs,allocSize_le hn (le_of_lt hs)⟩
    · exact Or.inr ⟨Nat.le_of_not_lt hs,if_neg hs,allocSize_le hb.size (Nat.le_of_not_lt hs)⟩
  have hmoved (x : ℕ) := @initBit_moveInit_moved L h a ptr old size res hh hold hne hb.atByte x
  generalize copySize old size = copy at hcopy hapart htail hmoved
  apply hunset.put hres hpos hb rfl rfl
  · intro x hx
    exact if_neg hx
  · intro x hx hout
    rw [hbit x hx,hmoved x hx]
    by_cases hin : ptr ≤ x ∧ x < ptr + allocSize old
    · rw [if_pos hin]
      by_cases hp : ptr ≤ x ∧ x < ptr + 8 * copy
      · rw [if_pos hp]
      · rw [if_neg hp]
        by_cases hr : res ≤ x ∧ x < res + 8 * copy
        · rw [if_pos hr,(htail (x - res) (by omega) (by omega)).1,Bool.false_and]
        · have hclear : old > size ∧ ptr + size ≤ x ∧ x < ptr + allocSize old := by omega
          rw [if_neg hr,decide_eq_true hclear]
          exact Bool.and_false _
    · rw [if_neg hin]
      by_cases hp : ptr ≤ x ∧ x < ptr + 8 * copy
      · have hclear := (htail (x - ptr) (by omega) (by omega)).1
        rw [Nat.add_sub_cancel' hp.1] at hclear
        rw [if_pos hp,hclear]
      · rw [if_neg hp]
        by_cases hr : res ≤ x ∧ x < res + 8 * copy
        · obtain ⟨hsrc,hdst⟩ := htail (x - res) (by omega) (by omega)
          rw [Nat.add_sub_cancel' hr.1] at hdst
          rw [if_pos hr,hsrc,hdst,Bool.false_and]
        · have hclear : ¬(old > size ∧ ptr + size ≤ x ∧ x < ptr + allocSize old) := by omega
          rw [if_neg hr,decide_eq_false hclear]
          exact Bool.and_true _
  · intro i hi
    have hspec : (a.move ptr old res size).init (res + i) = (decide (i < old) && a.init (ptr + i)) :=
      reallocInit_add a.init ptr old res hi
    rw [hspec,hmoved (res + i) (by omega),Nat.add_sub_cancel_left]
    by_cases hi8 : i < 8 * copy
    · have hp : ¬(ptr ≤ res + i ∧ res + i < ptr + 8 * copy) := by omega
      have hr : res ≤ res + i ∧ res + i < res + 8 * copy := by omega
      have hclear : ¬(old > size ∧ ptr + size ≤ ptr + i ∧ ptr + i < ptr + allocSize old) := by omega
      rw [if_neg hp,if_pos hr,decide_eq_false hclear]
      simp only [Bool.not_false,Bool.and_true]
      by_cases hic : i < copy
      · exact hh.bit_extended hold hsafe hi (by omega)
      · have hge : ¬i < old := by omega
        rw [(htail i (by omega) hi8).1]
        simp [hge]
    · have hge : ¬i < old := by omega
      have hfalse : (decide (i < old) && a.init (ptr + i)) = false := by simp [hge]
      rw [hfalse]
      by_cases hp : ptr ≤ res + i ∧ res + i < ptr + 8 * copy
      · rw [if_pos hp]
      · have hr : ¬(res ≤ res + i ∧ res + i < res + 8 * copy) := by omega
        rw [if_neg hp,if_neg hr,hh.bit_grown hold hb (Nat.le_add_right res i) (by omega) (by omega),Bool.false_and]

end Realloc

theorem HeapAgrees.realloc {h : Heap} {a : Memory} (hh : HeapAgrees L h a) {ptr size res : ℕ}
    (hv : HeapValid L a (.realloc ptr size res)) (hsafe : HeapSafe L h (.realloc ptr size res)) :
    ∃ h', realloc L h ptr size res = some h' ∧ HeapAgrees L h' (heapSpec a (.realloc ptr size res)) := by
  simp only [Segment.realloc,heapSpec]
  by_cases hp : ptr = 0
  · subst hp
    refine ⟨_,if_pos rfl,?_⟩
    rw [if_pos rfl]
    exact hh.malloc (hv.1 rfl)
  · obtain ⟨hlive,hblock⟩ := hv.2 hp
    simp only [hp,if_false]
    by_cases hs : size = 0
    · simp only [hs,if_true]
      exact hh.free fun _ => hlive
    · simp only [hs,if_false]
      obtain ⟨old,hold⟩ := hlive
      have hlen : h.length ptr = some old := by rw [hh.length,hold]
      simp only [hlen,hold,Option.getD_some]
      by_cases hr : res = 0
      · simp only [hr,if_true]
        exact ⟨h,rfl,hh⟩
      · simp only [hr,if_false]
        refine ⟨_,rfl,?_⟩
        have hb := hblock hr hs
        have hok := hsafe hp hs hr old hlen
        have hpos : 1 ≤ size := Nat.pos_of_ne_zero hs
        by_cases hmove : res = ptr
        · subst hmove
          exact hh.move_inPlace hold hpos hb hok
        · exact hh.move_moved hold hpos hr hmove hb hok

theorem HeapAgrees.step {h : Heap} {a : Memory} (hh : HeapAgrees L h a) {op : HeapOp} (hv : HeapValid L a op)
    (hsafe : HeapSafe L h op) : ∃ h', heapStep L h op = some h' ∧ HeapAgrees L h' (heapSpec a op) := by
  cases op with
  | malloc size res => exact ⟨_,rfl,hh.malloc hv⟩
  | calloc nmemb size res => exact ⟨_,rfl,hh.calloc hv⟩
  | free ptr => exact hh.free hv
  | realloc ptr size res => exact hh.realloc hv hsafe
  | initializeHeapRegion addr len => exact ⟨_,rfl,hh.initializeHeapRegion hv⟩

theorem HeapAgrees.run {h : Heap} {a : Memory} (hh : HeapAgrees L h a) (ops : List HeapOp)
    (hv : Along heapSpec (HeapValid L) a ops) (hsafe : HeapSafeRun L h ops) :
    ∃ h', heapRun L h ops = some h' ∧ HeapAgrees L h' (ops.foldl heapSpec a) := by
  induction ops generalizing h a with
  | nil => exact ⟨h,rfl,hh⟩
  | cons op ops ih =>
    obtain ⟨h₁,hstep,hagree⟩ := hh.step hv.1 hsafe.1
    obtain ⟨h',hrun,hfinal⟩ := ih hagree hv.2 (hsafe.2 h₁ hstep)
    refine ⟨h',?_,hfinal⟩
    rw [heapRun,hstep]
    exact hrun

theorem heapAgrees_zero : HeapAgrees L Heap.zero Memory.empty :=
  ⟨rfl,fun _ _ h => (nomatch h),fun _ _ _ _ _ h => (nomatch h),fun _ _ h => (nomatch h),
    fun _ _ _ => BitVec.getLsbD_zero⟩

variable (L)

/-- Every safe run of calls the environment can make ends in a heap whose init shadow is exact; the runs are closed
under prefixes, so this is every state reached. -/
theorem heap_initialized_exact (ops : List HeapOp) (hv : Along heapSpec (HeapValid L) Memory.empty ops)
    (hsafe : HeapSafeRun L Heap.zero ops) :
    ∃ h, heapRun L Heap.zero ops = some h ∧ HeapExact L h (ops.foldl heapSpec Memory.empty) := by
  obtain ⟨h,hrun,hagree⟩ := heapAgrees_zero.run ops hv hsafe
  exact ⟨h,hrun,hagree.exact⟩

def HeapAnswers (h : Heap) (a : Memory) : Prop :=
  ∀ addr len, 1 ≤ len → a.Inside addr len →
    (heapInitialized L h.init addr len = true ↔ ∀ i < len, a.init (addr + i) = true)

def smallLayout : HeapLayout := ⟨1024,64,rfl,by decide⟩

/-- Sixteen bytes are written and all but the first four are asked for. -/
def unalignedRun : List HeapOp := [.malloc 16 1024,.initializeHeapRegion 1024 16]

def movingRun : List HeapOp := [.malloc 32 1024,.calloc 1 32 1056,.realloc 1024 64 4096]

theorem newBlock_empty (a : Memory) (ha : ∀ q, a.size q = none) {p n : ℕ} (hp : 1024 ≤ p) (hal : p % heapSegment = 0)
    (hn : n < maxAllocated) : NewBlock smallLayout a p n := by
  refine ⟨hp,hal,hn,?_⟩
  intro q k hq
  rw [ha q] at hq
  cases hq

theorem unalignedRun_valid : Along heapSpec (HeapValid smallLayout) Memory.empty unalignedRun :=
  ⟨fun _ _ => newBlock_empty _ (fun _ => rfl) (by decide) (by decide) (by decide),
    ⟨1024,16,by decide,by decide,by decide⟩,trivial⟩

theorem movingRun_valid : Along heapSpec (HeapValid smallLayout) Memory.empty movingRun := by
  refine ⟨fun _ _ => newBlock_empty _ (fun _ => rfl) (by decide) (by decide) (by decide),?_,
    ⟨fun h => absurd h (by decide),fun _ => ⟨⟨32,by decide⟩,?_⟩⟩,trivial⟩
  · intro _ _
    refine ⟨by decide,by decide,by decide,?_⟩
    intro q k hq
    rcases update_size_cases hq with ⟨rfl,hk⟩ | ⟨_,hq⟩
    · obtain rfl := Option.some.inj hk
      decide
    · cases hq
  · intro _ _
    refine ⟨by decide,by decide,by decide,?_⟩
    intro q k hq
    rcases update_size_cases hq with ⟨_,hk⟩ | ⟨hne,hq⟩
    · cases hk
    · rcases update_size_cases hq with ⟨rfl,hk⟩ | ⟨_,hq⟩
      · obtain rfl := Option.some.inj hk
        decide
      · rcases update_size_cases hq with ⟨rfl,_⟩ | ⟨_,hq⟩
        · exact absurd rfl hne
        · cases hq

theorem heapAnswers_fails {ops : List HeapOp} {addr len : ℕ} (hl : 1 ≤ len)
    (hin : (ops.foldl heapSpec Memory.empty).Inside addr len)
    (hspec : ∀ i < len, (ops.foldl heapSpec Memory.empty).init (addr + i) = true)
    (hcode : (heapRun smallLayout Heap.zero ops).bind
      (fun h => some (heapInitialized smallLayout h.init addr len)) = some false) :
    ¬∃ h, heapRun smallLayout Heap.zero ops = some h ∧
      HeapAnswers smallLayout h (ops.foldl heapSpec Memory.empty) := by
  rintro ⟨h,hrun,hanswers⟩
  rw [hrun,Option.bind_some] at hcode
  have htrue := (hanswers addr len hl hin).2 hspec
  rw [htrue] at hcode
  cases hcode

/-- A query that starts inside a shadow byte and goes beyond it is always refused, and a moving `realloc` clears the
bits of the block that follows. -/
theorem heap_initialized_not_exact :
    (Along heapSpec (HeapValid smallLayout) Memory.empty unalignedRun ∧
      ¬∃ h, heapRun smallLayout Heap.zero unalignedRun = some h ∧
        HeapAnswers smallLayout h (unalignedRun.foldl heapSpec Memory.empty)) ∧
    (Along heapSpec (HeapValid smallLayout) Memory.empty movingRun ∧
      ¬∃ h, heapRun smallLayout Heap.zero movingRun = some h ∧
        HeapAnswers smallLayout h (movingRun.foldl heapSpec Memory.empty)) := by
  refine ⟨⟨unalignedRun_valid,?_⟩,movingRun_valid,?_⟩
  · apply heapAnswers_fails (show 1 ≤ 12 by decide) (show Memory.Inside _ 1028 12 from ⟨1024,16,by decide,by decide,by decide⟩)
    · intro i hi
      interval_cases i <;> decide
    · decide
  · apply heapAnswers_fails (show 1 ≤ 8 by decide) (show Memory.Inside _ 1056 8 from ⟨1056,32,by decide,by decide,by decide⟩)
    · intro i hi
      interval_cases i <;> decide
    · decide

/-- Nine bytes are written, and the block is then cut in place. -/
theorem heap_initialized_exact_cut :
    ∃ h, heapRun smallLayout Heap.zero [.malloc 16 1024,.initializeHeapRegion 1024 9,.realloc 1024 12 1024] = some h ∧
      HeapExact smallLayout h ([.malloc 16 1024,.initializeHeapRegion 1024 9,
        .realloc 1024 12 1024].foldl heapSpec Memory.empty) := by
  apply heap_initialized_exact smallLayout
  · refine ⟨fun _ _ => newBlock_empty _ (fun _ => rfl) (by decide) (by decide) (by decide),
      ⟨1024,16,by decide,by decide,by decide⟩,⟨fun h => absurd h (by decide),fun _ => ⟨⟨16,by decide⟩,?_⟩⟩,trivial⟩
    intro _ _
    apply newBlock_empty _ _ (by decide) (by decide) (by decide)
    intro q
    simp [heapSpec,mallocSpec,Memory.track,Memory.untrack,Memory.empty,allocSize,alignRight,maxAllocated,heapSegment]
  · refine ⟨trivial,?_⟩
    rintro _ ⟨rfl⟩
    refine ⟨trivial,?_⟩
    rintro _ ⟨rfl⟩
    refine ⟨?_,fun _ _ => trivial⟩
    intro _ _ _ old hold
    have h16 : some 16 = some old := by
      rw [← hold]
      decide
    obtain rfl := Option.some.inj h16
    refine ⟨?_,fun hne => absurd rfl hne⟩
    intro x hx hx'
    omega

end FramaC.EAcsl.Segment
