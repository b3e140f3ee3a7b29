import FramaC.EAcsl.Segment.HeapRuns

/-! # Runs over the block shadow

In every run whose reallocations do not ask for more than can be aligned, each segment of a live block has its base address and
the other segments have none. The queries then answer as the blocks are, except for sizes that overflow and for empty ranges at
the end of a block that fills its segments.
-/
namespace FramaC.EAcsl.Segment.Blocks

variable {L : HeapSpace} {w : Words}

abbrev Live := ℕ → Option ℕ

def Live.empty : Live := fun _ => none

def InBlock (b n x : ℕ) : Prop := b ≤ x ∧ x < b + allocSize n

instance (b n x : ℕ) : Decidable (InBlock b n x) := inferInstanceAs (Decidable (_ ∧ _))

def mallocLive (a : Live) (size res : ℕ) : Live := if allocSize size = 0 ∨ res = 0 then a else Function.update a res (some size)

def stepLive (a : Live) : Op → Live
  | .malloc size res => mallocLive a size res
  | .calloc nmemb size res =>
    if callocBytes nmemb size = 0 ∨ res = 0 then a else Function.update a res (some (callocBytes nmemb size))
  | .free ptr => Function.update a ptr none
  | .realloc ptr size res =>
    if ptr = 0 then mallocLive a size res
    else if size = 0 then Function.update a ptr none
    else if res = 0 then a
    else Function.update (Function.update a ptr none) res (some size)

variable (L) in
/-- A region of the heap that does not touch the live blocks. -/
structure NewRegion (a : Live) (p n : ℕ) : Prop where
  inHeap : L.heapStart ≤ p
  below : p + allocSize n ≤ L.heapEnd
  aligned : p % heapSegment = 0
  apart : ∀ q k, a q = some k → p + allocSize n ≤ q ∨ q + allocSize k ≤ p

variable (L) in
def Promised (a : Live) : Op → Prop
  | .malloc size res => allocSize size ≠ 0 → res ≠ 0 → NewRegion L a res size
  | .calloc nmemb size res => callocBytes nmemb size ≠ 0 → res ≠ 0 → NewRegion L a res (callocBytes nmemb size)
  | .free _ => True
  | .realloc ptr size res =>
    (ptr = 0 → allocSize size ≠ 0 → res ≠ 0 → NewRegion L a res size) ∧
      (ptr ≠ 0 → size ≠ 0 → res ≠ 0 → NewRegion L (Function.update a ptr none) res size)

def Alignable : Op → Prop
  | .realloc ptr size res => ptr ≠ 0 → res ≠ 0 → size < maxAllocated
  | _ => True

variable (L) in
structure Agrees (w : Words) (a : Live) : Prop where
  block : ∀ b n, a b = some n → b ≠ 0 ∧ L.heapStart ≤ b ∧ b % heapSegment = 0 ∧ 1 ≤ n ∧ n < maxAllocated ∧
    b + allocSize n < L.heapEnd
  separate : ∀ p q n k, p ≠ q → a p = some n → a q = some k → p + allocSize n ≤ q ∨ q + allocSize k ≤ p
  base : ∀ b n, a b = some n → ∀ x, x % heapSegment = 0 → InBlock b n x → w (heapShadow L x) = b
  length : ∀ b n, a b = some n → w (heapShadow L b + 8) = n
  outside : ∀ x, L.heapStart ≤ x → x % heapSegment = 0 → (∀ b n, a b = some n → ¬ InBlock b n x) → w (heapShadow L x) = 0

theorem writeBase_eq (w : Words) (shadow ptr n x : ℕ) :
    writeBase w shadow ptr n x = if ∃ i < n, x = shadow + i * heapSegment then ptr else w x := by
  induction n with
  | zero => simp [writeBase]
  | succ n ih =>
    rw [writeBase,Function.update_apply,ih]
    by_cases hx : x = shadow + n * heapSegment
    · rw [if_pos hx,if_pos ⟨n,by omega,hx⟩]
    · rw [if_neg hx]
      congr 1
      apply propext
      constructor
      · rintro ⟨i,hi,heq⟩
        exact ⟨i,by omega,heq⟩
      · rintro ⟨i,hi,heq⟩
        refine ⟨i,?_,heq⟩
        by_contra hn
        obtain rfl : i = n := by omega
        exact hx heq

def putBlock (L : HeapSpace) (w : Words) (p n : ℕ) : Words :=
  writeBase (Function.update w (heapShadow L p + 8) n) (heapShadow L p) p (allocSize n / heapSegment)

theorem setHeapSegment_eq {p n : ℕ} {w' : Words} :
    setHeapSegment L w p n (allocSize n) = some w' ↔ p + allocSize n < L.heapEnd ∧ w' = putBlock L w p n := by
  unfold setHeapSegment putBlock
  by_cases h : L.heapEnd > p + allocSize n
  · simp [h,eq_comm]
  · simp [h]

theorem putBlock_base {p n x : ℕ} (hp : L.heapStart ≤ p) (hal : p % heapSegment = 0) (hn : n < maxAllocated)
    (hx : L.heapStart ≤ x) (hxal : x % heapSegment = 0) :
    (InBlock p n x → putBlock L w p n (heapShadow L x) = p) ∧
      (¬ InBlock p n x → putBlock L w p n (heapShadow L x) = w (heapShadow L x)) := by
  obtain ⟨hmod,_,_⟩ := allocSize_spec hn
  have hne : heapShadow L x ≠ heapShadow L p + 8 := by
    unfold heapShadow heapSegment at *
    omega
  have hiff : (∃ i < allocSize n / heapSegment, heapShadow L x = heapShadow L p + i * heapSegment) ↔ InBlock p n x := by
    unfold heapShadow heapSegment InBlock at *
    constructor
    · rintro ⟨i,hi,heq⟩
      omega
    · rintro ⟨hle,hlt⟩
      exact ⟨(x - p) / 32,by omega,by omega⟩
  rw [putBlock,writeBase_eq]
  refine ⟨fun h => if_pos (hiff.mpr h),fun h => ?_⟩
  rw [if_neg (hiff.not.mpr h),Function.update_of_ne hne]

theorem putBlock_length {p n b : ℕ} (hp : L.heapStart ≤ p) (hal : p % heapSegment = 0) (hb : L.heapStart ≤ b)
    (hbal : b % heapSegment = 0) :
    putBlock L w p n (heapShadow L b + 8) = if b = p then n else w (heapShadow L b + 8) := by
  have hno : ¬ ∃ i < allocSize n / heapSegment, heapShadow L b + 8 = heapShadow L p + i * heapSegment := by
    rintro ⟨i,_,heq⟩
    unfold heapShadow heapSegment at *
    omega
  rw [putBlock,writeBase_eq,if_neg hno,Function.update_apply]
  congr 1
  apply propext
  unfold heapShadow
  omega

theorem update_cases {a : Live} {p q k : ℕ} {o : Option ℕ} (h : Function.update a p o q = some k) :
    q = p ∧ o = some k ∨ q ≠ p ∧ a q = some k :=
  update_size_cases h

theorem Agrees.put {a : Live} (h : Agrees L w a) {p n : ℕ} (h0 : p ≠ 0) (hn1 : 1 ≤ n) (hn : n < maxAllocated)
    (hnew : NewRegion L a p n) (hbelow : p + allocSize n < L.heapEnd) :
    Agrees L (putBlock L w p n) (Function.update a p (some n)) where
  block b k hb := by
    rcases update_cases hb with ⟨rfl,hk⟩ | ⟨_,hb⟩
    · obtain rfl := Option.some.inj hk
      exact ⟨h0,hnew.inHeap,hnew.aligned,hn1,hn,hbelow⟩
    · exact h.block b k hb
  separate q r k m hqr hq hr := by
    rcases update_cases hq with ⟨rfl,hk⟩ | ⟨_,hq'⟩ <;> rcases update_cases hr with ⟨rfl,hm⟩ | ⟨_,hr'⟩
    · exact absurd rfl hqr
    · obtain rfl := Option.some.inj hk
      exact hnew.apart r m hr'
    · obtain rfl := Option.some.inj hm
      exact (hnew.apart q k hq').symm
    · exact h.separate q r k m hqr hq' hr'
  base b k hb x hxal hx := by
    rcases update_cases hb with ⟨rfl,hk⟩ | ⟨_,hb⟩
    · obtain rfl := Option.some.inj hk
      exact (putBlock_base hnew.inHeap hnew.aligned hn (hnew.inHeap.trans hx.1) hxal).1 hx
    · have hstart := (h.block b k hb).2.1.trans hx.1
      have hout : ¬ InBlock p n x := by
        have := hnew.apart b k hb
        unfold InBlock at *
        omega
      rw [(putBlock_base hnew.inHeap hnew.aligned hn hstart hxal).2 hout]
      exact h.base b k hb x hxal hx
  length b k hb := by
    rcases update_cases hb with ⟨rfl,hk⟩ | ⟨hbp,hb⟩
    · obtain rfl := Option.some.inj hk
      rw [putBlock_length hnew.inHeap hnew.aligned hnew.inHeap hnew.aligned,if_pos rfl]
    · obtain ⟨_,hstart,hal,_⟩ := h.block b k hb
      rw [putBlock_length hnew.inHeap hnew.aligned hstart hal,if_neg hbp]
      exact h.length b k hb
  outside x hx hxal hout := by
    have hp : ¬ InBlock p n x := hout p n (Function.update_self ..)
    rw [(putBlock_base hnew.inHeap hnew.aligned hn hx hxal).2 hp]
    refine h.outside x hx hxal fun b k hb => ?_
    by_cases hbp : b = p
    · subst hbp
      intro hin
      have hself := hnew.apart b k hb
      have := allocSize_spec hn
      have := allocSize_spec (h.block b k hb).2.2.2.2.1
      have := (h.block b k hb).2.2.2.1
      unfold InBlock at *
      omega
    · exact hout b k (by rw [Function.update_of_ne hbp,hb])

theorem Agrees.unset {a : Live} (h : Agrees L w a) {p n : ℕ} (hp : a p = some n) :
    Agrees L (unsetHeapSegment L w p) (Function.update a p none) := by
  obtain ⟨_,hpstart,hpal,hn1,hn,_⟩ := h.block p n hp
  obtain ⟨hmod,hle,_⟩ := allocSize_spec hn
  have hin : ∀ x k, L.heapStart ≤ x → k < heapSegment → x % heapSegment = 0 →
      (heapShadow L p ≤ heapShadow L x + k ∧ heapShadow L x + k < heapShadow L p + allocSize n ↔ InBlock p n x) := by
    intro x k hx hk hxal
    unfold heapShadow heapSegment InBlock at *
    omega
  have hkeep : ∀ b m, a b = some m → b ≠ p → ∀ x, InBlock b m x → ¬ InBlock p n x := by
    intro b m hb hbp x hx hxp
    have := h.separate b p m n hbp hb hp
    unfold InBlock at *
    omega
  have hvalue : ∀ x k, L.heapStart ≤ x → k < heapSegment → x % heapSegment = 0 →
      unsetHeapSegment L w p (heapShadow L x + k) = if InBlock p n x then 0 else w (heapShadow L x + k) := by
    intro x k hx hk hxal
    simp only [unsetHeapSegment,memset,h.length p n hp,hin x k hx hk hxal]
  refine ⟨?_,?_,?_,?_,?_⟩
  · intro b m hb
    rcases update_cases hb with ⟨_,hno⟩ | ⟨_,hb⟩
    · cases hno
    · exact h.block b m hb
  · intro q r k m hqr hq hr
    rcases update_cases hq with ⟨_,hno⟩ | ⟨_,hq⟩
    · cases hno
    rcases update_cases hr with ⟨_,hno⟩ | ⟨_,hr⟩
    · cases hno
    exact h.separate q r k m hqr hq hr
  · intro b m hb x hxal hx
    rcases update_cases hb with ⟨_,hno⟩ | ⟨hbp,hb⟩
    · cases hno
    have hstart := (h.block b m hb).2.1.trans hx.1
    have hval := hvalue x 0 hstart (by decide) hxal
    rw [add_zero,if_neg (hkeep b m hb hbp x hx)] at hval
    rw [hval]
    exact h.base b m hb x hxal hx
  · intro b m hb
    rcases update_cases hb with ⟨_,hno⟩ | ⟨hbp,hb⟩
    · cases hno
    obtain ⟨_,hstart,hal,hm1,hm,_⟩ := h.block b m hb
    have hself : InBlock b m b := ⟨le_rfl,by have := allocSize_spec hm; omega⟩
    rw [hvalue b 8 hstart (by decide) hal,if_neg (hkeep b m hb hbp b hself)]
    exact h.length b m hb
  · intro x hx hxal hout
    have hval := hvalue x 0 hx (by decide) hxal
    rw [add_zero] at hval
    rw [hval]
    split
    · rfl
    · next hxp =>
      refine h.outside x hx hxal fun b m hb => ?_
      by_cases hbp : b = p
      · subst hbp
        obtain rfl := Option.some.inj (hp.symm.trans hb)
        exact hxp
      · exact hout b m (by rw [Function.update_of_ne hbp,hb])

theorem Agrees.unique {a : Live} (h : Agrees L w a) {b n b' n' x : ℕ} (hb : a b = some n) (hb' : a b' = some n')
    (hx : InBlock b n x) (hx' : InBlock b' n' x) : b = b' := by
  by_contra hne
  have := h.separate b b' n n' hne hb hb'
  unfold InBlock at *
  omega

theorem Agrees.alignLeft {a : Live} (h : Agrees L w a) {b n x : ℕ} (hb : a b = some n) :
    InBlock b n (x - x % heapSegment) ↔ InBlock b n x := by
  obtain ⟨_,_,hal,_,hn,_⟩ := h.block b n hb
  obtain ⟨hmod,_,_⟩ := allocSize_spec hn
  unfold InBlock heapSegment at *
  omega

theorem Agrees.segment {a : Live} (h : Agrees L w a) {x : ℕ} (hx : L.heapStart ≤ x) :
    (∀ b n, a b = some n → InBlock b n x → w (heapShadow L (x - x % heapSegment)) = b) ∧
      ((∀ b n, a b = some n → ¬ InBlock b n x) → w (heapShadow L (x - x % heapSegment)) = 0) := by
  have hstart := L.segments
  constructor
  · intro b n hb hin
    exact h.base b n hb _ (by unfold heapSegment; omega) ((h.alignLeft hb).mpr hin)
  · intro hout
    refine h.outside _ (by unfold heapSegment at *; omega) (by unfold heapSegment; omega) fun b n hb => ?_
    rw [h.alignLeft hb]
    exact hout b n hb

/-- The address and the other address are in one block, and the range is in its length. -/
def AllocatedIn (a : Live) (addr size basePtr : ℕ) : Prop :=
  ∃ b n, a b = some n ∧ b ≤ addr ∧ addr - b + size ≤ n ∧ InBlock b n basePtr

def WrapsInto (a : Live) (addr size basePtr : ℕ) : Prop :=
  ∃ b n, a b = some n ∧ InBlock b n addr ∧ InBlock b n basePtr ∧ 2 ^ 64 ≤ addr - b + size ∧ addr - b + size - 2 ^ 64 ≤ n

def EmptyAtEnd (a : Live) (addr size basePtr : ℕ) : Prop :=
  size = 0 ∧ ∃ b n, a b = some n ∧ addr = b + n ∧ n % heapSegment = 0 ∧ InBlock b n basePtr

theorem onHeap {x : ℕ} (h : isOnHeap L x) : L.heapStart ≤ x ∧ x < 2 ^ 64 := by
  have h' := of_decide_eq_true h
  exact ⟨h'.1,h'.2.trans_lt L.fits⟩

theorem Agrees.heapAllocated_inBlock {a : Live} (h : Agrees L w a) {addr size basePtr b n : ℕ} (ha : isOnHeap L addr)
    (hp : isOnHeap L basePtr) (hb : a b = some n) (hin : InBlock b n addr) :
    heapAllocated L w addr size basePtr = true ↔ InBlock b n basePtr ∧ (addr - b + size) % 2 ^ 64 ≤ n := by
  have hw := (h.segment (onHeap ha).1).1 b n hb hin
  have h0 : b ≠ 0 := (h.block b n hb).1
  have hbase : w (heapShadow L (basePtr - basePtr % heapSegment)) = b ↔ InBlock b n basePtr := by
    constructor
    · intro heq
      by_cases hsome : ∃ b' n', a b' = some n' ∧ InBlock b' n' basePtr
      · obtain ⟨b',n',hb',hin'⟩ := hsome
        obtain rfl : b' = b := ((h.segment (onHeap hp).1).1 b' n' hb' hin').symm.trans heq
        obtain rfl := Option.some.inj (hb.symm.trans hb')
        exact hin'
      · have hzero := (h.segment (onHeap hp).1).2 fun b' n' hb' hin' => hsome ⟨b',n',hb',hin'⟩
        exact absurd (heq.symm.trans hzero) h0
    · exact (h.segment (onHeap hp).1).1 b n hb
  have haddr := (onHeap ha).2
  have hsub : (addr + 2 ^ 64 - b) % 2 ^ 64 = addr - b := by
    have := hin.1
    omega
  simp only [heapAllocated,hw,ne_eq,h0,not_false_eq_true,if_true,hbase,h.length b n hb,hsub,decide_eq_true_eq]

theorem Agrees.heapAllocated_outside {a : Live} (h : Agrees L w a) {addr size basePtr : ℕ} (ha : isOnHeap L addr)
    (hout : ∀ b n, a b = some n → ¬ InBlock b n addr) : heapAllocated L w addr size basePtr = false := by
  simp [heapAllocated,(h.segment (onHeap ha).1).2 hout]

theorem Agrees.allocatedIn_iff {a : Live} (h : Agrees L w a) {addr size basePtr : ℕ} :
    AllocatedIn a addr size basePtr ↔ EmptyAtEnd a addr size basePtr ∨
      ∃ b n, a b = some n ∧ InBlock b n addr ∧ InBlock b n basePtr ∧ addr - b + size ≤ n := by
  constructor
  · rintro ⟨b,n,hb,hle,hlen,hp⟩
    obtain ⟨hmod,halloc,_⟩ := allocSize_spec (h.block b n hb).2.2.2.2.1
    by_cases hin : addr < b + allocSize n
    · exact .inr ⟨b,n,hb,⟨hle,hin⟩,hp,hlen⟩
    · exact .inl ⟨by omega,b,n,hb,by omega,by unfold heapSegment; omega,hp⟩
  · rintro (⟨rfl,b,n,hb,rfl,_,hp⟩ | ⟨b,n,hb,hin,hp,hlen⟩)
    · exact ⟨b,n,hb,by omega,by omega,hp⟩
    · exact ⟨b,n,hb,hin.1,hlen,hp⟩

theorem Agrees.emptyAtEnd {a : Live} (h : Agrees L w a) {addr size basePtr : ℕ} (ha : isOnHeap L addr)
    (hp : isOnHeap L basePtr) (hempty : EmptyAtEnd a addr size basePtr) :
    heapAllocated L w addr size basePtr = false := by
  obtain ⟨rfl,b,n,hb,rfl,hmod,hin⟩ := hempty
  have halloc := allocSize_spec (h.block b n hb).2.2.2.2.1
  have hno : ¬ InBlock b n (b + n) := by
    unfold InBlock heapSegment at *
    omega
  by_cases hsome : ∃ b' n', a b' = some n' ∧ InBlock b' n' (b + n)
  · obtain ⟨b',n',hb',hin'⟩ := hsome
    rw [Bool.eq_false_iff,Ne,h.heapAllocated_inBlock ha hp hb' hin']
    rintro ⟨hp',_⟩
    obtain rfl := h.unique hb hb' hin hp'
    obtain rfl := Option.some.inj (hb.symm.trans hb')
    exact hno hin'
  · exact h.heapAllocated_outside ha fun b' n' hb' hin' => hsome ⟨b',n',hb',hin'⟩

theorem Agrees.heapAllocated_iff {a : Live} (h : Agrees L w a) {addr size basePtr : ℕ} (ha : isOnHeap L addr)
    (hp : isOnHeap L basePtr) (hs : size < 2 ^ 64) :
    (heapAllocated L w addr size basePtr = true ↔ AllocatedIn a addr size basePtr) ↔
      ¬ WrapsInto a addr size basePtr ∧ ¬ EmptyAtEnd a addr size basePtr := by
  rw [h.allocatedIn_iff]
  by_cases hempty : EmptyAtEnd a addr size basePtr
  · simp [hempty,h.emptyAtEnd ha hp hempty]
  by_cases hsome : ∃ b n, a b = some n ∧ InBlock b n addr
  · obtain ⟨b,n,hb,hin⟩ := hsome
    have hspec : (∃ b n, a b = some n ∧ InBlock b n addr ∧ InBlock b n basePtr ∧ addr - b + size ≤ n) ↔
        InBlock b n basePtr ∧ addr - b + size ≤ n := by
      constructor
      · rintro ⟨b',n',hb',hin',hp',hlen⟩
        obtain rfl := h.unique hb hb' hin hin'
        obtain rfl := Option.some.inj (hb.symm.trans hb')
        exact ⟨hp',hlen⟩
      · rintro ⟨hp',hlen⟩
        exact ⟨b,n,hb,hin,hp',hlen⟩
    have hwraps : WrapsInto a addr size basePtr ↔
        InBlock b n basePtr ∧ 2 ^ 64 ≤ addr - b + size ∧ addr - b + size - 2 ^ 64 ≤ n := by
      constructor
      · rintro ⟨b',n',hb',hin',hp',hlen⟩
        obtain rfl := h.unique hb hb' hin hin'
        obtain rfl := Option.some.inj (hb.symm.trans hb')
        exact ⟨hp',hlen⟩
      · rintro ⟨hp',hlen⟩
        exact ⟨b,n,hb,hin,hp',hlen⟩
    have haddr := (onHeap ha).2
    have hn : n < 2 ^ 64 := (h.block b n hb).2.2.2.2.1.trans (by decide)
    rw [h.heapAllocated_inBlock ha hp hb hin,hspec,hwraps]
    simp only [hempty,false_or,not_false_eq_true,and_true]
    by_cases hb' : InBlock b n basePtr
    · simp only [hb',true_and]
      omega
    · simp [hb']
  · have hout : ∀ b n, a b = some n → ¬ InBlock b n addr := fun b n hb hin => hsome ⟨b,n,hb,hin⟩
    have hspec : ¬ ∃ b n, a b = some n ∧ InBlock b n addr ∧ InBlock b n basePtr ∧ addr - b + size ≤ n := by
      rintro ⟨b,n,hb,hin,_⟩
      exact hout b n hb hin
    have hwraps : ¬ WrapsInto a addr size basePtr := by
      rintro ⟨b,n,hb,hin,_⟩
      exact hout b n hb hin
    simp [h.heapAllocated_outside ha hout,hspec,hempty,hwraps]

theorem Agrees.isOnHeap {a : Live} (h : Agrees L w a) {b n x : ℕ} (hb : a b = some n) (hin : InBlock b n x) :
    isOnHeap L x := by
  obtain ⟨_,hstart,_,_,_,hend⟩ := h.block b n hb
  obtain ⟨hle,hlt⟩ := hin
  exact decide_eq_true ⟨hstart.trans hle,by omega⟩

theorem Agrees.freeable_iff {a : Live} (h : Agrees L w a) (addr : ℕ) :
    freeable L w addr = true ↔ ∃ n, a addr = some n := by
  unfold freeable alignedHeapShadow Blocks.alignLeft
  constructor
  · intro hfree
    split at hfree
    · next hon =>
      simp only at hfree
      split at hfree
      · next h0 =>
        have heq := of_decide_eq_true hfree
        by_cases hsome : ∃ b n, a b = some n ∧ InBlock b n addr
        · obtain ⟨b,n,hb,hin⟩ := hsome
          obtain rfl : b = addr := ((h.segment (onHeap hon).1).1 b n hb hin).symm.trans heq
          exact ⟨n,hb⟩
        · exact absurd ((h.segment (onHeap hon).1).2 fun b n hb hin => hsome ⟨b,n,hb,hin⟩) h0
      · cases hfree
    · cases hfree
  · rintro ⟨n,hb⟩
    obtain ⟨h0,_,_,hn1,hn,_⟩ := h.block addr n hb
    have hin : InBlock addr n addr := ⟨le_rfl,by have := allocSize_spec hn; omega⟩
    have hon := h.isOnHeap hb hin
    have hw := (h.segment (onHeap hon).1).1 addr n hb hin
    simp [hon,hw,h0]

theorem Agrees.heapInfo {a : Live} (h : Agrees L w a) {b n addr : ℕ} (hb : a b = some n) (hle : b ≤ addr)
    (hlt : addr < b + n) : heapInfo L w addr .base = b ∧ heapInfo L w addr .length = n ∧
      heapInfo L w addr .offset = addr - b := by
  have halloc := allocSize_spec (h.block b n hb).2.2.2.2.1
  have hin : InBlock b n addr := ⟨hle,by omega⟩
  obtain ⟨hstart,hfits⟩ := onHeap (h.isOnHeap hb hin)
  have hw : w (alignedHeapShadow L addr) = b := (h.segment hstart).1 b n hb hin
  refine ⟨hw,?_,?_⟩
  · rw [Blocks.heapInfo,hw,h.length b n hb]
  · rw [Blocks.heapInfo,hw]
    omega

theorem allocSize_pos_iff {n : ℕ} : allocSize n ≠ 0 ↔ 1 ≤ n ∧ n < maxAllocated := by
  constructor
  · intro h
    have hn : n < maxAllocated := by
      by_contra hn
      exact h (by rw [allocSize,if_neg hn])
    have := (allocSize_eq_zero hn).not.mp h
    exact ⟨by omega,hn⟩
  · rintro ⟨h1,hn⟩ h0
    have := (allocSize_eq_zero hn).mp h0
    omega

theorem Agrees.set {a : Live} (h : Agrees L w a) {p n : ℕ} {w' : Words} (h0 : p ≠ 0) (hn : 1 ≤ n ∧ n < maxAllocated)
    (hnew : NewRegion L a p n) (hset : setHeapSegment L w p n (allocSize n) = some w') :
    Agrees L w' (Function.update a p (some n)) := by
  obtain ⟨hbelow,rfl⟩ := setHeapSegment_eq.mp hset
  exact h.put h0 hn.1 hn.2 hnew hbelow

theorem Agrees.malloc {a : Live} (h : Agrees L w a) {size res : ℕ} {w' : Words}
    (hnew : allocSize size ≠ 0 → res ≠ 0 → NewRegion L a res size) (hstep : malloc L w size res = some w') :
    Agrees L w' (mallocLive a size res) := by
  unfold Blocks.malloc at hstep
  unfold mallocLive
  simp only at hstep
  split at hstep
  · next hok =>
    rw [if_neg (by tauto)]
    exact h.set hok.2 (allocSize_pos_iff.mp hok.1) (hnew hok.1 hok.2) hstep
  · next hno =>
    obtain rfl := Option.some.inj hstep
    rwa [if_pos (by tauto)]

theorem Agrees.calloc {a : Live} (h : Agrees L w a) {nmemb size res : ℕ} {w' : Words}
    (hnew : callocBytes nmemb size ≠ 0 → res ≠ 0 → NewRegion L a res (callocBytes nmemb size))
    (hstep : calloc L w nmemb size res = some w') : Agrees L w' (stepLive a (.calloc nmemb size res)) := by
  change (if callocBytes nmemb size ≠ 0 ∧ res ≠ 0 then
    if callocBytes nmemb size ≤ allocSize (callocBytes nmemb size) then
      setHeapSegment L w res (callocBytes nmemb size) (allocSize (callocBytes nmemb size)) else none
    else some w) = some w' at hstep
  simp only [stepLive]
  generalize callocBytes nmemb size = n at hnew hstep
  split at hstep
  · next hok =>
    split at hstep
    · next hle =>
      rw [if_neg (by tauto)]
      exact h.set hok.2 (allocSize_pos_iff.mp (by omega)) (hnew hok.1 hok.2) hstep
    · cases hstep
  · next hno =>
    obtain rfl := Option.some.inj hstep
    rwa [if_pos (by tauto)]

theorem Agrees.untrack_null {a : Live} (h : Agrees L w a) : Function.update a 0 none = a := by
  have h0 : a 0 = none := Option.eq_none_iff_forall_ne_some.mpr fun n hn => (h.block 0 n hn).1 rfl
  rw [← h0,Function.update_eq_self]

theorem Agrees.free {a : Live} (h : Agrees L w a) {ptr : ℕ} {w' : Words} (hstep : free L w ptr = some w') :
    Agrees L w' (Function.update a ptr none) := by
  unfold Blocks.free at hstep
  split at hstep
  · next h0 =>
    subst h0
    obtain rfl := Option.some.inj hstep
    rwa [h.untrack_null]
  split at hstep
  · next hfree =>
    obtain rfl := Option.some.inj hstep
    obtain ⟨n,hn⟩ := (h.freeable_iff ptr).mp hfree
    exact h.unset hn
  · cases hstep

theorem Agrees.step {a : Live} (h : Agrees L w a) {op : Op} {w' : Words} (hp : Promised L a op) (hc : Alignable op)
    (hstep : step L w op = some w') : Agrees L w' (stepLive a op) := by
  cases op with
  | malloc size res => exact h.malloc hp hstep
  | calloc nmemb size res => exact h.calloc hp hstep
  | free ptr => exact h.free hstep
  | realloc ptr size res =>
    unfold Blocks.step realloc at hstep
    unfold stepLive
    obtain ⟨hnull,hlive⟩ := hp
    simp only at hstep ⊢
    split at hstep
    · next h0 =>
      rw [if_pos h0]
      exact h.malloc (hnull h0) hstep
    next h0 =>
    rw [if_neg h0]
    split at hstep
    · next hs =>
      rw [if_pos hs]
      exact h.free hstep
    next hs =>
    rw [if_neg hs]
    split at hstep
    · next hfree =>
      obtain ⟨n,hn⟩ := (h.freeable_iff ptr).mp hfree
      split at hstep
      · next hres =>
        rw [if_neg hres]
        exact (h.unset hn).set hres ⟨by omega,hc h0 hres⟩ (hlive h0 hs hres) hstep
      · next hres =>
        obtain rfl := Option.some.inj hstep
        rwa [if_pos (by simpa using hres)]
    · cases hstep

theorem Agrees.run {a : Live} (h : Agrees L w a) (ops : List Op) (hp : Along stepLive (Promised L) a ops)
    (hc : ∀ op ∈ ops, Alignable op) {w' : Words} (hrun : run L w ops = some w') :
    Agrees L w' (ops.foldl stepLive a) := by
  induction ops generalizing w a with
  | nil =>
    obtain rfl := Option.some.inj hrun
    exact h
  | cons op ops ih =>
    obtain ⟨w₁,hstep,hrun⟩ := Option.bind_eq_some_iff.mp hrun
    obtain ⟨hop,hops⟩ := List.forall_mem_cons.mp hc
    exact ih (h.step hp.1 hop hstep) hp.2 hops hrun

theorem agrees_zero : Agrees L (fun _ => 0) Live.empty where
  block _ _ h := nomatch h
  separate _ _ _ _ _ h := nomatch h
  base _ _ h := nomatch h
  length _ _ h := nomatch h
  outside _ _ _ _ := rfl

/-- A range is allocated as the blocks are, unless its end overflows into its block or it is empty at the end of a block that
fills its segments; the information about the bytes of the live blocks is right and the freeable addresses are their bases. -/
structure Exact (L : HeapSpace) (w : Words) (a : Live) : Prop where
  allocated : ∀ addr size basePtr, isOnHeap L addr → isOnHeap L basePtr → size < 2 ^ 64 →
    ((heapAllocated L w addr size basePtr = true ↔ AllocatedIn a addr size basePtr) ↔
      ¬ WrapsInto a addr size basePtr ∧ ¬ EmptyAtEnd a addr size basePtr)
  info : ∀ b n addr, a b = some n → b ≤ addr → addr < b + n →
    heapInfo L w addr .base = b ∧ heapInfo L w addr .length = n ∧ heapInfo L w addr .offset = addr - b
  freeable : ∀ addr, freeable L w addr = true ↔ ∃ n, a addr = some n

/-- The shadow is exact in every run whose reallocations can be aligned. -/
theorem heap_blocks_exact (ops : List Op) (hp : Along stepLive (Promised L) Live.empty ops)
    (hc : ∀ op ∈ ops, Alignable op) (hrun : run L (fun _ => 0) ops = some w) :
    Exact L w (ops.foldl stepLive Live.empty) := by
  have h := agrees_zero.run ops hp hc hrun
  exact ⟨fun addr size basePtr ha hb hs => h.heapAllocated_iff ha hb hs,fun b n addr hb => h.heapInfo hb,h.freeable_iff⟩

def smallSpace : HeapSpace := ⟨smallLayout,1024 + 65536,131072,rfl,by decide,by decide⟩

def oneBlock : List Op := [.malloc 32 1024]

def hugeBlock : List Op := [.malloc 32 1024,.realloc 1024 (2 ^ 64 - 1) 1024]

def wordsAfter (ops : List Op) : Words := (run smallSpace (fun _ => 0) ops).getD fun _ => 0

theorem newRegion_empty {p n : ℕ} (hp : smallSpace.heapStart ≤ p) (hend : p + allocSize n ≤ smallSpace.heapEnd)
    (hal : p % heapSegment = 0) {a : Live} (ha : ∀ q, a q = none) : NewRegion smallSpace a p n :=
  ⟨hp,hend,hal,fun q _ hq => nomatch (ha q).symm.trans hq⟩

theorem oneBlock_promised : Along stepLive (Promised smallSpace) Live.empty oneBlock :=
  ⟨fun _ _ => newRegion_empty (by decide) (by decide) rfl fun _ => rfl,trivial⟩

/-- A size that overflows is found in the block, and a block that is made too large is not freeable any more. -/
theorem heap_blocks_not_exact :
    (∃ w, run smallSpace (fun _ => 0) oneBlock = some w ∧ heapAllocated smallSpace w 1040 (2 ^ 64 - 8) 1040 = true ∧
      ¬ AllocatedIn (oneBlock.foldl stepLive Live.empty) 1040 (2 ^ 64 - 8) 1040) ∧
    ∃ w, run smallSpace (fun _ => 0) hugeBlock = some w ∧ freeable smallSpace w 1024 = false ∧
      ∃ n, hugeBlock.foldl stepLive Live.empty 1024 = some n := by
  refine ⟨⟨wordsAfter oneBlock,rfl,by decide,?_⟩,⟨wordsAfter hugeBlock,rfl,by decide,2 ^ 64 - 1,rfl⟩⟩
  rintro ⟨b,n,hb,_,hlen,_⟩
  have hlive : oneBlock.foldl stepLive Live.empty = Function.update Live.empty 1024 (some 32) := rfl
  rw [hlive] at hb
  rcases update_cases hb with ⟨_,hn⟩ | ⟨_,hn⟩
  · obtain rfl := Option.some.inj hn
    omega
  · cases hn

theorem heap_blocks_exact_oneBlock :
    Exact smallSpace (wordsAfter oneBlock) (oneBlock.foldl stepLive Live.empty) :=
  heap_blocks_exact oneBlock oneBlock_promised (by simp [oneBlock,Alignable]) rfl

end FramaC.EAcsl.Segment.Blocks
