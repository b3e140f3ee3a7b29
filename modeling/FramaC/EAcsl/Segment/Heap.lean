import FramaC.EAcsl.Bits
import FramaC.EAcsl.Memory

/-! # Heap initialization in the segment model

The init shadow of the heap has one bit for each heap byte. The functions are those of `e_acsl_segment_tracking.h`
that change or read it; of the block shadow only the lengths by base address are kept.
-/
namespace FramaC.EAcsl.Segment

/-- Where the heap and its init shadow start. -/
structure HeapLayout where
  heapStart : ℕ
  initShadow : ℕ
  aligned : heapStart % 8 = 0
  room : 8 ≤ initShadow

structure Heap where
  length : ℕ → Option ℕ
  init : Bytes

def Heap.zero : Heap := ⟨fun _ => none,fun _ => 0⟩

def heapSegment : ℕ := 32

def maxAllocated : ℕ := (2 ^ 64 - 1) - (2 ^ 64 - 1) % heapSegment

def alignRight (n m : ℕ) : ℕ := n + (if n % m ≠ 0 then m - n % m else 0)

def allocSize (s : ℕ) : ℕ := if s < maxAllocated then alignRight s heapSegment else 0

def memsetAt (m : Bytes) (a : ℕ) (value : BitVec 8) (n : ℕ) : Bytes := fun x => if a ≤ x ∧ x < a + n then value else m x

def memcpyAt (m : Bytes) (dst src n : ℕ) : Bytes := fun x => if dst ≤ x ∧ x < dst + n then m (src + (x - dst)) else m x

variable (L : HeapLayout)

def heapInitShadow (addr : ℕ) : ℕ := L.initShadow + (addr - L.heapStart) / 8

def setHeapSegment (h : Heap) (ptr size allocSize : ℕ) (init : Bool) : Heap where
  length := Function.update h.length ptr (some size)
  init := if init then memsetAt h.init (heapInitShadow L ptr) 255 (allocSize / 8) else h.init

def unsetHeapSegment (h : Heap) (ptr : ℕ) (init : Bool) : Heap where
  length := Function.update h.length ptr none
  init :=
    if init then memsetAt h.init (heapInitShadow L ptr) 0 (allocSize ((h.length ptr).getD 0) / 8) else h.init

/-- `res` is the address that `public_malloc` returns. -/
def malloc (h : Heap) (size res : ℕ) : Heap :=
  let alloc := allocSize size
  if alloc = 0 ∨ res = 0 then h else setHeapSegment L h res size alloc false

def calloc (h : Heap) (nmemb size res : ℕ) : Heap :=
  let size := if size ≠ 0 ∧ nmemb > (2 ^ 64 - 1) / size then 0 else nmemb * size
  if size = 0 ∨ res = 0 then h else setHeapSegment L h res size (allocSize size) true

def free (h : Heap) (ptr : ℕ) : Option Heap :=
  if ptr = 0 then some h
  else if (h.length ptr).isSome then some (unsetHeapSegment L h ptr true) else none

/-- The init shadow when a block is given `size` bytes at `res`. -/
def moveInit (m : Bytes) (ptr oldSize size res : ℕ) : Bytes :=
  let alloc := allocSize size
  let oldAlloc := allocSize oldSize
  let oldInit := heapInitShadow L ptr
  let newInit := heapInitShadow L res
  let m := if oldSize > size then clearbitsRight (oldAlloc - size) m (oldInit + oldAlloc / 8) else m
  if res ≠ ptr then
    let copySize := if oldSize > size then alloc else oldAlloc
    memsetAt (memcpyAt m newInit oldInit copySize) oldInit 0 copySize
  else m

def realloc (h : Heap) (ptr size res : ℕ) : Option Heap :=
  if ptr = 0 then some (malloc L h size res)
  else if size = 0 then free L h ptr
  else
    match h.length ptr with
    | none => none
    | some oldSize =>
      if res = 0 then some h
      else
        let h := unsetHeapSegment L h ptr false
        let h := setHeapSegment L h res size (allocSize size) false
        some { h with init := moveInit L h.init ptr oldSize size res }

def initializeHeapRegion (m : Bytes) (addr len : ℕ) : Bytes :=
  let shadow := heapInitShadow L addr
  let skip := (addr - L.heapStart) % 8
  if skip ≠ 0 then
    let set := if len > 8 - skip then 8 - skip else len
    let m := Function.update m shadow ((setbits64Skip set ((m shadow).setWidth 64) skip).setWidth 8)
    if len - set > 0 then setbits (len - set) m (shadow + 1) else m
  else if len > 0 then setbits len m shadow else m

def heapInitialized (m : Bytes) (addr len : ℕ) : Bool :=
  let shadow := heapInitShadow L addr
  let skip := (addr - L.heapStart) % 8
  if skip ≠ 0 then
    let set := if len > 8 - skip then 8 - skip else len
    let mask : BitVec 8 := (setbits64Skip set 0 skip).setWidth 8
    if m shadow ≠ mask then false
    else if len - set > 0 then checkbits (len - set) m shadow else true
  else if len > 0 then checkbits len m shadow else true

def initBit (m : Bytes) (addr : ℕ) : Bool := bitAt m (8 * L.initShadow + (addr - L.heapStart))

theorem getLsbD_mask_skip {set skip k : ℕ} (hk : k < 64) :
    ((~~~(ONE <<< set)) <<< skip).getLsbD k = decide (skip ≤ k ∧ k < skip + set) := by
  rw [BitVec.getLsbD_shiftLeft]
  by_cases h : k < skip
  · have hno : ¬(skip ≤ k ∧ k < skip + set) := by omega
    simp [hk,h,hno]
  · have hiff : (k - skip < set) ↔ (skip ≤ k ∧ k < skip + set) := by omega
    rw [getLsbD_lowMask set (show k - skip < 64 by omega)]
    simp [hk,h,hiff]

theorem getLsbD_setbits64Skip_byte (w : BitVec 8) {set skip k : ℕ} (hk : k < 8) :
    ((setbits64Skip set (w.setWidth 64) skip).setWidth 8).getLsbD k =
      (w.getLsbD k || decide (skip ≤ k ∧ k < skip + set)) := by
  have hk' : k < 64 := by omega
  rw [BitVec.getLsbD_setWidth,setbits64Skip,BitVec.getLsbD_or,getLsbD_mask_skip hk',BitVec.getLsbD_setWidth]
  simp [hk,hk']

theorem initBit_initializeHeapRegion (m : Bytes) {addr len x : ℕ} (ha : L.heapStart ≤ addr) (hx : L.heapStart ≤ x) :
    initBit L (initializeHeapRegion L m addr len) x = (initBit L m x || decide (addr ≤ x ∧ x < addr + len)) := by
  unfold initBit initializeHeapRegion
  generalize hn : 8 * L.initShadow + (x - L.heapStart) = n
  have hsh : 8 * heapInitShadow L addr + (addr - L.heapStart) % 8 = 8 * L.initShadow + (addr - L.heapStart) := by
    unfold heapInitShadow
    omega
  generalize heapInitShadow L addr = shadow at hsh
  by_cases hs : (addr - L.heapStart) % 8 = 0
  · simp only [hs,ne_eq,not_true_eq_false,if_false]
    by_cases hl : len > 0
    · rw [if_pos hl,bitAt_setbits,Bool.or_comm]
      congr 2
      apply propext
      omega
    · have hno : ¬(addr ≤ x ∧ x < addr + len) := by omega
      simp [hl,hno]
  · simp only [ne_eq,hs,not_false_eq_true,if_true]
    generalize hset : (if len > 8 - (addr - L.heapStart) % 8 then 8 - (addr - L.heapStart) % 8 else len) = set
    have hle : set ≤ len ∧ (addr - L.heapStart) % 8 + set ≤ 8 ∧
        (set < len → (addr - L.heapStart) % 8 + set = 8) := by
      rw [← hset]
      split <;> omega
    have hbyte : bitAt (Function.update m shadow ((setbits64Skip set ((m shadow).setWidth 64)
        ((addr - L.heapStart) % 8)).setWidth 8)) n = (bitAt m n || decide (addr ≤ x ∧ x < addr + set)) := by
      unfold bitAt
      by_cases hd : n / 8 = shadow
      · rw [hd,Function.update_self,getLsbD_setbits64Skip_byte _ (Nat.mod_lt n (by omega))]
        congr 2
        apply propext
        omega
      · have hno : ¬(addr ≤ x ∧ x < addr + set) := by omega
        rw [Function.update_of_ne hd]
        simp [hno]
    by_cases hl : len - set > 0
    · rw [if_pos hl,bitAt_setbits,hbyte,Bool.or_comm,Bool.or_assoc,← Bool.decide_or]
      congr 2
      apply propext
      omega
    · rw [if_neg hl,hbyte]
      congr 2
      apply propext
      omega

end FramaC.EAcsl.Segment

/-! ## Heap blocks in the segment model

Every segment of the heap shadow begins with the base address of its block, and the first segment of a block goes on with the
length of the block. The functions are those of `e_acsl_segment_tracking.h` that change or read these words.
-/
namespace FramaC.EAcsl.Segment.Blocks

/-- The heap and its block shadow. The size of the heap is an `int` in the source. -/
structure HeapSpace extends HeapLayout where
  heapEnd : ℕ
  blockShadow : ℕ
  segments : heapStart % heapSegment = 0
  small : heapEnd < heapStart + 2 ^ 31
  fits : heapEnd < 2 ^ 64

abbrev Words := ℕ → ℕ

def alignLeft (n m : ℕ) : ℕ := n - n % m

variable (L : HeapSpace)

def isOnHeap (addr : ℕ) : Bool := L.heapStart ≤ addr ∧ addr ≤ L.heapEnd

def heapShadow (addr : ℕ) : ℕ := L.blockShadow + (addr - L.heapStart)

def alignedHeapShadow (addr : ℕ) : ℕ := heapShadow L (alignLeft addr heapSegment)

/-- The base address in the first `segments` segments. -/
def writeBase (w : Words) (shadow ptr : ℕ) : ℕ → Words
  | 0 => w
  | i + 1 => Function.update (writeBase w shadow ptr i) (shadow + i * heapSegment) ptr

def memset (w : Words) (a value n : ℕ) : Words := fun x => if a ≤ x ∧ x < a + n then value else w x

def setHeapSegment (w : Words) (ptr size allocSize : ℕ) : Option Words :=
  let maxAddr := ptr + allocSize
  if L.heapEnd > maxAddr then
    let shadow := heapShadow L ptr
    let segments := allocSize / heapSegment
    some (writeBase (Function.update w (shadow + 8) size) shadow ptr segments)
  else none

def unsetHeapSegment (w : Words) (ptr : ℕ) : Words :=
  let baseShadow := heapShadow L ptr
  memset w baseShadow 0 (allocSize (w (baseShadow + 8)))

def freeable (w : Words) (addr : ℕ) : Bool :=
  if isOnHeap L addr then
    let shadow := alignedHeapShadow L addr
    if w shadow ≠ 0 then w shadow = addr else false
  else false

/-- `res` is the address that `public_malloc` returns. -/
def malloc (w : Words) (size res : ℕ) : Option Words :=
  let alloc := allocSize size
  if alloc ≠ 0 ∧ res ≠ 0 then setHeapSegment L w res size alloc else some w

/-- No run goes on after bytes beyond the allocated region have been set to zero. -/
def calloc (w : Words) (nmemb size res : ℕ) : Option Words :=
  let size := if size ≠ 0 ∧ nmemb > (2 ^ 64 - 1) / size then 0 else nmemb * size
  let alloc := allocSize size
  if size ≠ 0 ∧ res ≠ 0 then
    if size ≤ alloc then setHeapSegment L w res size alloc else none
  else some w

def free (w : Words) (ptr : ℕ) : Option Words :=
  if ptr = 0 then some w
  else if freeable L w ptr then some (unsetHeapSegment L w ptr) else none

/-- `res` is the address that `public_realloc` returns, or `public_malloc` for a null pointer. -/
def realloc (w : Words) (ptr size res : ℕ) : Option Words :=
  if ptr = 0 then malloc L w size res
  else if size = 0 then free L w ptr
  else if freeable L w ptr then
    let alloc := allocSize size
    if res ≠ 0 then setHeapSegment L (unsetHeapSegment L w ptr) res size alloc else some w
  else none

def heapAllocated (w : Words) (addr size basePtr : ℕ) : Bool :=
  let shadow := heapShadow L (addr - addr % heapSegment)
  if w shadow ≠ 0 then
    let baseShadow := heapShadow L (basePtr - basePtr % heapSegment)
    let firstSegment := heapShadow L (w shadow)
    w baseShadow = w shadow ∧ ((addr + 2 ^ 64 - w shadow) % 2 ^ 64 + size) % 2 ^ 64 ≤ w (firstSegment + 8)
  else false

inductive InfoKind
  | base
  | length
  | offset
  deriving DecidableEq

def heapInfo (w : Words) (addr : ℕ) : InfoKind → ℕ
  | .base => w (alignedHeapShadow L addr)
  | .length => w (heapShadow L (w (alignedHeapShadow L addr)) + 8)
  | .offset => (addr + 2 ^ 64 - w (alignedHeapShadow L addr)) % 2 ^ 64

inductive Op
  | malloc (size res : ℕ)
  | calloc (nmemb size res : ℕ)
  | free (ptr : ℕ)
  | realloc (ptr size res : ℕ)
  deriving DecidableEq

def step (w : Words) : Op → Option Words
  | .malloc size res => malloc L w size res
  | .calloc nmemb size res => calloc L w nmemb size res
  | .free ptr => free L w ptr
  | .realloc ptr size res => realloc L w ptr size res

/-- `none` when a call aborts. -/
def run (w : Words) : List Op → Option Words
  | [] => some w
  | op :: ops => (step L w op).bind fun w' => run w' ops

end FramaC.EAcsl.Segment.Blocks
