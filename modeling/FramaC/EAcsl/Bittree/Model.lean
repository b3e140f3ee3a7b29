import FramaC.EAcsl.Bits
import FramaC.EAcsl.Memory

/-! # The bittree memory model

The tracking functions of `e_acsl_bittree_mmodel.c`. The tree itself is the list of the tracked blocks; what the
functions compute about a block is kept as in the source, with `init_ptr` a private memory of bytes or `NULL`.
A computation that would dereference `NULL` or abort has no result.
-/
namespace FramaC.EAcsl.Bittree

structure Block where
  ptr : ℕ
  size : ℕ
  initPtr : Option Bytes
  initBytes : ℕ
  isReadonly : Bool
  isFreeable : Bool

abbrev Store := List Block

def Block.contains (b : Block) (p : ℕ) : Bool :=
  decide (b.ptr ≤ p) && (decide (p - b.ptr < b.size) || decide (b.size = 0 ∧ p = b.ptr))

def btLookup (s : Store) (p : ℕ) : Option Block := s.find? (fun b => b.ptr == p)

def btFind (s : Store) (p : ℕ) : Option Block := s.find? (fun b => b.contains p)

def btInsert (b : Block) (s : Store) : Store := b :: s

def btRemove (b : Block) (s : Store) : Store := s.filter (fun c => c.ptr != b.ptr)

/-- The store after an assignment to fields of the tracked block with this base address. -/
def assign (s : Store) (p : ℕ) (b : Block) : Store := s.map (fun c => if c.ptr = p then b else c)

def nbrBitsToOneTable : List ℕ := [
  0,1,1,2,1,2,2,3,1,2,2,3,2,3,3,4,1,2,2,3,2,3,3,4,2,3,3,4,3,4,4,5,1,2,2,3,2,3,
  3,4,2,3,3,4,3,4,4,5,2,3,3,4,3,4,4,5,3,4,4,5,4,5,5,6,1,2,2,3,2,3,3,4,2,3,3,4,
  3,4,4,5,2,3,3,4,3,4,4,5,3,4,4,5,4,5,5,6,2,3,3,4,3,4,4,5,3,4,4,5,4,5,5,6,3,4,
  4,5,4,5,5,6,4,5,5,6,5,6,6,7,1,2,2,3,2,3,3,4,2,3,3,4,3,4,4,5,2,3,3,4,3,4,4,5,
  3,4,4,5,4,5,5,6,2,3,3,4,3,4,4,5,3,4,4,5,4,5,5,6,3,4,4,5,4,5,5,6,4,5,5,6,5,6,
  6,7,2,3,3,4,3,4,4,5,3,4,4,5,4,5,5,6,3,4,4,5,4,5,5,6,4,5,5,6,5,6,6,7,3,4,4,5,
  4,5,5,6,4,5,5,6,5,6,6,7,4,5,5,6,5,6,6,7,5,6,6,7,6,7,7,8]

def nbrBitsToOne (b : BitVec 8) : ℕ := nbrBitsToOneTable.getD b.toNat 0

def neededBytes (size : ℕ) : ℕ := if size % 8 = 0 then size / 8 else size / 8 + 1

def memset (m : Bytes) (value : BitVec 8) (n : ℕ) : Bytes := fun i => if i < n then value else m i

/-- One turn of the loop of `initialize`, on the bitmap and the counter. -/
def markByte (base ptr : ℕ) (acc : Bytes × ℕ) (i : ℕ) : Bytes × ℕ :=
  let offset := ptr - base + i
  let byte := offset / 8
  let bit := offset % 8
  if checkbit bit (acc.1 byte) then acc
  else (Function.update acc.1 byte (setbit bit (acc.1 byte)),acc.2 + 1)

/-- The bitmap `initialize` works on, a new one for a fully uninitialized block; `fresh` is the content of newly
allocated private memory. -/
def Block.initBitmap (b : Block) (fresh : Bytes) : Option Bytes :=
  if b.initBytes = 0 then some (memset fresh 0 (neededBytes b.size)) else b.initPtr

/-- The block after `initialize`, which marks the bytes from `ptr` on. -/
def Block.initializeBytes (b : Block) (fresh : Bytes) (ptr size : ℕ) : Option Block :=
  if b.initBytes = b.size then some b
  else (b.initBitmap fresh).map fun m =>
    let acc := (List.range size).foldl (markByte b.ptr ptr) (m,b.initBytes)
    if acc.2 = b.size then { b with initPtr := none, initBytes := acc.2 }
    else { b with initPtr := some acc.1, initBytes := acc.2 }

def initializeBytes (s : Store) (fresh : Bytes) (ptr size : ℕ) : Option Store :=
  if ptr = 0 then some s
  else
    match btFind s ptr with
    | none => some s
    | some b => (b.initializeBytes fresh ptr size).map (assign s b.ptr)

def Block.fullInit (b : Block) : Block := { b with initPtr := none, initBytes := b.size }

def fullInit (s : Store) (ptr : ℕ) : Store :=
  if ptr = 0 then s
  else
    match btLookup s ptr with
    | none => s
    | some b => assign s b.ptr b.fullInit

def Block.initialized (b : Block) (ptr size : ℕ) : Option Bool :=
  if b.initBytes = 0 then some false
  else if b.initBytes = b.size then some true
  else b.initPtr.map fun m =>
    (List.range size).all fun i => checkbit ((ptr - b.ptr + i) % 8) (m ((ptr - b.ptr + i) / 8))

def initialized (s : Store) (ptr size : ℕ) : Option Bool :=
  match btFind s ptr with
  | none => some false
  | some b => b.initialized ptr size

def storeBlock (s : Store) (ptr size : ℕ) : Store :=
  if ptr = 0 then s else btInsert ⟨ptr,size,none,0,false,false⟩ s

def storeFreeableBlock (s : Store) (ptr size : ℕ) (initBytes : Bool) : Store :=
  if ptr = 0 then s
  else
    let s := storeBlock s ptr size
    match btLookup s ptr with
    | none => s
    | some b => assign s ptr { b with isFreeable := true, initBytes := if initBytes then size else b.initBytes }

def Block.clean (b : Block) : Block := { b with initPtr := none, initBytes := 0 }

def deleteBlock (s : Store) (ptr : ℕ) : Store :=
  if ptr = 0 then s
  else
    match btLookup s ptr with
    | none => s
    | some b => btRemove b.clean s

/-- `res` is the address that `public_malloc` returns. -/
def malloc (s : Store) (size res : ℕ) : Store :=
  if size = 0 then s else storeFreeableBlock s res size false

def calloc (s : Store) (nbrBlock sizeBlock res : ℕ) : Store :=
  let size := nbrBlock * sizeBlock
  if size = 0 then s else storeFreeableBlock s res size true

def free (s : Store) (ptr : ℕ) : Option Store :=
  if ptr = 0 then some s
  else (btLookup s ptr).map fun b => btRemove b.clean s

/-- The content of a private memory of `old` bytes after `private_realloc` to `new` bytes. -/
def privateRealloc (m fresh : Bytes) (old new : ℕ) : Bytes := fun i => if i < min old new then m i else fresh i

def countBits (m : Bytes) (nb : ℕ) : ℕ := (List.range nb).foldl (fun count i => count + nbrBitsToOne (m i)) 0

/-- The initialization data and size of a block after a successful `realloc`. -/
def Block.resize (b : Block) (fresh : Bytes) (size : ℕ) : Option Block :=
  if b.initBytes = 0 then some { b with size := size, isFreeable := true }
  else if b.initBytes = b.size then
    if size ≤ b.size then some { b with initBytes := size, size := size, isFreeable := true }
    else
      let m := memset fresh 0 (neededBytes size)
      some { b with initPtr := some (setbits b.size m 0), size := size, isFreeable := true }
  else b.initPtr.map fun m =>
    let nb := neededBytes size
    let nbOld := neededBytes b.size
    let m := privateRealloc m fresh nbOld nb
    let m := fun i => if nbOld ≤ i ∧ i < nb then 0 else m i
    let count := countBits m nb
    if count = size ∨ count = 0 then { b with initPtr := none, initBytes := count, size := size, isFreeable := true }
    else { b with initPtr := some m, initBytes := count, size := size, isFreeable := true }

/-- `res` is the address that the allocator returns, and `fresh` the content of newly allocated private memory. -/
def realloc (s : Store) (fresh : Bytes) (ptr size res : ℕ) : Option Store :=
  if ptr = 0 then some (malloc s size res)
  else if size = 0 then free s ptr
  else
    match btLookup s ptr with
    | none => none
    | some b =>
      if res = 0 then some s
      else
        let moved := { b with ptr := res }
        let s := if b.ptr ≠ res then btInsert moved (btRemove b s) else s
        (moved.resize fresh size).map (assign s res)

end FramaC.EAcsl.Bittree

/-! ## Counting initialized bytes

A block tracks a set of initialized addresses when its counter is their number in the block and, for a partially
initialized block, the bitmap has exactly their bits, those after the end of the block being clear.
-/
namespace FramaC.EAcsl.Bittree

theorem checkbit_eq (w : BitVec 8) (bit : ℕ) : checkbit bit w = w.getLsbD bit := by
  have hone : w >>> bit &&& 1 = (BitVec.ofBool (w.getLsbD bit)).setWidth 8 := by
    rw [← Nat.add_zero bit,← BitVec.getLsbD_ushiftRight,Nat.add_zero]
    exact BitVec.and_one_eq_setWidth_ofBool_getLsbD
  rw [checkbit,hone]
  cases w.getLsbD bit <;> rfl

theorem getLsbD_setbit (w : BitVec 8) {bit k : ℕ} (hk : k < 8) :
    (setbit bit w).getLsbD k = (w.getLsbD k || decide (k = bit)) := by
  rw [setbit,BitVec.getLsbD_or,BitVec.natCast_eq_ofNat,BitVec.getLsbD_ofNat,Nat.one_shiftLeft,Nat.testBit_two_pow]
  simp [hk,eq_comm]

theorem le_neededBytes (size : ℕ) : size ≤ 8 * neededBytes size := by
  unfold neededBytes
  split <;> omega

section Counting

variable (f : ℕ → Bool)

theorem countP_range_succ (n : ℕ) :
    (List.range (n + 1)).countP f = (List.range n).countP f + (if f n then 1 else 0) := by
  rw [List.range_succ,List.countP_append,List.countP_singleton]

theorem countP_range_congr {g : ℕ → Bool} {n : ℕ} (h : ∀ o < n, f o = g o) :
    (List.range n).countP f = (List.range n).countP g := by
  apply List.countP_congr
  intro o ho
  rw [h o (List.mem_range.1 ho)]

theorem countP_range_insert {o n : ℕ} (ho : o < n) (hf : f o = false) :
    (List.range n).countP (fun j => f j || decide (j = o)) = (List.range n).countP f + 1 := by
  induction n with
  | zero => omega
  | succ n ih =>
    rw [countP_range_succ,countP_range_succ]
    by_cases h : o = n
    · subst h
      have hc : (List.range o).countP (fun j => f j || decide (j = o)) = (List.range o).countP f := by
        apply countP_range_congr
        intro j hj
        have hne : j ≠ o := by omega
        simp [hne]
      rw [hc]
      simp [hf]
    · have hn : n ≠ o := fun e => h e.symm
      rw [ih (by omega)]
      simp only [hn,decide_false,Bool.or_false]
      omega

theorem countP_range_eq_self {n : ℕ} : (List.range n).countP f = n ↔ ∀ o < n, f o = true := by
  have h := List.countP_eq_length (p := f) (l := List.range n)
  simpa only [List.length_range,List.mem_range] using h

theorem countP_range_eq_zero {n : ℕ} : (List.range n).countP f = 0 ↔ ∀ o < n, f o = false := by
  simp [List.countP_eq_zero]

theorem countP_range_add (n k : ℕ) :
    (List.range (n + k)).countP f = (List.range n).countP f + (List.range k).countP (fun o => f (n + o)) := by
  induction k with
  | zero => simp
  | succ k ih =>
    rw [countP_range_succ (fun o => f (n + o)),← Nat.add_assoc,countP_range_succ,ih]
    omega

theorem countP_range_eq_iff {n k : ℕ} (hnk : n ≤ k) :
    (List.range k).countP f = (List.range n).countP f ↔ ∀ o, n ≤ o → o < k → f o = false := by
  obtain ⟨d,rfl⟩ := Nat.exists_eq_add_of_le hnk
  rw [countP_range_add,Nat.add_eq_left,countP_range_eq_zero]
  constructor
  · intro h o hno hok
    have ho := h (o - n) (by omega)
    rwa [Nat.add_sub_cancel' hno] at ho
  · intro h o ho
    exact h (n + o) (by omega) (by omega)

end Counting

/-- The numbers of bits of the numbers below `2 ^ k`. -/
@[grind =] def bitCounts : ℕ → List ℕ
  | 0 => [0]
  | k + 1 => bitCounts k ++ (bitCounts k).map (· + 1)

theorem nbrBitsToOneTable_eq : nbrBitsToOneTable = bitCounts 8 := by
  simp only [bitCounts,List.map_cons,List.map_nil,List.cons_append,List.nil_append,Nat.reduceAdd,zero_add]
  rfl

theorem length_bitCounts (k : ℕ) : (bitCounts k).length = 2 ^ k := by
  induction k with
  | zero => rfl
  | succ k ih =>
    rw [bitCounts,List.length_append,List.length_map,ih,pow_succ]
    omega

theorem getD_bitCounts {k n : ℕ} (hn : n < 2 ^ k) : (bitCounts k).getD n 0 = (List.range k).countP n.testBit := by
  induction k generalizing n with
  | zero =>
    obtain rfl : n = 0 := by simpa using hn
    rfl
  | succ k ih =>
    rw [bitCounts,countP_range_succ]
    rcases Nat.lt_or_ge n (2 ^ k) with hlt | hge
    · rw [List.getD_append _ _ _ _ (by rwa [length_bitCounts]),ih hlt,Nat.testBit_lt_two_pow hlt]
      simp
    · obtain ⟨m,rfl⟩ := Nat.exists_eq_add_of_le hge
      have hm : m < 2 ^ k := by
        rw [pow_succ] at hn
        omega
      have hbits : (List.range k).countP (2 ^ k + m).testBit = (List.range k).countP m.testBit :=
        countP_range_congr _ fun o ho => Nat.testBit_two_pow_add_gt ho m
      have htop : (2 ^ k + m).testBit k = true := by rw [Nat.testBit_two_pow_add_eq,Nat.testBit_lt_two_pow hm]; rfl
      rw [List.getD_append_right _ _ _ _ (by rw [length_bitCounts]; omega),length_bitCounts,Nat.add_sub_cancel_left,
        List.getD_eq_getElem?_getD,List.getElem?_map,hbits,htop,← ih hm,List.getD_eq_getElem?_getD]
      rw [List.getElem?_eq_getElem (by rwa [length_bitCounts])]
      rfl

theorem nbrBitsToOne_eq (b : BitVec 8) : nbrBitsToOne b = (List.range 8).countP (fun k => b.getLsbD k) := by
  rw [nbrBitsToOne,nbrBitsToOneTable_eq,getD_bitCounts b.isLt]
  rfl

theorem countBits_eq (m : Bytes) (nb : ℕ) : countBits m nb = (List.range (8 * nb)).countP (bitAt m) := by
  unfold countBits
  induction nb with
  | zero => simp
  | succ nb ih =>
    rw [List.range_succ,List.foldl_append,ih,Nat.mul_succ,countP_range_add]
    simp only [List.foldl_cons,List.foldl_nil]
    rw [nbrBitsToOne_eq]
    congr 1
    apply countP_range_congr
    intro k hk
    have hd : (8 * nb + k) / 8 = nb := by omega
    have hm : (8 * nb + k) % 8 = k := by omega
    simp only [bitAt,hd,hm]

theorem bitAt_update_setbit (m : Bytes) (o n : ℕ) :
    bitAt (Function.update m (o / 8) (setbit (o % 8) (m (o / 8)))) n = (bitAt m n || decide (n = o)) := by
  unfold bitAt
  by_cases h : n / 8 = o / 8
  · rw [h,Function.update_self,getLsbD_setbit _ (Nat.mod_lt _ (by omega))]
    have hiff : n % 8 = o % 8 ↔ n = o := by omega
    simp only [hiff]
  · have hne : n ≠ o := fun e => h (by rw [e])
    rw [Function.update_of_ne h]
    simp [hne]

def initCount (init : ℕ → Bool) (p n : ℕ) : ℕ := (List.range n).countP (fun o => init (p + o))

structure Tracks (init : ℕ → Bool) (b : Block) : Prop where
  count : b.initBytes = initCount init b.ptr b.size
  bitmap : b.initBytes ≠ 0 → b.initBytes ≠ b.size → ∃ m, b.initPtr = some m ∧
    ∀ o < 8 * neededBytes b.size, bitAt m o = (decide (o < b.size) && init (b.ptr + o))

theorem initCount_congr {init init' : ℕ → Bool} {p p' n : ℕ} (h : ∀ o < n, init (p + o) = init' (p' + o)) :
    initCount init p n = initCount init' p' n := countP_range_congr _ h

theorem Tracks.congr {init init' : ℕ → Bool} {b : Block} (h : Tracks init b)
    (heq : ∀ o < b.size, init (b.ptr + o) = init' (b.ptr + o)) : Tracks init' b := by
  constructor
  · rw [h.count]
    exact initCount_congr heq
  · intro h0 hs
    obtain ⟨m,hm,hbit⟩ := h.bitmap h0 hs
    refine ⟨m,hm,?_⟩
    intro o ho
    rw [hbit o ho]
    by_cases hlt : o < b.size
    · rw [heq o hlt]
    · simp [hlt]

theorem foldl_markByte {base ptr size : ℕ} (m : Bytes) (n : ℕ) (hn : ptr - base + n ≤ size) :
    ∃ m', (List.range n).foldl (markByte base ptr) (m,(List.range size).countP (bitAt m)) =
        (m',(List.range size).countP (bitAt m')) ∧
      ∀ o, bitAt m' o = (bitAt m o || decide (ptr - base ≤ o ∧ o < ptr - base + n)) := by
  induction n with
  | zero =>
    refine ⟨m,rfl,?_⟩
    intro o
    have hno : ¬(ptr - base ≤ o ∧ o < ptr - base + 0) := by omega
    simp only [hno,decide_false,Bool.or_false]
  | succ n ih =>
    obtain ⟨m',hfold,hbit⟩ := ih (by omega)
    rw [List.range_succ,List.foldl_append,hfold]
    simp only [List.foldl_cons,List.foldl_nil,markByte]
    rw [checkbit_eq]
    have hsplit (o : ℕ) : decide (ptr - base ≤ o ∧ o < ptr - base + (n + 1)) =
        (decide (ptr - base ≤ o ∧ o < ptr - base + n) || decide (o = ptr - base + n)) := by
      rw [← Bool.decide_or]
      congr 1
      apply propext
      omega
    by_cases hc : bitAt m' (ptr - base + n) = true
    · refine ⟨m',if_pos hc,?_⟩
      intro o
      rw [hbit o,hsplit,← Bool.or_assoc,← hbit o]
      by_cases ho : o = ptr - base + n
      · rw [ho,hc]
        rfl
      · simp only [ho,decide_false,Bool.or_false]
    · have hf : bitAt m' (ptr - base + n) = false := Bool.eq_false_iff.2 hc
      refine ⟨_,(if_neg hc).trans (Prod.ext rfl ?_),?_⟩
      · rw [← countP_range_insert (bitAt m') (by omega) hf]
        apply countP_range_congr
        intro j _
        exact (bitAt_update_setbit m' _ j).symm
      · intro o
        rw [bitAt_update_setbit,hbit o,hsplit,Bool.or_assoc]

theorem bitAt_memset_zero (m : Bytes) {nb o : ℕ} (ho : o < 8 * nb) : bitAt (memset m 0 nb) o = false := by
  have h : o / 8 < nb := by omega
  simp [bitAt,memset,h]

theorem Tracks.bitmap_initialize {init : ℕ → Bool} {b : Block} (h : Tracks init b) (fresh : Bytes)
    (hs : b.initBytes ≠ b.size) :
    ∃ m, b.initBitmap fresh = some m ∧
      ∀ o < 8 * neededBytes b.size, bitAt m o = (decide (o < b.size) && init (b.ptr + o)) := by
  by_cases h0 : b.initBytes = 0
  · refine ⟨_,if_pos h0,?_⟩
    intro o ho
    rw [bitAt_memset_zero fresh ho]
    have hz : ∀ o < b.size, init (b.ptr + o) = false := (countP_range_eq_zero _).1 (h.count.symm.trans h0)
    by_cases hlt : o < b.size
    · rw [hz o hlt,Bool.and_false]
    · simp [hlt]
  · obtain ⟨m,hm,hbit⟩ := h.bitmap h0 hs
    exact ⟨m,(if_neg h0).trans hm,hbit⟩

theorem Tracks.count_bitmap {init : ℕ → Bool} {p n : ℕ} {m : Bytes}
    (hbit : ∀ o < 8 * neededBytes n, bitAt m o = (decide (o < n) && init (p + o))) :
    (List.range n).countP (bitAt m) = initCount init p n := by
  apply countP_range_congr
  intro o ho
  rw [hbit o (lt_of_lt_of_le ho (le_neededBytes n))]
  simp [ho]

theorem Tracks.initializeBytes {init : ℕ → Bool} {b : Block} (h : Tracks init b) (fresh : Bytes) {p n : ℕ}
    (hp : b.ptr ≤ p) (hn : p + n ≤ b.ptr + b.size) :
    ∃ b', b.initializeBytes fresh p n = some b' ∧ b'.ptr = b.ptr ∧ b'.size = b.size ∧ Tracks (mark init p n) b' := by
  unfold Block.initializeBytes
  by_cases hs : b.initBytes = b.size
  · refine ⟨b,if_pos hs,rfl,rfl,?_⟩
    apply h.congr
    intro o ho
    have hall : ∀ o < b.size, init (b.ptr + o) = true := (countP_range_eq_self _).1 (h.count.symm.trans hs)
    simp [mark,hall o ho]
  · obtain ⟨m,hm,hbit⟩ := h.bitmap_initialize fresh hs
    have hcount : b.initBytes = (List.range b.size).countP (bitAt m) :=
      h.count.trans (Tracks.count_bitmap hbit).symm
    obtain ⟨m',hfold,hbit'⟩ := @foldl_markByte b.ptr p b.size m n (by omega)
    rw [← hcount] at hfold
    have hmark : ∀ o < 8 * neededBytes b.size, bitAt m' o = (decide (o < b.size) && mark init p n (b.ptr + o)) := by
      intro o ho
      have hiff : (p - b.ptr ≤ o ∧ o < p - b.ptr + n) ↔ (p ≤ b.ptr + o ∧ b.ptr + o < p + n) := by omega
      rw [hbit' o,hbit o ho]
      simp only [mark,hiff]
      by_cases hlt : o < b.size
      · simp [hlt]
      · have hno : ¬(p ≤ b.ptr + o ∧ b.ptr + o < p + n) := by omega
        simp [hlt,hno]
    simp only [hs,if_false,hm,Option.map_some,hfold]
    have hc := Tracks.count_bitmap hmark
    by_cases hfull : (List.range b.size).countP (bitAt m') = b.size
    · refine ⟨_,congrArg some (if_pos hfull),rfl,rfl,hc,?_⟩
      intro _ hne
      exact absurd hfull hne
    · exact ⟨_,congrArg some (if_neg hfull),rfl,rfl,hc,fun _ _ => ⟨m',rfl,hmark⟩⟩

theorem Tracks.initialized {init : ℕ → Bool} {b : Block} (h : Tracks init b) {p n : ℕ}
    (hp : b.ptr ≤ p) (hn : p + n ≤ b.ptr + b.size) (hpos : 1 ≤ n) :
    b.initialized p n = some (decide (∀ i < n, init (p + i) = true)) := by
  unfold Block.initialized
  have hoff (i : ℕ) : p + i = b.ptr + (p - b.ptr + i) := by omega
  by_cases h0 : b.initBytes = 0
  · have hz : ∀ o < b.size, init (b.ptr + o) = false := (countP_range_eq_zero _).1 (h.count.symm.trans h0)
    have hno : ¬∀ i < n, init (p + i) = true := by
      intro hall
      have h1 := hall 0 (by omega)
      rw [hoff,hz _ (by omega)] at h1
      exact Bool.false_ne_true h1
    rw [if_pos h0,decide_eq_false hno]
  · rw [if_neg h0]
    by_cases hs : b.initBytes = b.size
    · have hall : ∀ o < b.size, init (b.ptr + o) = true := (countP_range_eq_self _).1 (h.count.symm.trans hs)
      have hyes : ∀ i < n, init (p + i) = true := by
        intro i hi
        rw [hoff]
        exact hall _ (by omega)
      rw [if_pos hs,decide_eq_true hyes]
    · obtain ⟨m,hm,hbit⟩ := h.bitmap h0 hs
      rw [if_neg hs,hm]
      apply congrArg some
      rw [Bool.eq_iff_iff,List.all_eq_true,decide_eq_true_iff]
      simp only [List.mem_range]
      apply forall₂_congr
      intro i hi
      have hlt : p - b.ptr + i < b.size := by omega
      have hbi := hbit _ (lt_of_lt_of_le hlt (le_neededBytes b.size))
      rw [checkbit_eq,hoff i]
      simp only [bitAt,hlt,decide_true,Bool.true_and] at hbi
      rw [hbi]

/-- No byte is initialized between the new end of the block and the end of the last byte of its bitmap, unless
the whole block is. -/
def TailClear (init : ℕ → Bool) (p old size : ℕ) : Prop :=
  (∀ o < old, init (p + o) = true) ∨ ∀ o, size ≤ o → o < 8 * neededBytes size → o < old → init (p + o) = false

theorem bitAt_resized {init : ℕ → Bool} {p old size : ℕ} {m : Bytes} (fresh : Bytes)
    (hbit : ∀ o < 8 * neededBytes old, bitAt m o = (decide (o < old) && init (p + o))) {o : ℕ}
    (ho : o < 8 * neededBytes size) :
    bitAt (fun i => if neededBytes old ≤ i ∧ i < neededBytes size then 0
      else privateRealloc m fresh (neededBytes old) (neededBytes size) i) o = (decide (o < old) && init (p + o)) := by
  have hnew : o / 8 < neededBytes size := by omega
  by_cases h : o < 8 * neededBytes old
  · have hold : o / 8 < neededBytes old := by omega
    have hin : ¬(neededBytes old ≤ o / 8 ∧ o / 8 < neededBytes size) := by omega
    rw [← hbit o h]
    simp only [bitAt,privateRealloc,hin,if_false,lt_min hold hnew,if_true]
  · have hin : neededBytes old ≤ o / 8 ∧ o / 8 < neededBytes size := by omega
    have hge : ¬o < old := by
      have := le_neededBytes old
      omega
    simp [bitAt,hin,hge]

theorem Tracks.resize_uninitialized {init : ℕ → Bool} {b : Block} (h : Tracks init b) (h0 : b.initBytes = 0)
    (res size : ℕ) : Tracks (reallocInit init b.ptr b.size res size)
      { b with ptr := res, size := size, isFreeable := true } := by
  have hz : ∀ o < b.size, init (b.ptr + o) = false := (countP_range_eq_zero _).1 (h.count.symm.trans h0)
  refine ⟨?_,fun hne _ => absurd h0 hne⟩
  apply h0.trans
  symm
  apply (countP_range_eq_zero _).2
  intro o ho
  rw [reallocInit_add _ _ _ _ ho]
  by_cases hlt : o < b.size
  · rw [hz o hlt,Bool.and_false]
  · simp [hlt]

theorem Tracks.resize_smaller {init : ℕ → Bool} {b : Block} (h : Tracks init b) (hs : b.initBytes = b.size)
    (res : ℕ) {size : ℕ} (hle : size ≤ b.size) : Tracks (reallocInit init b.ptr b.size res size)
      { b with ptr := res, initBytes := size, size := size, isFreeable := true } := by
  have hall : ∀ o < b.size, init (b.ptr + o) = true := (countP_range_eq_self _).1 (h.count.symm.trans hs)
  refine ⟨?_,fun _ hne => absurd rfl hne⟩
  symm
  apply (countP_range_eq_self _).2
  intro o ho
  have hlt : o < b.size := lt_of_lt_of_le ho hle
  rw [reallocInit_add _ _ _ _ ho,hall o hlt]
  simp [hlt]

theorem Tracks.resize_larger {init : ℕ → Bool} {b : Block} (h : Tracks init b) (hs : b.initBytes = b.size)
    (fresh : Bytes) (res : ℕ) {size : ℕ} (hlt : b.size < size) :
    Tracks (reallocInit init b.ptr b.size res size)
      { b with ptr := res, initPtr := some (setbits b.size (memset fresh 0 (neededBytes size)) 0), size := size,
               isFreeable := true } := by
  have hall : ∀ o < b.size, init (b.ptr + o) = true := (countP_range_eq_self _).1 (h.count.symm.trans hs)
  have hbit : ∀ o < 8 * neededBytes size, bitAt (setbits b.size (memset fresh 0 (neededBytes size)) 0) o =
      (decide (o < size) && reallocInit init b.ptr b.size res size (res + o)) := by
    intro o ho
    rw [bitAt_setbits,bitAt_memset_zero fresh ho]
    by_cases hold : o < b.size
    · have hnew : o < size := by omega
      rw [reallocInit_add _ _ _ _ hnew,hall o hold]
      simp [hold,hnew]
    · by_cases hnew : o < size
      · rw [reallocInit_add _ _ _ _ hnew]
        simp [hold]
      · simp [hold,hnew]
  refine ⟨?_,fun _ _ => ⟨_,rfl,hbit⟩⟩
  have hcount := (countP_range_eq_iff (fun o => decide (o < b.size)) (le_of_lt hlt)).2 (by
    intro o ho _
    exact decide_eq_false (by omega))
  have hself : (List.range b.size).countP (fun o => decide (o < b.size)) = b.size :=
    (countP_range_eq_self _).2 fun o ho => decide_eq_true ho
  calc b.initBytes = b.size := hs
    _ = (List.range size).countP (fun o => decide (o < b.size)) := (hcount.trans hself).symm
    _ = initCount (reallocInit init b.ptr b.size res size) res size := by
      apply countP_range_congr
      intro o ho
      rw [reallocInit_add _ _ _ _ ho]
      by_cases hold : o < b.size
      · rw [hall o hold]
        simp [hold]
      · simp [hold]

theorem Tracks.resize {init : ℕ → Bool} {b : Block} (h : Tracks init b) (fresh : Bytes) (res size : ℕ) :
    ∃ b', ({ b with ptr := res } : Block).resize fresh size = some b' ∧ b'.ptr = res ∧ b'.size = size ∧
      (TailClear init b.ptr b.size size → Tracks (reallocInit init b.ptr b.size res size) b') ∧
      (¬TailClear init b.ptr b.size size → b'.initBytes ≠ initCount (reallocInit init b.ptr b.size res size) res size) := by
  unfold Block.resize
  by_cases h0 : b.initBytes = 0
  · have ht := h.resize_uninitialized h0 res size
    refine ⟨_,if_pos h0,rfl,rfl,fun _ => ht,?_⟩
    intro htail
    have hz : ∀ o < b.size, init (b.ptr + o) = false := (countP_range_eq_zero _).1 (h.count.symm.trans h0)
    exact absurd (Or.inr fun o _ _ ho => hz o ho) htail
  · simp only [h0,if_false]
    by_cases hs : b.initBytes = b.size
    · have hall : ∀ o < b.size, init (b.ptr + o) = true := (countP_range_eq_self _).1 (h.count.symm.trans hs)
      simp only [hs,if_true]
      by_cases hle : size ≤ b.size
      · exact ⟨_,if_pos hle,rfl,rfl,fun _ => h.resize_smaller hs res hle,fun htail => absurd (Or.inl hall) htail⟩
      · refine ⟨_,if_neg hle,rfl,rfl,fun _ => ?_,fun htail => absurd (Or.inl hall) htail⟩
        have ht := h.resize_larger hs fresh res (Nat.lt_of_not_le hle)
        rwa [hs] at ht
    · obtain ⟨m,hm,hbit⟩ := h.bitmap h0 hs
      simp only [hs,if_false,hm,Option.map_some]
      have hbit' := @bitAt_resized init b.ptr b.size size m fresh hbit
      generalize (fun i => if neededBytes b.size ≤ i ∧ i < neededBytes size then 0
        else privateRealloc m fresh (neededBytes b.size) (neededBytes size) i) = m' at hbit' ⊢
      -- the recount and the real number are those of the old bytes in two ranges
      have hreal : initCount (reallocInit init b.ptr b.size res size) res size =
          (List.range size).countP (fun o => decide (o < b.size) && init (b.ptr + o)) := by
        apply countP_range_congr
        intro o ho
        exact reallocInit_add _ _ _ _ ho
      have hcount : countBits m' (neededBytes size) =
          (List.range (8 * neededBytes size)).countP (fun o => decide (o < b.size) && init (b.ptr + o)) := by
        rw [countBits_eq]
        apply countP_range_congr
        intro o ho
        exact hbit' ho
      have hpart : ¬∀ o < b.size, init (b.ptr + o) = true := fun hall =>
        hs (h.count.trans ((countP_range_eq_self _).2 hall))
      have hiff : countBits m' (neededBytes size) = initCount (reallocInit init b.ptr b.size res size) res size ↔
          TailClear init b.ptr b.size size := by
        rw [hcount,hreal,countP_range_eq_iff _ (le_neededBytes size)]
        simp only [TailClear,hpart,false_or]
        apply forall_congr'
        intro o
        apply forall₂_congr
        intro _ _
        by_cases hlt : o < b.size
        · simp [hlt]
        · simp [hlt]
      by_cases hdrop : countBits m' (neededBytes size) = size ∨ countBits m' (neededBytes size) = 0
      · refine ⟨_,congrArg some (if_pos hdrop),rfl,rfl,fun htail => ⟨hiff.2 htail,?_⟩,fun htail e => htail (hiff.1 e)⟩
        intro hne hne'
        exact absurd hdrop (not_or.2 ⟨hne',hne⟩)
      · refine ⟨_,congrArg some (if_neg hdrop),rfl,rfl,fun htail => ⟨hiff.2 htail,?_⟩,fun htail e => htail (hiff.1 e)⟩
        intro _ _
        refine ⟨m',rfl,?_⟩
        intro o ho
        rw [hbit' ho]
        by_cases hnew : o < size
        · rw [reallocInit_add _ _ _ _ hnew]
          simp [hnew]
        · by_cases hlt : o < b.size
          · rw [htail.resolve_left hpart o (by omega) ho hlt]
            simp [hnew]
          · simp [hnew,hlt]

end FramaC.EAcsl.Bittree
