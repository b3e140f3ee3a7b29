import FramaC.EAcsl.Segment.Static

/-! # Runs over static blocks

The shadows encode the tracked blocks and their initialized bytes in every state of a run, so that the queries are
exact. What `shadow_freea` leaves behind is nothing for a block with bytes, and the marker of an empty block.
-/
namespace FramaC.EAcsl.Segment

/-- The shadow bytes of a block of `n` bytes at `b`. -/
structure Encodes (s : Shadow) (init : ℕ → Bool) (b n : ℕ) : Prop where
  marker : n = 0 → s.primary b = 2
  code : ∀ i < n, s.primary (b + i) >>> 2 = BitVec.ofNat 8 (blockCode n i)
  init : ∀ i < n, (s.primary (b + i)).getLsbD 0 = init (b + i)
  long : longBlock < n → ∀ k < n / 8, load32 s.secondary (b + 8 * k) = BitVec.ofNat 32 n ∧
    load32 s.secondary (b + 8 * k + 4) = BitVec.ofNat 32 (8 * k)

theorem Encodes.congr {s s' : Shadow} {init init' : ℕ → Bool} {b n : ℕ} (h : Encodes s init b n)
    (hp : ∀ x, b ≤ x → x < b + max n 1 → s'.primary x = s.primary x)
    (hs : ∀ x, b ≤ x → x < b + n → s'.secondary x = s.secondary x)
    (hi : ∀ x, b ≤ x → x < b + n → init' x = init x) : Encodes s' init' b n := by
  constructor
  · intro h0
    rw [hp b (le_refl b) (by omega)]
    exact h.marker h0
  · intro i hin
    rw [hp (b + i) (by omega) (by omega)]
    exact h.code i hin
  · intro i hin
    rw [hp (b + i) (by omega) (by omega),hi (b + i) (by omega) (by omega)]
    exact h.init i hin
  · intro hl k hk
    obtain ⟨h₁,h₂⟩ := h.long hl k hk
    constructor
    · rw [← h₁]
      apply load32_congr
      intro j hj
      exact hs _ (by omega) (by omega)
    · rw [← h₂]
      apply load32_congr
      intro j hj
      exact hs _ (by omega) (by omega)

section Alloca

variable (ptr size : ℕ)

theorem foldl_setLongSegment (s : Shadow) (k : ℕ) (s' : Shadow)
    (h : s' = (List.range k).foldl (setLongSegment ptr size) s) :
    (∀ x, s'.primary x = if ptr ≤ x ∧ x < ptr + 8 * k then
      BitVec.ofNat 8 (longBlockIndexStart + (x - ptr) % longBlock) <<< 2 else s.primary x) ∧
    (∀ x, ¬(ptr ≤ x ∧ x < ptr + 8 * k) → s'.secondary x = s.secondary x) ∧
    ∀ j < k, load32 s'.secondary (ptr + 8 * j) = BitVec.ofNat 32 size ∧
      load32 s'.secondary (ptr + 8 * j + 4) = BitVec.ofNat 32 (8 * j) := by
  induction k generalizing s' with
  | zero =>
    subst h
    refine ⟨fun x => ?_,fun x _ => rfl,fun j hj => absurd hj (Nat.not_lt_zero j)⟩
    have hno : ¬(ptr ≤ x ∧ x < ptr + 8 * 0) := by omega
    rw [if_neg hno]
  | succ k ih =>
    rw [List.range_succ,List.foldl_append,List.foldl_cons,List.foldl_nil] at h
    generalize (List.range k).foldl (setLongSegment ptr size) s = t at h ih
    obtain ⟨hp,hs,hl⟩ := ih t rfl
    have hsec : ∀ x, ¬(ptr + 8 * k ≤ x ∧ x < ptr + 8 * k + 8) → s'.secondary x = t.secondary x := by
      intro x hx
      have h₁ : ¬(ptr + 8 * k + 4 ≤ x ∧ x < ptr + 8 * k + 4 + 4) := by omega
      have h₂ : ¬(ptr + 8 * k ≤ x ∧ x < ptr + 8 * k + 4) := by omega
      simp only [h,setLongSegment,store32,h₁,h₂,if_false]
    refine ⟨?_,?_,?_⟩
    · intro x
      rw [h]
      simp only [setLongSegment,store64]
      by_cases hin : ptr + 8 * k ≤ x ∧ x < ptr + 8 * k + 8
      · have hnew : ptr ≤ x ∧ x < ptr + 8 * (k + 1) := by omega
        have hj : x - (ptr + 8 * k) < 8 := by omega
        have hmod : (x - ptr) % longBlock = x - (ptr + 8 * k) := by
          simp only [longBlock]
          omega
        rw [if_pos hin,if_pos hnew,longBlockMask_byte hj,hmod]
      · have hiff : (ptr ≤ x ∧ x < ptr + 8 * k) ↔ (ptr ≤ x ∧ x < ptr + 8 * (k + 1)) := by omega
        rw [if_neg hin,hp x]
        simp only [hiff]
    · intro x hx
      rw [hsec x (by omega),hs x (by omega)]
    · intro j hj
      by_cases hjk : j = k
      · subst hjk
        constructor
        · rw [h]
          apply (load32_congr _).trans (load32_store32 t.secondary (ptr + 8 * j) _)
          intro i hi
          have hno : ¬(ptr + 8 * j + 4 ≤ ptr + 8 * j + i ∧ ptr + 8 * j + i < ptr + 8 * j + 4 + 4) := by omega
          simp only [setLongSegment]
          exact if_neg hno
        · rw [h]
          exact load32_store32 _ _ _
      · obtain ⟨h₁,h₂⟩ := hl j (by omega)
        constructor
        · rw [← h₁]
          apply load32_congr
          intro i hi
          exact hsec _ (by omega)
        · rw [← h₂]
          apply load32_congr
          intro i hi
          exact hsec _ (by omega)

theorem foldl_setPrimary (s : Shadow) (start k : ℕ) (v : ℕ → BitVec 8) :
    (List.range k).foldl (fun s i => s.setPrimary (start + i) (v i)) s =
      { s with primary := fun x => if start ≤ x ∧ x < start + k then v (x - start) else s.primary x } := by
  induction k with
  | zero =>
    have hno (x : ℕ) : ¬(start ≤ x ∧ x < start + 0) := by omega
    simp only [List.range_zero,List.foldl_nil,hno,if_false]
  | succ k ih =>
    rw [List.range_succ,List.foldl_append,List.foldl_cons,List.foldl_nil,ih,Shadow.setPrimary]
    congr 1
    funext x
    by_cases hx : x = start + k
    · subst hx
      have hin : start ≤ start + k ∧ start + k < start + (k + 1) := by omega
      rw [Function.update_self,if_pos hin,Nat.add_sub_cancel_left]
    · have hiff : (start ≤ x ∧ x < start + k) ↔ (start ≤ x ∧ x < start + (k + 1)) := by omega
      rw [Function.update_of_ne hx]
      simp only [hiff]

theorem shadowAlloca_spec (s : Shadow) (h : 1 ≤ size) :
    (∀ x, (shadowAlloca s ptr size).primary x = if ptr ≤ x ∧ x < ptr + size then
      BitVec.ofNat 8 (blockCode size (x - ptr)) <<< 2 else s.primary x) ∧
    (∀ x, ¬(ptr ≤ x ∧ x < ptr + size) → (shadowAlloca s ptr size).secondary x = s.secondary x) ∧
    (longBlock < size → ∀ k < size / 8,
      load32 (shadowAlloca s ptr size).secondary (ptr + 8 * k) = BitVec.ofNat 32 size ∧
      load32 (shadowAlloca s ptr size).secondary (ptr + 8 * k + 4) = BitVec.ofNat 32 (8 * k)) := by
  have h0 : size ≠ 0 := by omega
  by_cases hl : size > longBlock
  · have hbound : longBlockBoundary size / longBlock = size / 8 := by
      simp only [longBlockBoundary,longBlock]
      omega
    have hb : longBlockBoundary size = 8 * (size / 8) := by
      simp only [longBlockBoundary,longBlock]
      omega
    have hrem : shadowAlloca s ptr size = (List.range (size - longBlockBoundary size)).foldl
        (setLongRemainder ptr (longBlockBoundary size))
        ((List.range (size / 8)).foldl (setLongSegment ptr size) s) := by
      simp only [shadowAlloca,h0,if_false,isLongBlock,hl,decide_true,if_true,hbound]
    have hstep : setLongRemainder ptr (longBlockBoundary size) = fun s i =>
        s.setPrimary (ptr + longBlockBoundary size + i)
          (BitVec.ofNat 8 ((longBlockBoundary size + i) % longBlock + longBlockIndexStart + longBlock) <<< 2) := by
      funext s i
      rw [setLongRemainder,Nat.add_assoc ptr]
    obtain ⟨hp,hs,hlong⟩ := foldl_setLongSegment ptr size s (size / 8) _ rfl
    rw [hstep,foldl_setPrimary] at hrem
    rw [hrem]
    refine ⟨?_,?_,fun _ => hlong⟩
    · intro x
      by_cases htail : ptr + longBlockBoundary size ≤ x ∧ x < ptr + longBlockBoundary size + (size - longBlockBoundary size)
      · have hin : ptr ≤ x ∧ x < ptr + size := by omega
        have hnb : ¬x - ptr < longBlockBoundary size := by omega
        have hnl : ¬size ≤ longBlock := by omega
        have hx : longBlockBoundary size + (x - (ptr + longBlockBoundary size)) = x - ptr := by omega
        simp only [htail,and_self,if_true,hin,blockCode,hnb,hnl,if_false,hx]
        congr 2
        omega
      · simp only [htail,if_false]
        rw [hp x]
        by_cases hseg : ptr ≤ x ∧ x < ptr + 8 * (size / 8)
        · have hin : ptr ≤ x ∧ x < ptr + size := by omega
          have hnb : x - ptr < longBlockBoundary size := by omega
          have hnl : ¬size ≤ longBlock := by omega
          simp only [hseg,and_self,if_true,hin,blockCode,hnb,hnl,if_false]
        · have hin : ¬(ptr ≤ x ∧ x < ptr + size) := by omega
          simp only [hseg,hin,if_false]
    · intro x hx
      exact hs x (by omega)
  · have hshort : shadowAlloca s ptr size = (List.range size).foldl (setShort ptr size) s := by
      simp only [shadowAlloca,h0,if_false,isLongBlock,hl,decide_false,Bool.false_eq_true]
    have hstep : setShort ptr size = fun s i =>
        s.setPrimary (ptr + i) (BitVec.ofNat 8 (shortOffsetsBase.getD size 0 + i) <<< 2) := rfl
    rw [hstep,foldl_setPrimary] at hshort
    rw [hshort]
    refine ⟨?_,fun _ _ => rfl,fun hlong => absurd hlong hl⟩
    intro x
    have hle : size ≤ longBlock := by omega
    simp only [blockCode,hle,if_true]

end Alloca

/-- Length and offset, as the queries read them from the shadows of an address. -/
def decode (s : Shadow) (addr : ℕ) : ℕ × ℕ :=
  let code := (s.primary addr >>> 2).toNat
  if longBlockIndexStart ≤ code then
    let offset := code - longBlockIndexStart
    ((load32 s.secondary (addr - offset)).toNat,(load32 s.secondary (addr - offset + 4)).toNat + offset)
  else (shortLengths.getD code 0,shortOffsets.getD code 0)

theorem staticInfo_base {s : Shadow} {addr : ℕ} (h : s.primary addr ≠ 0) :
    staticInfo s addr .base = addr - (decode s addr).2 := by
  simp only [staticInfo,decode,h,ne_eq,not_false_eq_true,if_true]
  split
  · omega
  · rfl

theorem staticInfo_offset {s : Shadow} {addr : ℕ} (h : s.primary addr ≠ 0) :
    staticInfo s addr .offset = (decode s addr).2 := by
  simp only [staticInfo,decode,h,ne_eq,not_false_eq_true,if_true]
  split <;> rfl

theorem staticInfo_length {s : Shadow} {addr : ℕ} (h : s.primary addr ≠ 0) :
    staticInfo s addr .length = (decode s addr).1 := by
  simp only [staticInfo,decode,h,ne_eq,not_false_eq_true,if_true]
  split <;> rfl

theorem staticAllocated_eq {s : Shadow} {addr : ℕ} (h : s.primary addr ≠ 0) (size basePtr : ℕ) :
    staticAllocated s addr size basePtr =
      if addr ≠ basePtr then belongs basePtr (addr - (decode s addr).2) (decode s addr).1 &&
        decide ((decode s addr).2 + size ≤ (decode s addr).1)
      else decide ((decode s addr).2 + size ≤ (decode s addr).1) := by
  simp only [staticAllocated,h,ne_eq,not_false_eq_true,if_true]
  rfl

theorem short_decode {n i : ℕ} (hn : n ≤ longBlock) (hi : i < n) :
    1 ≤ shortOffsetsBase.getD n 0 + i ∧ shortOffsetsBase.getD n 0 + i < longBlockIndexStart ∧
      shortLengths.getD (shortOffsetsBase.getD n 0 + i) 0 = n ∧ shortOffsets.getD (shortOffsetsBase.getD n 0 + i) 0 = i := by
  have hall : ∀ n : Fin 9, ∀ i : Fin 8, (i : ℕ) < n →
      1 ≤ shortOffsetsBase.getD n 0 + i ∧ shortOffsetsBase.getD n 0 + i < longBlockIndexStart ∧
        shortLengths.getD (shortOffsetsBase.getD n 0 + i) 0 = n ∧
        shortOffsets.getD (shortOffsetsBase.getD n 0 + i) 0 = i := by decide
  have hn' : n ≤ 8 := hn
  exact hall ⟨n,by omega⟩ ⟨i,by omega⟩ hi

theorem blockCode_bounds {n i : ℕ} (hi : i < n) : 1 ≤ blockCode n i ∧ blockCode n i < 64 := by
  unfold blockCode
  by_cases hn : n ≤ longBlock
  · obtain ⟨h₁,h₂,_⟩ := short_decode hn hi
    rw [if_pos hn]
    simp only [longBlockIndexStart] at h₂
    omega
  · rw [if_neg hn]
    simp only [longBlockIndexStart,longBlock]
    split <;> omega

theorem Encodes.toNat_code {s : Shadow} {init : ℕ → Bool} {b n i : ℕ} (h : Encodes s init b n) (hi : i < n) :
    (s.primary (b + i) >>> 2).toNat = blockCode n i := by
  have := (blockCode_bounds hi).2
  rw [h.code i hi,BitVec.toNat_ofNat]
  exact Nat.mod_eq_of_lt (by omega)

theorem Encodes.primary_ne_zero {s : Shadow} {init : ℕ → Bool} {b n i : ℕ} (h : Encodes s init b n) (hi : i < n) :
    s.primary (b + i) ≠ 0 := by
  intro h0
  have hc := h.toNat_code hi
  rw [h0] at hc
  have := (blockCode_bounds hi).1
  simp at hc
  omega

theorem Encodes.toNat_long {s : Shadow} {init : ℕ → Bool} {b n k : ℕ} (h : Encodes s init b n) (hn : n < 2 ^ 31)
    (hl : longBlock < n) (hk : k < n / 8) : (load32 s.secondary (b + 8 * k)).toNat = n ∧
      (load32 s.secondary (b + 8 * k + 4)).toNat = 8 * k := by
  obtain ⟨h₁,h₂⟩ := h.long hl k hk
  rw [h₁,h₂,BitVec.toNat_ofNat,BitVec.toNat_ofNat]
  constructor
  · exact Nat.mod_eq_of_lt (by omega)
  · exact Nat.mod_eq_of_lt (by omega)

theorem Encodes.decode {s : Shadow} {init : ℕ → Bool} {b n i : ℕ} (h : Encodes s init b n) (hn : n < 2 ^ 31)
    (hi : i < n) : decode s (b + i) = (n,i) := by
  simp only [Segment.decode,h.toNat_code hi]
  by_cases hs : n ≤ longBlock
  · obtain ⟨_,hlt,hlen,hoff⟩ := short_decode hs hi
    have hcode : blockCode n i = shortOffsetsBase.getD n 0 + i := if_pos hs
    rw [hcode,if_neg (Nat.not_le.2 hlt),hlen,hoff]
  · have hl : longBlock < n := Nat.lt_of_not_le hs
    have hl8 : 8 < n := hl
    by_cases hb : i < longBlockBoundary n
    · have hcode : blockCode n i = longBlockIndexStart + i % 8 := (if_neg hs).trans (if_pos hb)
      have hk : i / 8 < n / 8 := by
        simp only [longBlockBoundary,longBlock] at hb
        omega
      have haddr : b + i - i % 8 = b + 8 * (i / 8) := by omega
      obtain ⟨h₁,h₂⟩ := h.toNat_long hn hl hk
      rw [hcode,if_pos (Nat.le_add_right _ _),Nat.add_sub_cancel_left,haddr,h₁,h₂]
      congr 1
      omega
    · have hcode : blockCode n i = longBlockIndexStart + (8 + i % 8) :=
        (if_neg hs).trans ((if_neg hb).trans (Nat.add_assoc _ _ _))
      have hib : i / 8 = n / 8 := by
        simp only [longBlockBoundary,longBlock] at hb
        omega
      have haddr : b + i - (8 + i % 8) = b + 8 * (n / 8 - 1) := by omega
      obtain ⟨h₁,h₂⟩ := h.toNat_long hn hl (show n / 8 - 1 < n / 8 by omega)
      rw [hcode,if_pos (Nat.le_add_right _ _),Nat.add_sub_cancel_left,haddr,h₁,h₂]
      congr 1
      omega

theorem staticInitMask_getLsbD {rem k : ℕ} (hr : rem < 9) (hk : k < 64) :
    (staticInitMasks.getD rem 0).getLsbD k = decide (k % 8 = 0 ∧ k / 8 < rem) := by
  have hbyte := staticInitMasks_table ⟨rem,hr⟩ ⟨k / 8,by omega⟩
  have hbit : (staticInitMasks.getD rem 0).getLsbD k =
      ((staticInitMasks.getD rem 0).extractLsb' (8 * (k / 8)) 8).getLsbD (k % 8) := by
    have hlt : k % 8 < 8 := by omega
    have hsum : 8 * (k / 8) + k % 8 = k := by omega
    rw [BitVec.getLsbD_extractLsb',hsum]
    simp [hlt]
  have hone : ∀ j : Fin 8, (1 : BitVec 8).getLsbD j = decide ((j : ℕ) = 0) := by decide
  simp only at hbyte
  rw [hbit,hbyte]
  by_cases h : k / 8 < rem
  · rw [if_pos h,hone ⟨k % 8,by omega⟩]
    simp [h]
  · simp [h]

theorem and_mask_iff (m : Bytes) (a : ℕ) {rem : ℕ} (hr : rem < 9) :
    (load64 m a &&& staticInitMasks.getD rem 0 == staticInitMasks.getD rem 0) = true ↔
      ∀ j < rem, (m (a + j)).getLsbD 0 = true := by
  rw [beq_iff_eq]
  have hbit (j : ℕ) (hj : j < 8) : (load64 m a).getLsbD (8 * j) = (m (a + j)).getLsbD 0 := by
    have hd : (8 * a + 8 * j) / 8 = a + j := by omega
    have hm : (8 * a + 8 * j) % 8 = 0 := by omega
    rw [getLsbD_load64 m a (by omega),bitAt,hd,hm]
  constructor
  · intro h j hj
    have hk : 8 * j < 64 := by omega
    have hmask := staticInitMask_getLsbD hr hk
    have hin : 8 * j % 8 = 0 ∧ 8 * j / 8 < rem := by omega
    have hand := congrArg (fun w => w.getLsbD (8 * j)) h
    simp only [BitVec.getLsbD_and,hmask,hin,and_self,decide_true,Bool.and_true,hbit j (by omega)] at hand
    exact hand
  · intro h
    apply BitVec.eq_of_getLsbD_eq
    intro k hk
    rw [BitVec.getLsbD_and,staticInitMask_getLsbD hr hk]
    by_cases hin : k % 8 = 0 ∧ k / 8 < rem
    · have hk8 : 8 * (k / 8) = k := by omega
      have hset := h (k / 8) hin.2
      rw [← hbit (k / 8) (by omega),hk8] at hset
      simp [hset]
    · simp [hin]

/-- What the queries answer for an address of a block of `n` bytes. -/
structure AnswersAt (s : Shadow) (init : ℕ → Bool) (b n i : ℕ) : Prop where
  base : staticInfo s (b + i) .base = b
  offset : staticInfo s (b + i) .offset = i
  length : staticInfo s (b + i) .length = n
  allocated : ∀ size p, staticAllocated s (b + i) size p = true ↔ i + size ≤ n ∧ b ≤ p ∧ p < b + n
  initialized : ∀ size, 1 ≤ size →
    (staticInitialized s (b + i) size = true ↔ i + size ≤ n ∧ ∀ j < size, init (b + i + j) = true)

theorem Encodes.allocated_iff {s : Shadow} {init : ℕ → Bool} {b n i : ℕ} (h : Encodes s init b n) (hn : n < 2 ^ 31)
    (hi : i < n) (size p : ℕ) : staticAllocated s (b + i) size p = true ↔ i + size ≤ n ∧ b ≤ p ∧ p < b + n := by
  rw [staticAllocated_eq (h.primary_ne_zero hi),h.decode hn hi]
  simp only [belongs,Nat.add_sub_cancel]
  by_cases hp : b + i = p
  · rw [if_neg (not_not.2 hp),decide_eq_true_iff]
    omega
  · rw [if_pos hp,Bool.and_eq_true,decide_eq_true_iff,decide_eq_true_iff]
    omega

theorem Encodes.initialized_iff {s : Shadow} {init : ℕ → Bool} {b n i : ℕ} (h : Encodes s init b n) (hn : n < 2 ^ 31)
    (hi : i < n) (size : ℕ) :
    staticInitialized s (b + i) size = true ↔ i + size ≤ n ∧ ∀ j < size, init (b + i + j) = true := by
  have hall := h.allocated_iff hn hi size (b + i)
  unfold staticInitialized
  by_cases hin : i + size ≤ n
  · have hyes : staticAllocated s (b + i) size (b + i) = true := hall.2 (by omega)
    rw [if_pos hyes,List.all_eq_true]
    simp only [List.mem_range,and_mask_iff _ _ (remaining_le size _),hin,true_and]
    have hinit (j : ℕ) (hj : j < size) : (s.primary (b + i + j)).getLsbD 0 = init (b + i + j) := by
      have hij := h.init (i + j) (by omega)
      rwa [← Nat.add_assoc] at hij
    constructor
    · intro hw j hj
      have hword := hw (j / 8) (by omega) (j % 8) (by unfold remaining; split <;> omega)
      have haddr : b + i + 8 * (j / 8) + j % 8 = b + i + j := by omega
      rwa [haddr,hinit j hj] at hword
    · intro hset k hk j hj
      have hlt : 8 * k + j < size := by
        unfold remaining at hj
        split at hj <;> omega
      rw [Nat.add_assoc (b + i),hinit _ hlt]
      exact hset _ hlt
  · have hno : ¬staticAllocated s (b + i) size (b + i) = true := fun hy => hin (hall.1 hy).1
    rw [if_neg hno]
    simp [hin]

theorem Encodes.answers {s : Shadow} {init : ℕ → Bool} {b n i : ℕ} (h : Encodes s init b n) (hn : n < 2 ^ 31)
    (hi : i < n) : AnswersAt s init b n i where
  base := by rw [staticInfo_base (h.primary_ne_zero hi),h.decode hn hi,Nat.add_sub_cancel]
  offset := by rw [staticInfo_offset (h.primary_ne_zero hi),h.decode hn hi]
  length := by rw [staticInfo_length (h.primary_ne_zero hi),h.decode hn hi]
  allocated := h.allocated_iff hn hi
  initialized := fun size _ => h.initialized_iff hn hi size

theorem Encodes.length_base {s : Shadow} {init : ℕ → Bool} {b n : ℕ} (h : Encodes s init b n) (hn : n < 2 ^ 31) :
    staticInfo s b .length = n := by
  by_cases h0 : n = 0
  · have hp : s.primary b = 2 := h.marker h0
    have hne : s.primary b ≠ 0 := by
      rw [hp]
      decide
    rw [staticInfo_length hne,Segment.decode,hp,h0]
    rfl
  · exact (h.answers hn (Nat.pos_of_ne_zero h0)).length

inductive StaticOp where
  | shadowAlloca (ptr size : ℕ)
  | initializeStaticRegion (addr size : ℕ)
  | markReadonlyRegion (addr size : ℕ)
  | shadowFreea (ptr : ℕ)

def staticStep (s : Shadow) : StaticOp → Shadow
  | .shadowAlloca ptr size => shadowAlloca s ptr size
  | .initializeStaticRegion addr size => initializeStaticRegion s addr size
  | .markReadonlyRegion addr size => markReadonlyRegion s addr size
  | .shadowFreea ptr => shadowFreea s ptr

def staticSpec (a : Memory) : StaticOp → Memory
  | .shadowAlloca ptr size => a.track ptr size false
  | .initializeStaticRegion addr size => { a with init := mark a.init addr size }
  | .markReadonlyRegion _ _ => a
  | .shadowFreea ptr => a.untrack ptr

/-- Blocks are pairwise disjoint and of size below `2 ^ 31`, regions lie in a tracked block, and tracked blocks are
freed. -/
def StaticValid (a : Memory) : StaticOp → Prop
  | .shadowAlloca ptr size => size < 2 ^ 31 ∧ a.Fresh ptr size
  | .initializeStaticRegion addr size => a.Inside addr size
  | .markReadonlyRegion addr size => a.Inside addr size
  | .shadowFreea ptr => ∃ n, a.size ptr = some n

def StaticExact (s : Shadow) (a : Memory) : Prop := ∀ b n, a.size b = some n → ∀ i < n, AnswersAt s a.init b n i

/-- After a deallocation the shadow bytes of the block are zero, the marker of an empty block included, and the
others are as before. -/
def StaticClean (s : Shadow) (a : Memory) : StaticOp → Prop
  | .shadowFreea ptr => ∀ n, a.size ptr = some n →
    (∀ x, ptr ≤ x → x < ptr + n → (shadowFreea s ptr).primary x = 0 ∧ (shadowFreea s ptr).secondary x = 0) ∧
    (n = 0 → (shadowFreea s ptr).primary ptr = 0) ∧
    (∀ x, ¬(ptr ≤ x ∧ x < ptr + max n 1) →
      (shadowFreea s ptr).primary x = s.primary x ∧ (shadowFreea s ptr).secondary x = s.secondary x)
  | _ => True

def StaticCorrect (s : Shadow) (a : Memory) : List StaticOp → Prop
  | [] => StaticExact s a
  | op :: ops => StaticExact s a ∧ StaticClean s a op ∧ StaticCorrect (staticStep s op) (staticSpec a op) ops

def StaticSafe (a : Memory) : StaticOp → Prop
  | .shadowFreea ptr => a.size ptr ≠ some 0
  | _ => True

structure StaticAgrees (s : Shadow) (a : Memory) : Prop where
  bound : ∀ b n, a.size b = some n → n < 2 ^ 31
  separate : ∀ p q n k, p ≠ q → a.size p = some n → a.size q = some k → Separate p n q k
  encodes : ∀ b n, a.size b = some n → Encodes s a.init b n
  outside : ∀ x, (∀ b n, a.size b = some n → ¬(b ≤ x ∧ x < b + max n 1)) → s.primary x = 0 ∨ s.primary x = 2

theorem StaticAgrees.exact {s : Shadow} {a : Memory} (h : StaticAgrees s a) : StaticExact s a :=
  fun b n hb _ hi => (h.encodes b n hb).answers (h.bound b n hb) hi

theorem track_size_cases {a : Memory} {p n q k : ℕ} {i : Bool} (h : (a.track p n i).size q = some k) :
    q = p ∧ k = n ∨ q ≠ p ∧ a.size q = some k := by
  simp only [Memory.track,Function.update_apply] at h
  by_cases hq : q = p
  · rw [if_pos hq] at h
    exact Or.inl ⟨hq,(Option.some.inj h).symm⟩
  · rw [if_neg hq] at h
    exact Or.inr ⟨hq,h⟩

theorem untrack_size {a : Memory} {p q k : ℕ} (h : (a.untrack p).size q = some k) : q ≠ p ∧ a.size q = some k := by
  simp only [Memory.untrack,Function.update_apply] at h
  by_cases hq : q = p
  · rw [if_pos hq] at h
    cases h
  · rw [if_neg hq] at h
    exact ⟨hq,h⟩

theorem shiftRight_shiftLeft_code {c : ℕ} (hc : c < 64) :
    (BitVec.ofNat 8 c <<< 2) >>> 2 = BitVec.ofNat 8 c ∧ (BitVec.ofNat 8 c <<< 2).getLsbD 0 = false := by
  have hall : ∀ c : Fin 64, ((BitVec.ofNat 8 c <<< 2) >>> 2 = BitVec.ofNat 8 c) ∧
      (BitVec.ofNat 8 c <<< 2).getLsbD 0 = false := by decide
  exact hall ⟨c,hc⟩

theorem encodes_shadowAlloca (s : Shadow) (init : ℕ → Bool) {ptr size : ℕ} (h : 1 ≤ size)
    (hi : ∀ x, ptr ≤ x → x < ptr + size → init x = false) : Encodes (shadowAlloca s ptr size) init ptr size := by
  obtain ⟨hp,_,hl⟩ := shadowAlloca_spec ptr size s h
  have hbyte (i : ℕ) (hlt : i < size) :
      (shadowAlloca s ptr size).primary (ptr + i) = BitVec.ofNat 8 (blockCode size i) <<< 2 := by
    have hin : ptr ≤ ptr + i ∧ ptr + i < ptr + size := by omega
    rw [hp,if_pos hin,Nat.add_sub_cancel_left]
  constructor
  · intro h0
    omega
  · intro i hlt
    rw [hbyte i hlt]
    exact (shiftRight_shiftLeft_code (blockCode_bounds hlt).2).1
  · intro i hlt
    rw [hbyte i hlt,hi _ (by omega) (by omega)]
    exact (shiftRight_shiftLeft_code (blockCode_bounds hlt).2).2
  · exact hl

theorem shadowAlloca_empty (s : Shadow) (ptr : ℕ) :
    shadowAlloca s ptr 0 = s.setPrimary ptr (setbit readonlyBit (s.primary ptr)) := rfl

theorem shadowAlloca_frame (s : Shadow) {ptr size x : ℕ} (hx : ¬(ptr ≤ x ∧ x < ptr + max size 1)) :
    (shadowAlloca s ptr size).primary x = s.primary x ∧ (shadowAlloca s ptr size).secondary x = s.secondary x := by
  by_cases h0 : size = 0
  · subst h0
    rw [shadowAlloca_empty]
    have hne : x ≠ ptr := by omega
    exact ⟨Function.update_of_ne hne _ _,rfl⟩
  · obtain ⟨hp,hs,_⟩ := shadowAlloca_spec ptr size s (Nat.pos_of_ne_zero h0)
    have hno : ¬(ptr ≤ x ∧ x < ptr + size) := by omega
    exact ⟨(hp x).trans (if_neg hno),hs x hno⟩

theorem StaticAgrees.shadowAlloca {s : Shadow} {a : Memory} (h : StaticAgrees s a) {ptr size : ℕ}
    (hsize : size < 2 ^ 31) (hf : a.Fresh ptr size) :
    StaticAgrees (shadowAlloca s ptr size) (a.track ptr size false) := by
  constructor
  · intro b n hb
    rcases track_size_cases hb with ⟨_,rfl⟩ | ⟨_,hb⟩
    · exact hsize
    · exact h.bound b n hb
  · intro p q n k hpq hp hq
    rcases track_size_cases hp with ⟨rfl,rfl⟩ | ⟨_,hp'⟩
    · rcases track_size_cases hq with ⟨rfl,_⟩ | ⟨_,hq⟩
      · exact absurd rfl hpq
      · exact hf q k hq
    · rcases track_size_cases hq with ⟨rfl,rfl⟩ | ⟨_,hq⟩
      · exact separate_symm (hf p n hp')
      · exact h.separate p q n k hpq hp' hq
  · intro b n hb
    rcases track_size_cases hb with ⟨rfl,rfl⟩ | ⟨_,hb⟩
    · by_cases h0 : n = 0
      · subst h0
        refine ⟨fun _ => ?_,fun i hi => absurd hi (Nat.not_lt_zero i),fun i hi => absurd hi (Nat.not_lt_zero i),
          fun hl => absurd hl (Nat.not_lt_zero _)⟩
        have hout : s.primary b = 0 ∨ s.primary b = 2 := by
          apply h.outside
          intro q k hq
          have := hf q k hq
          unfold Separate at this
          omega
        rw [shadowAlloca_empty]
        simp only [Shadow.setPrimary,Function.update_self]
        rcases hout with hout | hout
        · rw [hout]
          decide
        · rw [hout]
          decide
      · apply encodes_shadowAlloca s _ (Nat.pos_of_ne_zero h0)
        intro x hx hx'
        exact if_pos ⟨hx,hx'⟩
    · have hsep := hf b n hb
      unfold Separate at hsep
      apply (h.encodes b n hb).congr
      · intro x hx hx'
        exact (shadowAlloca_frame s (by omega)).1
      · intro x hx hx'
        exact (shadowAlloca_frame s (by omega)).2
      · intro x hx hx'
        exact if_neg (by omega)
  · intro x hx
    have hnew := hx ptr size (by simp [Memory.track])
    rw [(shadowAlloca_frame s hnew).1]
    apply h.outside
    intro q k hq
    apply hx q k
    have hne : q ≠ ptr := by
      rintro rfl
      have := hf q k hq
      unfold Separate at this
      omega
    simp only [Memory.track,Function.update_of_ne hne,hq]

theorem or_status (w c : BitVec 8) (hc : c = 1 ∨ c = 2) :
    (w ||| c) >>> 2 = w >>> 2 ∧ (w ||| c).getLsbD 0 = (w.getLsbD 0 || c.getLsbD 0) := by
  have hall : ∀ w : BitVec 8, ((w ||| 1) >>> 2 = w >>> 2 ∧ (w ||| 2) >>> 2 = w >>> 2) := by decide
  constructor
  · rcases hc with rfl | rfl
    · exact (hall w).1
    · exact (hall w).2
  · exact BitVec.getLsbD_or

theorem StaticAgrees.markRegion {s : Shadow} {a : Memory} {masks : List (BitVec 64)} {c : BitVec 8} (h : StaticAgrees s a)
    (ht : MaskTable masks c) (hc : c = 1 ∨ c = 2) {addr size : ℕ} (hin : a.Inside addr size) {init : ℕ → Bool}
    (hinit : ∀ x, init x = (a.init x || (c.getLsbD 0 && decide (addr ≤ x ∧ x < addr + size)))) :
    StaticAgrees { s with primary := markRegion masks s.primary addr size } { a with init := init } := by
  obtain ⟨q,k,hq,hqa,hsz⟩ := hin
  have hp : ∀ x, ({ s with primary := Segment.markRegion masks s.primary addr size } : Shadow).primary x =
      if addr ≤ x ∧ x < addr + size then s.primary x ||| c else s.primary x := markRegion_apply ht s.primary addr size
  refine ⟨h.bound,h.separate,?_,?_⟩
  · intro b n hb
    have he := h.encodes b n hb
    refine ⟨?_,?_,?_,he.long⟩
    · intro h0
      have hno : ¬(addr ≤ b ∧ b < addr + size) := by
        intro hin
        by_cases hbq : b = q
        · rw [← hbq,hb] at hq
          have hnk := Option.some.inj hq
          omega
        · have hsep := h.separate b q n k hbq hb hq
          unfold Separate at hsep
          omega
      rw [hp,if_neg hno]
      exact he.marker h0
    · intro i hi
      rw [hp,← he.code i hi]
      split
      · exact (or_status _ c hc).1
      · rfl
    · intro i hi
      have hini : ({ a with init := init } : Memory).init (b + i) = init (b + i) := rfl
      rw [hp,hini,hinit,← he.init i hi]
      split
      · rename_i hmem
        rw [(or_status _ c hc).2,decide_eq_true hmem,Bool.and_true]
      · rename_i hmem
        rw [decide_eq_false hmem,Bool.and_false,Bool.or_false]
  · intro x hx
    have hout := hx q k hq
    have hno : ¬(addr ≤ x ∧ x < addr + size) := by omega
    rw [hp,if_neg hno]
    exact h.outside x hx

theorem StaticAgrees.shadowFreea {s : Shadow} {a : Memory} (h : StaticAgrees s a) {ptr n : ℕ}
    (hn : a.size ptr = some n) : StaticAgrees (shadowFreea s ptr) (a.untrack ptr) := by
  have hlen := (h.encodes ptr n hn).length_base (h.bound ptr n hn)
  have hfree : Segment.shadowFreea s ptr = ⟨zeroRange s.primary ptr n,zeroRange s.secondary ptr n⟩ := by
    rw [Segment.shadowFreea,hlen]
  rw [hfree]
  constructor
  · intro b m hb
    exact h.bound b m (untrack_size hb).2
  · intro p q m k hpq hp hq
    exact h.separate p q m k hpq (untrack_size hp).2 (untrack_size hq).2
  · intro b m hb
    obtain ⟨hbp,hb⟩ := untrack_size hb
    have hsep := h.separate b ptr m n hbp hb hn
    unfold Separate at hsep
    apply (h.encodes b m hb).congr
    · intro x hx hx'
      exact if_neg (by omega)
    · intro x hx hx'
      exact if_neg (by omega)
    · intro x _ _
      rfl
  · intro x hx
    by_cases hin : ptr ≤ x ∧ x < ptr + n
    · exact Or.inl (if_pos hin)
    · have hzero : (⟨zeroRange s.primary ptr n,zeroRange s.secondary ptr n⟩ : Shadow).primary x = s.primary x :=
        if_neg hin
      rw [hzero]
      by_cases hmark : n = 0 ∧ x = ptr
      · obtain ⟨h0,rfl⟩ := hmark
        exact Or.inr ((h.encodes x n hn).marker h0)
      · apply h.outside
        intro b m hb
        by_cases hbp : b = ptr
        · subst hbp
          rw [hn] at hb
          have hnm := Option.some.inj hb
          omega
        · apply hx b m
          simp only [Memory.untrack,Function.update_of_ne hbp,hb]

theorem StaticAgrees.step {s : Shadow} {a : Memory} (h : StaticAgrees s a) {op : StaticOp} (hv : StaticValid a op) :
    StaticAgrees (staticStep s op) (staticSpec a op) := by
  cases op with
  | shadowAlloca ptr size => exact h.shadowAlloca hv.1 hv.2
  | initializeStaticRegion addr size =>
    apply h.markRegion staticInitMasks_table (Or.inl rfl) hv
    intro x
    rfl
  | markReadonlyRegion addr size =>
    apply h.markRegion staticReadonlyMasks_table (Or.inr rfl) hv
    intro x
    exact (Bool.or_false _).symm
  | shadowFreea ptr =>
    obtain ⟨n,hn⟩ := hv
    exact h.shadowFreea hn

theorem StaticAgrees.clean_iff {s : Shadow} {a : Memory} (h : StaticAgrees s a) (op : StaticOp) (hv : StaticValid a op) :
    StaticClean s a op ↔ StaticSafe a op := by
  cases op with
  | shadowAlloca ptr size => exact Iff.rfl
  | initializeStaticRegion addr size => exact Iff.rfl
  | markReadonlyRegion addr size => exact Iff.rfl
  | shadowFreea ptr =>
    obtain ⟨n,hn⟩ := hv
    have he := h.encodes ptr n hn
    have hlen := he.length_base (h.bound ptr n hn)
    have hfree : Segment.shadowFreea s ptr = ⟨zeroRange s.primary ptr n,zeroRange s.secondary ptr n⟩ := by
      rw [Segment.shadowFreea,hlen]
    simp only [StaticClean,StaticSafe,hfree,hn,ne_eq,Option.some.injEq,forall_eq']
    constructor
    · rintro ⟨_,hmark,_⟩ h0
      have hkeep : zeroRange s.primary ptr n ptr = 2 := by
        rw [← he.marker h0]
        exact if_neg (by omega)
      rw [hmark h0] at hkeep
      exact absurd hkeep (by decide)
    · intro h0
      refine ⟨fun x hx hx' => ⟨if_pos ⟨hx,hx'⟩,if_pos ⟨hx,hx'⟩⟩,fun e => absurd e h0,fun x hx => ?_⟩
      have hno : ¬(ptr ≤ x ∧ x < ptr + n) := by omega
      exact ⟨if_neg hno,if_neg hno⟩

theorem staticCorrect_iff {s : Shadow} {a : Memory} (h : StaticAgrees s a) (ops : List StaticOp)
    (hv : Along staticSpec StaticValid a ops) : StaticCorrect s a ops ↔ Along staticSpec StaticSafe a ops := by
  induction ops generalizing s a with
  | nil => exact ⟨fun _ => trivial,fun _ => h.exact⟩
  | cons op ops ih =>
    obtain ⟨hop,hops⟩ := hv
    have hrest := ih (h.step hop) hops
    have hclean := h.clean_iff op hop
    exact ⟨fun hc => ⟨hclean.1 hc.2.1,hrest.1 hc.2.2⟩,fun hs => ⟨h.exact,hclean.2 hs.1,hrest.2 hs.2⟩⟩

theorem staticAgrees_zero : StaticAgrees Shadow.zero Memory.empty :=
  ⟨fun _ _ h => (nomatch h),fun _ _ _ _ _ h => (nomatch h),fun _ _ h => (nomatch h),fun _ _ => Or.inl rfl⟩

/-- From zero shadows, every query in every state of a run is answered right and every deallocation leaves clean
shadows exactly when the run frees no empty block. -/
theorem static_correct_iff (ops : List StaticOp) (hv : Along staticSpec StaticValid Memory.empty ops) :
    StaticCorrect Shadow.zero Memory.empty ops ↔ Along staticSpec StaticSafe Memory.empty ops :=
  staticCorrect_iff staticAgrees_zero ops hv

theorem static_correct_eleven :
    Along staticSpec StaticValid Memory.empty [.shadowAlloca 64 11,.initializeStaticRegion 70 5,.shadowFreea 64] ∧
      StaticCorrect Shadow.zero Memory.empty [.shadowAlloca 64 11,.initializeStaticRegion 70 5,.shadowFreea 64] := by
  have hv : Along staticSpec StaticValid Memory.empty
      [.shadowAlloca 64 11,.initializeStaticRegion 70 5,.shadowFreea 64] :=
    ⟨⟨by decide,fun _ _ h => (nomatch h)⟩,⟨64,11,rfl,by decide,by decide⟩,⟨11,rfl⟩,trivial⟩
  refine ⟨hv,(static_correct_iff _ hv).2 ⟨trivial,trivial,?_,trivial⟩⟩
  intro h
  cases h

/-- An empty block at 64 is allocated and freed: its marker stays. -/
theorem static_empty_not_correct :
    Along staticSpec StaticValid Memory.empty [.shadowAlloca 64 0,.shadowFreea 64] ∧
      ¬StaticCorrect Shadow.zero Memory.empty [.shadowAlloca 64 0,.shadowFreea 64] := by
  refine ⟨⟨⟨by decide,fun _ _ h => (nomatch h)⟩,⟨0,rfl⟩,trivial⟩,?_⟩
  rintro ⟨_,_,_,hclean,_⟩
  have hmark := (hclean 0 rfl).2.1 rfl
  have hkeep : (shadowFreea (shadowAlloca Shadow.zero 64 0) 64).primary 64 = 2 := by decide
  have hne := hkeep.symm.trans hmark
  exact absurd hne (by decide)

end FramaC.EAcsl.Segment
