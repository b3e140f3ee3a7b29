import FramaC.Lib.BitMask

/-! # Masks encoded in prefixes

The bit library of `intmap.ml`. Keys are the 63-bit machine integers. A prefix has a zero at the branching bit and ones
below it, so that the branching bit can be read back from it.
-/
namespace FramaC.Qed.Intmap

open CommonPrefix

abbrev Key := BitVec 63

/-- One of the nested definitions of `hsb`. -/
def hsbStep (k : ℕ) (hsb : ℕ → ℕ) (p : ℕ) : ℕ :=
  let n := p >>> k
  if n ≠ 0 then k + hsb n else hsb p

/-- The highest set bit; the table of the first 256 values is the function it is filled with. -/
def hsb : ℕ → ℕ :=
  hsbStep 32 (hsbStep 16 (hsbStep 8 (hsbStep 4 (hsbStep 2 fun p => if p &&& 2 ≠ 0 then 1 else 0))))

def highestBit (x : Key) : Key := 1#63 <<< hsb x.toNat

def lowestBit (x : Key) : Key := x &&& -x

def decodeMask (p : Key) : Key := lowestBit (~~~p)

def branchingBit (p0 p1 : Key) : Key := highestBit (p0 ^^^ p1)

def mask (p m : Key) : Key := (p ||| (m - 1)) &&& ~~~m

def zeroBitInt (k m : Key) : Bool := k &&& m == 0

def zeroBit (k p : Key) : Bool := zeroBitInt k (decodeMask p)

def matchPrefixInt (k p m : Key) : Bool := mask k m == p

def matchPrefix (k p : Key) : Bool := matchPrefixInt k p (decodeMask p)

/-- The mask `m` is strictly included into `n`, by a wrapping subtraction. -/
def includedMaskInt (m n : Key) : Bool := (n - m).slt 0

def includedPrefix (p q : Key) : Bool :=
  let m := decodeMask p
  let n := decodeMask q
  includedMaskInt m n && matchPrefixInt q p m

def LowestZero (p : Key) (i : ℕ) : Prop := i < 63 ∧ p.getLsbD i = false ∧ ∀ j < i, p.getLsbD j = true

theorem div_pow_eq_iff_bits (a b : Key) (i : ℕ) :
    a.toNat / 2 ^ i = b.toNat / 2 ^ i ↔ ∀ j, i ≤ j → a.getLsbD j = b.getLsbD j := by
  constructor
  · intro h j hj
    have hbit := congrArg (fun n => n.testBit (j - i)) h
    simp only [Nat.testBit_div_two_pow] at hbit
    rw [Nat.sub_add_cancel hj] at hbit
    exact hbit
  · intro h
    apply Nat.eq_of_testBit_eq
    intro j
    rw [Nat.testBit_div_two_pow,Nat.testBit_div_two_pow]
    exact h (j + i) (Nat.le_add_left i j)

theorem getLsbD_eq_mod (k : Key) (i : ℕ) : k.getLsbD i = decide (k.toNat / 2 ^ i % 2 = 1) := by
  rw [← BitVec.testBit_toNat,Nat.testBit_eq_decide_div_mod_eq]

theorem decodeMask_eq {p : Key} {i : ℕ} (hp : LowestZero p i) : decodeMask p = BitVec.twoPow 63 i := by
  obtain ⟨hi,hzero,hones⟩ := hp
  apply BitVec.eq_of_getLsbD_eq
  intro j hj
  rw [decodeMask,lowestBit,BitVec.getLsbD_and,BitVec.getLsbD_neg,BitVec.getLsbD_twoPow]
  have hnot : ∀ l, l < 63 → (~~~p).getLsbD l = !p.getLsbD l := by
    intro l hl
    rw [BitVec.getLsbD_not,decide_eq_true hl,Bool.true_and]
  rw [hnot j hj]
  rcases Nat.lt_trichotomy j i with hlt | rfl | hgt
  · rw [hones j hlt,decide_eq_false (Nat.ne_of_gt hlt)]
    simp
  · have hnone : ¬ ∃ l < j, (~~~p).getLsbD l = true := by
      rintro ⟨l,hl,hbit⟩
      rw [hnot l (hl.trans hj),hones l hl] at hbit
      cases hbit
    rw [hzero,decide_eq_false hnone,decide_eq_true hj,decide_eq_true rfl]
    rfl
  · have hex : ∃ l < j, (~~~p).getLsbD l = true := by
      refine ⟨i,hgt,?_⟩
      rw [hnot i hi,hzero]
      rfl
    rw [decide_eq_true hex,decide_eq_true hj,decide_eq_false (Nat.ne_of_lt hgt)]
    cases p.getLsbD j with
    | true => simp
    | false => simp

theorem zeroBit_iff {p : Key} {i : ℕ} (hp : LowestZero p i) (k : Key) :
    zeroBit k p = true ↔ k.toNat / 2 ^ i = 2 * (k.toNat / 2 ^ (i + 1)) := by
  rw [zeroBit,zeroBitInt,decodeMask_eq hp,beq_iff_eq,show (0 : Key) = 0#63 from rfl,
    BitMask.and_twoPow_eq_zero_iff k hp.1,getLsbD_eq_mod,decide_eq_false_iff_not,div_succ]
  omega

theorem getLsbD_twoPow_sub_one {i : ℕ} (hi : i < 63) (j : ℕ) :
    (BitVec.twoPow 63 i - 1).getLsbD j = decide (j < i) := by
  have hnat : (BitVec.twoPow 63 i - 1).toNat = 2 ^ i - 1 := by
    have hpow : 2 ^ i < 2 ^ 63 := Nat.pow_lt_pow_right (by decide) hi
    have hpos := Nat.two_pow_pos i
    rw [BitVec.toNat_sub,BitVec.toNat_twoPow,Nat.mod_eq_of_lt hpow]
    simp only [show (1 : Key).toNat = 1 from rfl]
    omega
  rw [← BitVec.testBit_toNat,hnat,Nat.testBit_two_pow_sub_one]

theorem getLsbD_mask {i : ℕ} (hi : i < 63) (k : Key) (j : ℕ) :
    (mask k (BitVec.twoPow 63 i)).getLsbD j = (decide (j < i) || (decide (j ≠ i) && k.getLsbD j)) := by
  rw [mask,BitVec.getLsbD_and,BitVec.getLsbD_or,getLsbD_twoPow_sub_one hi,BitVec.getLsbD_not,BitVec.getLsbD_twoPow]
  by_cases hj : j < 63
  · by_cases hji : j = i
    · simp [hji]
    · simp [hj,hi,Ne.symm hji,hji,Bool.or_comm]
  · have hji : ¬ j < i := by omega
    have hbit : k.getLsbD j = false := BitVec.getLsbD_of_ge k j (by omega)
    simp [hbit,hji]

theorem lowestZero_mask {i : ℕ} (hi : i < 63) (k : Key) : LowestZero (mask k (BitVec.twoPow 63 i)) i := by
  refine ⟨hi,?_,?_⟩
  · rw [getLsbD_mask hi]
    simp
  · intro j hj
    rw [getLsbD_mask hi]
    simp [hj]

theorem mask_div {i : ℕ} (hi : i < 63) (k : Key) :
    (mask k (BitVec.twoPow 63 i)).toNat / 2 ^ (i + 1) = k.toNat / 2 ^ (i + 1) := by
  rw [div_pow_eq_iff_bits]
  intro j hj
  rw [getLsbD_mask hi]
  have hji : ¬ j < i := by omega
  have hne : j ≠ i := by omega
  simp [hji,hne]

theorem LowestZero.ext {p q : Key} {i : ℕ} (hp : LowestZero p i) (hq : LowestZero q i)
    (h : p.toNat / 2 ^ (i + 1) = q.toNat / 2 ^ (i + 1)) : p = q := by
  rw [div_pow_eq_iff_bits] at h
  apply BitVec.eq_of_getLsbD_eq
  intro j _
  rcases Nat.lt_trichotomy j i with hlt | rfl | hgt
  · rw [hp.2.2 j hlt,hq.2.2 j hlt]
  · rw [hp.2.1,hq.2.1]
  · exact h j hgt

theorem LowestZero.unique {p : Key} {i j : ℕ} (hi : LowestZero p i) (hj : LowestZero p j) : i = j := by
  rcases Nat.lt_trichotomy i j with hlt | heq | hgt
  · exact absurd (hj.2.2 i hlt) (by simp [hi.2.1])
  · exact heq
  · exact absurd (hi.2.2 j hgt) (by simp [hj.2.1])

theorem matchPrefixInt_iff {p : Key} {i : ℕ} (hp : LowestZero p i) (k : Key) :
    matchPrefixInt k p (BitVec.twoPow 63 i) = true ↔ k.toNat / 2 ^ (i + 1) = p.toNat / 2 ^ (i + 1) := by
  rw [matchPrefixInt,beq_iff_eq]
  constructor
  · intro h
    rw [← h,mask_div hp.1]
  · intro h
    exact (lowestZero_mask hp.1 k).ext hp ((mask_div hp.1 k).trans h)

theorem matchPrefix_iff {p : Key} {i : ℕ} (hp : LowestZero p i) (k : Key) :
    matchPrefix k p = true ↔ k.toNat / 2 ^ (i + 1) = p.toNat / 2 ^ (i + 1) := by
  rw [matchPrefix,decodeMask_eq hp]
  exact matchPrefixInt_iff hp k

theorem includedMaskInt_iff {i j : ℕ} (hi : i < 63) (hj : j < 63) :
    includedMaskInt (BitVec.twoPow 63 i) (BitVec.twoPow 63 j) = true ↔ j < i := by
  have hpi : 2 ^ i ≤ 2 ^ 62 := Nat.pow_le_pow_right (by decide) (by omega)
  have hpj : 2 ^ j ≤ 2 ^ 62 := Nat.pow_le_pow_right (by decide) (by omega)
  have hlt : 2 ^ j < 2 ^ i ↔ j < i := Nat.pow_lt_pow_iff_right (by decide)
  have hpos := Nat.two_pow_pos i
  rw [includedMaskInt,show (0 : Key) = 0#63 from rfl,BitVec.slt_zero_eq_msb,BitVec.msb_eq_decide,decide_eq_true_iff,
    BitVec.toNat_sub,BitVec.toNat_twoPow,BitVec.toNat_twoPow,← hlt]
  generalize 2 ^ i = x at hpi hpos hlt ⊢
  generalize 2 ^ j = y at hpj hlt ⊢
  rw [Nat.mod_eq_of_lt (show x < 2 ^ 63 by omega),Nat.mod_eq_of_lt (show y < 2 ^ 63 by omega)]
  by_cases hyx : y < x
  · rw [Nat.mod_eq_of_lt (by omega)]
    omega
  · rw [show 2 ^ 63 - x + y = y - x + 2 ^ 63 by omega,Nat.add_mod_right,Nat.mod_eq_of_lt (by omega)]
    omega

theorem includedPrefix_iff {p q : Key} {i j : ℕ} (hp : LowestZero p i) (hq : LowestZero q j) :
    includedPrefix p q = true ↔ j < i ∧ q.toNat / 2 ^ (i + 1) = p.toNat / 2 ^ (i + 1) := by
  rw [includedPrefix,decodeMask_eq hp,decodeMask_eq hq]
  simp only [Bool.and_eq_true]
  rw [includedMaskInt_iff hp.1 hq.1,matchPrefixInt_iff hp]

theorem hsbStep_eq {k : ℕ} {f : ℕ → ℕ} (hf : ∀ p, p ≠ 0 → p < 2 ^ k → f p = p.log2) {p : ℕ} (hp : p ≠ 0)
    (hlt : p < 2 ^ (2 * k)) : hsbStep k f p = p.log2 := by
  unfold hsbStep
  simp only [Nat.shiftRight_eq_div_pow]
  by_cases hn : p / 2 ^ k = 0
  · rw [if_neg (not_not.2 hn)]
    exact hf p hp ((Nat.div_eq_zero_iff_lt (Nat.two_pow_pos k)).1 hn)
  · rw [if_pos hn]
    have hnlt : p / 2 ^ k < 2 ^ k := by
      apply Nat.div_lt_of_lt_mul
      rw [← Nat.pow_add]
      exact Nat.two_mul k ▸ hlt
    rw [hf _ hn hnlt]
    symm
    rw [Nat.log2_eq_iff hp]
    have hlog := (Nat.log2_eq_iff hn).1 rfl
    constructor
    · rw [Nat.pow_add]
      calc 2 ^ k * 2 ^ (p / 2 ^ k).log2 ≤ 2 ^ k * (p / 2 ^ k) := Nat.mul_le_mul_left _ hlog.1
        _ ≤ p := Nat.mul_div_le p _
    · rw [Nat.add_assoc,Nat.pow_add,Nat.mul_comm]
      exact (Nat.div_lt_iff_lt_mul (Nat.two_pow_pos k)).1 hlog.2

theorem hsb_eq {p : ℕ} (hp : p ≠ 0) (hlt : p < 2 ^ 64) : hsb p = p.log2 := by
  have hbase : ∀ p, p ≠ 0 → p < 2 ^ 2 → (if p &&& 2 ≠ 0 then 1 else 0) = p.log2 := by
    have hall : ∀ p : Fin 4, (p : ℕ) ≠ 0 → (if (p : ℕ) &&& 2 ≠ 0 then 1 else 0) = (p : ℕ).log2 := by decide
    intro p hp hlt
    exact hall ⟨p,hlt⟩ hp
  apply hsbStep_eq _ hp hlt
  intro p hp hlt
  apply hsbStep_eq _ hp hlt
  intro p hp hlt
  apply hsbStep_eq _ hp hlt
  intro p hp hlt
  apply hsbStep_eq _ hp hlt
  intro p hp hlt
  exact hsbStep_eq hbase hp hlt

theorem branchingBit_eq {p q : Key} (hne : p ≠ q) : ∃ b, b < 63 ∧ branchingBit p q = BitVec.twoPow 63 b ∧
    p.toNat / 2 ^ (b + 1) = q.toNat / 2 ^ (b + 1) ∧ p.toNat / 2 ^ b ≠ q.toNat / 2 ^ b := by
  have hx : (p ^^^ q).toNat ≠ 0 := by
    intro h
    apply hne
    apply BitVec.eq_of_toNat_eq
    rw [BitVec.toNat_xor] at h
    exact Nat.xor_eq_zero_iff.1 h
  have hlog := (Nat.log2_eq_iff hx).1 rfl
  have hlt : (p ^^^ q).toNat < 2 ^ 63 := (p ^^^ q).isLt
  refine ⟨(p ^^^ q).toNat.log2,(Nat.log2_lt hx).2 hlt,?_,?_,?_⟩
  · rw [branchingBit,highestBit,hsb_eq hx (hlt.trans (by decide)),BitVec.twoPow_eq]
  · rw [div_pow_eq_iff_xor_lt,← BitVec.toNat_xor]
    exact hlog.2
  · rw [Ne,div_pow_eq_iff_xor_lt,← BitVec.toNat_xor]
    exact Nat.not_lt.2 hlog.1

end FramaC.Qed.Intmap

/-! ## Patricia trees of Qed

The trees of `intmap.ml` and their operations. The operations keep the subtrees they do not change: they test for
physical equality, of which only one thing is known, that it implies equality.
-/
namespace FramaC.Qed.Intmap

inductive Tree (α : Type) where
  | empty
  | lf (k : Key) (x : α)
  | br (p : Key) (t0 t1 : Tree α)

/-- Physical equality of values and of trees. -/
structure Sharing (α : Type) where
  value : α → α → Bool
  tree : Tree α → Tree α → Bool
  value_eq : ∀ {x y : α}, value x y = true → x = y
  tree_eq : ∀ {s t : Tree α}, tree s t = true → s = t

namespace Tree

variable {α β γ : Type}

def lfOpt (k : Key) : Option α → Tree α
  | none => empty
  | some x => lf k x

def lf0 (sh : Sharing α) (k : Key) (x' : α) (t' : Tree α) : Option α → Tree α
  | none => empty
  | some x => if sh.value x x' then t' else lf k x

def br0 (sh : Sharing α) (p : Key) (t0' t1' t' : Tree α) : Tree α → Tree α
  | empty => t1'
  | t0 => if sh.tree t0' t0 then t' else br p t0 t1'

def br1 (sh : Sharing α) (p : Key) (t0' t1' t' : Tree α) : Tree α → Tree α
  | empty => t0'
  | t1 => if sh.tree t1' t1 then t' else br p t0' t1

def join (p : Key) (t0 : Tree α) (q : Key) (t1 : Tree α) : Tree α :=
  let m := branchingBit p q
  let r := mask p m
  if zeroBit p r then br r t0 t1 else br r t1 t0

def top : Tree α → Key
  | empty => 0
  | lf p _ => p
  | br p _ _ => p

def glue : Tree α → Tree α → Tree α
  | empty,t => t
  | t,empty => t
  | t0,t1 => join t0.top t0 t1.top t1

def glue01 (sh : Sharing α) (t0 t1 t0' t1' t' : Tree α) : Tree α :=
  if sh.tree t0 t0' && sh.tree t1 t1' then t' else glue t0 t1

def glue2 (sh : Sharing α) (t0 t1 t0' t1' t' s0' s1' s' : Tree α) : Tree α :=
  if sh.tree t0 s0' && sh.tree t1 s1' then s'
  else if sh.tree t0 t0' && sh.tree t1 t1' then t' else glue t0 t1

def mem (k : Key) : Tree α → Bool
  | empty => false
  | lf i _ => i == k
  | br p t0 t1 => matchPrefix k p && (if zeroBit k p then mem k t0 else mem k t1)

/-- The value of a key and its leaf; no result stands for `Not_found`. -/
@[grind =] def findq (k : Key) : Tree α → Option (α × Tree α)
  | empty => none
  | lf i x => if k = i then some (x,lf i x) else none
  | br p t0 t1 => if matchPrefix k p then (if zeroBit k p then findq k t0 else findq k t1) else none

def find (k : Key) (m : Tree α) : Option α := (findq k m).map Prod.fst

@[grind =] def equal (sh : Sharing α) (eq : α → α → Bool) : Tree α → Tree α → Bool
  | empty,empty => true
  | lf i x,lf j y => sh.tree (lf i x) (lf j y) || (i == j && eq x y)
  | br p s0 s1,br q t0 t1 => sh.tree (br p s0 s1) (br q t0 t1) || (p == q && equal sh eq s0 t0 && equal sh eq s1 t1)
  | s,t => sh.tree s t

def change (sh : Sharing α) (phi : Key → β → Option α → Option α) (k : Key) (x : β) : Tree α → Tree α
  | empty =>
    match phi k x none with
    | none => empty
    | some w => lf k w
  | lf i y =>
    if i = k then lf0 sh k y (lf i y) (phi k x (some y))
    else
      match phi k x none with
      | none => lf i y
      | some w => join k (lf k w) i (lf i y)
  | br p t0 t1 =>
    if matchPrefix k p then
      if zeroBit k p then br0 sh p t0 t1 (br p t0 t1) (change sh phi k x t0)
      else br1 sh p t0 t1 (br p t0 t1) (change sh phi k x t1)
    else
      match phi k x none with
      | none => br p t0 t1
      | some w => join k (lf k w) p (br p t0 t1)

def insertPhi (f : Key → α → α → α) (k : Key) (x : α) : Option α → Option α
  | none => some x
  | some old => some (f k x old)

def insert (sh : Sharing α) (f : Key → α → α → α) (k : Key) (x : α) : Tree α → Tree α :=
  change sh (fun _ x old => insertPhi f k x old) k x

def add (sh : Sharing α) (k : Key) (x : α) : Tree α → Tree α := change sh (fun _ x _ => some x) k x

def remove (sh : Sharing α) (k : Key) : Tree α → Tree α := change sh (fun _ (_ : Unit) _ => none) k ()

def mapf (phi : Key → α → Option β) : Tree α → Tree β
  | empty => empty
  | lf k x => lfOpt k (phi k x)
  | br _ t0 t1 => glue (mapf phi t0) (mapf phi t1)

def mapq (sh : Sharing α) (phi : Key → α → Option α) : Tree α → Tree α
  | empty => empty
  | lf k x => lf0 sh k x (lf k x) (phi k x)
  | br p t0 t1 => glue01 sh (mapq sh phi t0) (mapq sh phi t1) t0 t1 (br p t0 t1)

def filter (sh : Sharing α) (f : Key → α → Bool) (m : Tree α) : Tree α :=
  mapq sh (fun k v => if f k v then some v else none) m

def partition (sh : Sharing α) (f : Key → α → Bool) : Tree α → Tree α × Tree α
  | empty => (empty,empty)
  | lf k x => if f k x then (lf k x,empty) else (empty,lf k x)
  | br p t0 t1 =>
    let tu0 := partition sh f t0
    let tu1 := partition sh f t1
    if sh.tree tu0.1 t0 && sh.tree tu1.1 t1 then (br p t0 t1,tu0.2)
    else if sh.tree tu0.2 t0 && sh.tree tu1.2 t1 then (tu0.1,br p t0 t1)
    else (glue tu0.1 tu1.1,glue tu0.2 tu1.2)

def maxInt : Key := BitVec.intMax 63

variable {σ : Type}

def foldAux (phi : Key → α → σ → σ) : Tree α → σ → σ
  | empty,e => e
  | lf i x,e => phi i x e
  | br _ t0 t1,e => foldAux phi t1 (foldAux phi t0 e)

def foldi (phi : Key → α → σ → σ) (t : Tree α) (e : σ) : σ :=
  match t with
  | empty => e
  | lf i x => phi i x e
  | br p t0 t1 => if p = maxInt then foldAux phi t0 (foldAux phi t1 e) else foldAux phi t1 (foldAux phi t0 e)

def iterAux (phi : Key → α → σ → σ) : Tree α → σ → σ
  | empty => id
  | lf k x => phi k x
  | br _ t0 t1 => iterAux phi t1 ∘ iterAux phi t0

def iteri (phi : Key → α → σ → σ) : Tree α → σ → σ
  | empty => id
  | lf k x => phi k x
  | br p t0 t1 => if p = maxInt then iterAux phi t0 ∘ iterAux phi t1 else iterAux phi t1 ∘ iterAux phi t0

@[grind =] def interi (lfPhi : Key → α → β → Tree γ) (s : Tree α) (t : Tree β) : Tree γ :=
  match s,t with
  | empty,_ => empty
  | _,empty => empty
  | lf i x,lf j y => if i = j then lfPhi i x y else empty
  | lf i x,br q t0 t1 => (find i (br q t0 t1)).elim empty (lfPhi i x)
  | br p s0 s1,lf j y => (find j (br p s0 s1)).elim empty fun x => lfPhi j x y
  | br p s0 s1,br q t0 t1 =>
    if p = q then glue (interi lfPhi s0 t0) (interi lfPhi s1 t1)
    else if includedPrefix p q then
      if zeroBit q p then interi lfPhi s0 (br q t0 t1) else interi lfPhi s1 (br q t0 t1)
    else if includedPrefix q p then
      if zeroBit p q then interi lfPhi (br p s0 s1) t0 else interi lfPhi (br p s0 s1) t1
    else empty
termination_by sizeOf s + sizeOf t

def inter (phi : Key → α → β → γ) : Tree α → Tree β → Tree γ := interi fun i x y => lf i (phi i x y)

def interf (phi : Key → α → β → Option γ) : Tree α → Tree β → Tree γ := interi fun i x y => lfOpt i (phi i x y)

def lfq (sh : Sharing α) (phi : Key → α → α → Option α) (i : Key) (x y : α) (s t : Tree α) : Tree α :=
  match phi i x y with
  | none => empty
  | some w => if sh.value w x then s else if sh.value w y then t else lf i w

def occur0 (sh : Sharing α) (phi : Key → α → α → Option α) (i : Key) (x : α) (s t : Tree α) : Tree α :=
  (findq i t).elim empty fun yt => lfq sh phi i x yt.1 s yt.2

def occur1 (sh : Sharing α) (phi : Key → α → α → Option α) (j : Key) (y : α) (s t : Tree α) : Tree α :=
  (findq j s).elim empty fun xs => lfq sh phi j xs.1 y xs.2 t

@[grind =] def interq (sh : Sharing α) (phi : Key → α → α → Option α) (s t : Tree α) : Tree α :=
  match s,t with
  | empty,_ => empty
  | _,empty => empty
  | lf i x,lf j y => if i = j then lfq sh phi i x y (lf i x) (lf j y) else empty
  | lf i x,br q t0 t1 => occur0 sh phi i x (lf i x) (br q t0 t1)
  | br p s0 s1,lf j y => occur1 sh phi j y (br p s0 s1) (lf j y)
  | br p s0 s1,br q t0 t1 =>
    if p = q then glue2 sh (interq sh phi s0 t0) (interq sh phi s1 t1) s0 s1 (br p s0 s1) t0 t1 (br q t0 t1)
    else if includedPrefix p q then
      if zeroBit q p then interq sh phi s0 (br q t0 t1) else interq sh phi s1 (br q t0 t1)
    else if includedPrefix q p then
      if zeroBit p q then interq sh phi (br p s0 s1) t0 else interq sh phi (br p s0 s1) t1
    else empty
termination_by sizeOf s + sizeOf t

def br2u (sh : Sharing α) (p : Key) (s0' s1' s' t0' t1' t' t0 t1 : Tree α) : Tree α :=
  if sh.tree s0' t0 && sh.tree s1' t1 then s'
  else if sh.tree t0' t0 && sh.tree t1' t1 then t'
  else br p t0 t1

def br0u (sh : Sharing α) (p : Key) (t0' t1' t' t0 : Tree α) : Tree α := if sh.tree t0' t0 then t' else br p t0 t1'

def br1u (sh : Sharing α) (p : Key) (t0' t1' t' t1 : Tree α) : Tree α := if sh.tree t1' t1 then t' else br p t0' t1

@[grind =] def union (sh : Sharing α) (phi : Key → α → α → α) (s t : Tree α) : Tree α :=
  match s,t with
  | empty,t => t
  | s,empty => s
  | lf i x,lf j y =>
    if i = j then
      if sh.value (phi i x y) x then lf i x else if sh.value (phi i x y) y then lf j y else lf i (phi i x y)
    else join i (lf i x) j (lf j y)
  | lf i x,br q t0 t1 => insert sh phi i x (br q t0 t1)
  | br p s0 s1,lf j y => insert sh (fun j y x => phi j x y) j y (br p s0 s1)
  | br p s0 s1,br q t0 t1 =>
    if p = q then br2u sh p s0 s1 (br p s0 s1) t0 t1 (br q t0 t1) (union sh phi s0 t0) (union sh phi s1 t1)
    else if includedPrefix p q then
      if zeroBit q p then br0u sh p s0 s1 (br p s0 s1) (union sh phi s0 (br q t0 t1))
      else br1u sh p s0 s1 (br p s0 s1) (union sh phi s1 (br q t0 t1))
    else if includedPrefix q p then
      if zeroBit p q then br0u sh q t0 t1 (br q t0 t1) (union sh phi (br p s0 s1) t0)
      else br1u sh q t0 t1 (br q t0 t1) (union sh phi (br p s0 s1) t1)
    else join p (br p s0 s1) q (br q t0 t1)
termination_by sizeOf s + sizeOf t

def map1 (phi : Key → Option α → Option β → Option γ) (s : Tree α) : Tree γ := mapf (fun i x => phi i (some x) none) s

def map2 (phi : Key → Option α → Option β → Option γ) (t : Tree β) : Tree γ := mapf (fun j y => phi j none (some y)) t

@[grind =] def merge (phi : Key → Option α → Option β → Option γ) (s : Tree α) (t : Tree β) : Tree γ :=
  match s,t with
  | empty,t => map2 phi t
  | s,empty => map1 phi s
  | lf i x,lf j y =>
    if i = j then lfOpt i (phi i (some x) (some y))
    else glue (lfOpt i (phi i (some x) none)) (lfOpt j (phi j none (some y)))
  | lf i x,br q t0 t1 =>
    if matchPrefix i q then
      if zeroBit i q then glue (merge phi (lf i x) t0) (map2 phi t1)
      else glue (map2 phi t0) (merge phi (lf i x) t1)
    else glue (lfOpt i (phi i (some x) none)) (map2 phi (br q t0 t1))
  | br p s0 s1,lf j y =>
    if matchPrefix j p then
      if zeroBit j p then glue (merge phi s0 (lf j y)) (map1 phi s1)
      else glue (map1 phi s0) (merge phi s1 (lf j y))
    else glue (map1 phi (br p s0 s1)) (lfOpt j (phi j none (some y)))
  | br p s0 s1,br q t0 t1 =>
    if p = q then glue (merge phi s0 t0) (merge phi s1 t1)
    else if includedPrefix p q then
      if zeroBit q p then glue (merge phi s0 (br q t0 t1)) (map1 phi s1)
      else glue (map1 phi s0) (merge phi s1 (br q t0 t1))
    else if includedPrefix q p then
      if zeroBit p q then glue (merge phi (br p s0 s1) t0) (map2 phi t1)
      else glue (map2 phi t0) (merge phi (br p s0 s1) t1)
    else glue (map1 phi (br p s0 s1)) (map2 phi (br q t0 t1))
termination_by sizeOf s + sizeOf t

@[grind =] def intersectf (phi : Key → α → β → Bool) (s : Tree α) (t : Tree β) : Bool :=
  match s,t with
  | empty,_ => false
  | _,empty => false
  | lf i x,lf j y => if i = j then phi i x y else false
  | lf i x,br q t0 t1 => (find i (br q t0 t1)).elim false (phi i x)
  | br p s0 s1,lf j y => (find j (br p s0 s1)).elim false fun x => phi j x y
  | br p s0 s1,br q t0 t1 =>
    if p = q then intersectf phi s0 t0 || intersectf phi s1 t1
    else if includedPrefix p q then
      if zeroBit q p then intersectf phi s0 (br q t0 t1) else intersectf phi s1 (br q t0 t1)
    else if includedPrefix q p then
      if zeroBit p q then intersectf phi (br p s0 s1) t0 else intersectf phi (br p s0 s1) t1
    else false
termination_by sizeOf s + sizeOf t

@[grind =] def subsetf (phi : Key → α → β → Bool) (s : Tree α) (t : Tree β) : Bool :=
  match s,t with
  | empty,_ => true
  | _,empty => false
  | lf i x,lf j y => if i = j then phi i x y else false
  | lf i x,br q t0 t1 => (find i (br q t0 t1)).elim false (phi i x)
  | br _ _ _,lf _ _ => false
  | br p s0 s1,br q t0 t1 =>
    if p = q then subsetf phi s0 t0 && subsetf phi s1 t1
    else if includedPrefix p q then false
    else if includedPrefix q p then
      if zeroBit p q then subsetf phi (br p s0 s1) t0 else subsetf phi (br p s0 s1) t1
    else false
termination_by sizeOf s + sizeOf t

def bindings : Tree α → List (Key × α)
  | empty => []
  | lf k x => [(k,x)]
  | br _ t0 t1 => t0.bindings ++ t1.bindings

/-- No branch has an empty child; the keys below it have its prefix, with a zero at the branching bit on the left and a
one on the right. -/
def Canonical : Tree α → Prop
  | empty => True
  | lf _ _ => True
  | br p t0 t1 => t0 ≠ empty ∧ t1 ≠ empty ∧ t0.Canonical ∧ t1.Canonical ∧ ∃ i, LowestZero p i ∧
      (∀ b ∈ t0.bindings, b.1.toNat / 2 ^ (i + 1) = p.toNat / 2 ^ (i + 1) ∧ b.1.getLsbD i = false) ∧
      ∀ b ∈ t1.bindings, b.1.toNat / 2 ^ (i + 1) = p.toNat / 2 ^ (i + 1) ∧ b.1.getLsbD i = true

end Tree

end FramaC.Qed.Intmap
