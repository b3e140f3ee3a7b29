import FramaC.Integer
import FramaC.Lib.Bits

/-! # Binary and hexadecimal printing

Digits are printed by blocks of 4 or of 16 bits, from the lowest block up, each block after those above it. A negative
number is printed as the complement of its `lognot`, under the prefix `1`. A text is the list of its characters. The
width is a machine integer; no text in memory is so wide that it wraps, so it is unbounded here.
-/
namespace FramaC.Integer

abbrev Text := List Char

def bdigits : List Text :=
  ["0000".toList,"0001".toList,"0010".toList,"0011".toList,"0100".toList,"0101".toList,"0110".toList,"0111".toList,
    "1000".toList,"1001".toList,"1010".toList,"1011".toList,"1100".toList,"1101".toList,"1110".toList,"1111".toList]

def ppBinPos (r : ℕ) : Text := bdigits.getD r []
def ppBinNeg (r : ℕ) : Text := bdigits.getD (15 - r) []

def hexChar (d : ℕ) : Char := if d < 10 then Char.ofNat (48 + d) else Char.ofNat (55 + d)

/-- The conversion `%04X`. -/
def format04X (r : ℕ) : Text := ((Nat.digits 16 r).reverse.map hexChar).leftpad 4 '0'

def ppHexPos (r : ℕ) : Text := format04X r
def ppHexNeg (r : ℕ) : Text := format04X (0xFFFF - r)

def bmaskBin : ℤ := 0xF
def bmaskHex : ℤ := 0xFFFF

/-- How the blocks are printed; the mask must be that of the size. -/
structure Digits where
  nbits : ℤ
  bsize : ℕ
  bmask : ℤ
  sep : Text
  pp : ℕ → Text
  bsize_pos : 0 < bsize
  bmask_eq : bmask = 2 ^ bsize - 1

def ppDigits (d : Digits) (n v : ℤ) : Text :=
  if 0 < v ∨ n < d.nbits then
    ppDigits d (n + d.bsize) (v.tdiv (2 ^ d.bsize)) ++
      (if d.bmask < v ∨ n + d.bsize < d.nbits then d.sep else []) ++ d.pp (logand v d.bmask).toNat
  else []
termination_by v.toNat + (d.nbits - n).toNat
decreasing_by
  have hpow : (2 : ℤ) ≤ 2 ^ d.bsize := by
    calc (2 : ℤ) = 2 ^ 1 := by norm_num
      _ ≤ 2 ^ d.bsize := pow_le_pow_right₀ (by norm_num) d.bsize_pos
  have hsize := d.bsize_pos
  rename_i hcond
  by_cases hv : 0 < v
  · have hlt : v.tdiv (2 ^ d.bsize) < v := by
      rw [Int.tdiv_eq_ediv_of_nonneg hv.le]
      exact Int.ediv_lt_self_of_pos_of_ne_one hv (by omega)
    omega
  · have hle : v.tdiv (2 ^ d.bsize) ≤ 0 := by
      rw [← neg_neg v,Int.neg_tdiv,Int.tdiv_eq_ediv_of_nonneg (by omega)]
      have := Int.ediv_nonneg (show 0 ≤ -v by omega) (show 0 ≤ (2 : ℤ) ^ d.bsize by omega)
      omega
    omega

def binDigits (nbits : ℤ) (sep : Text) (pp : ℕ → Text) : Digits := ⟨nbits,4,bmaskBin,sep,pp,by decide,by decide⟩

def hexDigits (nbits : ℤ) (sep : Text) (pp : ℕ → Text) : Digits := ⟨nbits,16,bmaskHex,sep,pp,by decide,by decide⟩

def width (nbits : Option ℤ) : ℤ := if nbits.getD 1 ≤ 0 then 1 else nbits.getD 1

def ppBin (nbits : Option ℤ) (sep : Option Text) (v : ℤ) : Text :=
  if 0 ≤ v then '0' :: 'b' :: ppDigits (binDigits (width nbits) (sep.getD []) ppBinPos) 0 v
  else '1' :: 'b' :: ppDigits (binDigits (width nbits) (sep.getD []) ppBinNeg) 0 (lognot v)

def ppHex (nbits : Option ℤ) (sep : Option Text) (v : ℤ) : Text :=
  if 0 ≤ v then '0' :: 'x' :: ppDigits (hexDigits (width nbits) (sep.getD []) ppHexPos) 0 v
  else '1' :: 'x' :: ppDigits (hexDigits (width nbits) (sep.getD []) ppHexNeg) 0 (lognot v)

def digitValue (b : ℕ) (c : Char) : Option ℕ :=
  let d := if '0' ≤ c ∧ c ≤ '9' then some (c.toNat - 48) else if 'A' ≤ c ∧ c ≤ 'F' then some (c.toNat - 55) else none
  d.filter (· < b)

@[grind =] def readDigits (b : ℕ) : ℕ → Text → Option ℕ
  | acc,[] => some acc
  | acc,c :: cs => (digitValue b c).bind fun d => readDigits b (acc * b + d) cs

/-- The number that a text stands for: unsigned after the prefix `0`, in two's complement after the prefix `1`. -/
@[grind =] def decode : Text → Option ℤ
  | '0' :: 'b' :: ds => (readDigits 2 0 ds).map fun n : ℕ => (n : ℤ)
  | '1' :: 'b' :: ds => (readDigits 2 0 ds).map fun n : ℕ => (n : ℤ) - 2 ^ ds.length
  | '0' :: 'x' :: ds => (readDigits 16 0 ds).map fun n : ℕ => (n : ℤ)
  | '1' :: 'x' :: ds => (readDigits 16 0 ds).map fun n : ℕ => (n : ℤ) - 2 ^ (4 * ds.length)
  | _ => none

def removeSep (s : Text) : Text := s.filter fun c => c ≠ '_'

theorem removeSep_append (s t : Text) : removeSep (s ++ t) = removeSep s ++ removeSep t := List.filter_append ..

theorem readDigits_append (b acc : ℕ) (s t : Text) :
    readDigits b acc (s ++ t) = (readDigits b acc s).bind fun n => readDigits b n t := by
  induction s generalizing acc with
  | nil => rfl
  | cons c cs ih =>
    rw [List.cons_append,readDigits,readDigits]
    cases digitValue b c with
    | none => rfl
    | some d => exact ih _

theorem digitValue_underscore (b : ℕ) : digitValue b '_' = none := rfl

theorem removeSep_of_read {b acc n : ℕ} {s : Text} (h : readDigits b acc s = some n) : removeSep s = s := by
  induction s generalizing acc with
  | nil => rfl
  | cons c cs ih =>
    rw [readDigits] at h
    obtain ⟨d,hd,hcs⟩ := Option.bind_eq_some_iff.1 h
    have hc : c ≠ '_' := by
      rintro rfl
      rw [digitValue_underscore] at hd
      cases hd
    rw [removeSep,List.filter_cons,if_pos (by simpa using hc)]
    exact congrArg (c :: ·) (ih hcs)

theorem digitValue_hexChar : ∀ d < 16, digitValue 16 (hexChar d) = some d := by decide

theorem readDigits_map_hexChar (acc : ℕ) (ds : List ℕ) (h : ∀ d ∈ ds, d < 16) :
    readDigits 16 acc (ds.map hexChar) = some (ds.foldl (fun a d => a * 16 + d) acc) := by
  induction ds generalizing acc with
  | nil => rfl
  | cons d ds ih =>
    rw [List.map_cons,readDigits,digitValue_hexChar d (h d List.mem_cons_self),List.foldl_cons]
    exact ih _ fun e he => h e (List.mem_cons_of_mem d he)

theorem readDigits_replicate_zero (k : ℕ) (s : Text) :
    readDigits 16 0 (List.replicate k '0' ++ s) = readDigits 16 0 s := by
  induction k with
  | zero => rfl
  | succ k ih =>
    rw [List.replicate_succ,List.cons_append,readDigits]
    exact ih

theorem readDigits_add (b : ℕ) (s : Text) (acc : ℕ) {a n : ℕ} (h : readDigits b a s = some n) :
    readDigits b (acc + a) s = some (acc * b ^ s.length + n) := by
  induction s generalizing acc a with
  | nil =>
    cases h
    simp [readDigits]
  | cons c cs ih =>
    rw [readDigits] at h ⊢
    obtain ⟨d,hd,hcs⟩ := Option.bind_eq_some_iff.1 h
    rw [hd,Option.bind_some,show (acc + a) * b + d = acc * b + (a * b + d) by ring,ih _ hcs,List.length_cons,pow_succ']
    congr 2
    ring

/-- What is printed of the values of one block, and read back from it. -/
structure Reads (b l k : ℕ) (pp : ℕ → Text) (f : ℕ → ℕ) : Prop where
  base : b ^ l = 2 ^ k
  length : ∀ r < 2 ^ k, (pp r).length = l
  read : ∀ r < 2 ^ k, readDigits b 0 (pp r) = some (f r)

theorem reads_ppBinPos : Reads 2 4 4 ppBinPos fun r => r := ⟨by decide,by decide,by decide⟩

theorem reads_ppBinNeg : Reads 2 4 4 ppBinNeg fun r => 2 ^ 4 - 1 - r := ⟨by decide,by decide,by decide⟩

theorem format04X_length {r : ℕ} (hr : r < 2 ^ 16) : (format04X r).length = 4 := by
  have hle : (Nat.digits 16 r).length ≤ 4 := (Nat.digits_length_le_iff (by norm_num) r).2 hr
  simp only [format04X,List.leftpad,List.length_append,List.length_replicate,List.length_map,List.length_reverse]
  omega

theorem read_format04X (r : ℕ) : readDigits 16 0 (format04X r) = some r := by
  have hlt : ∀ d ∈ (Nat.digits 16 r).reverse, d < 16 := by
    intro d hd
    exact Nat.digits_lt_base (by norm_num) (List.mem_reverse.1 hd)
  rw [format04X,List.leftpad,readDigits_replicate_zero,readDigits_map_hexChar 0 _ hlt,List.foldl_reverse]
  conv_rhs => rw [← Nat.ofDigits_digits 16 r]
  rw [Nat.ofDigits_eq_foldr]
  congr 2
  funext d a
  push_cast
  ring

theorem reads_ppHexPos : Reads 16 4 16 ppHexPos fun r => r :=
  ⟨by norm_num,fun _ hr => format04X_length hr,fun r _ => read_format04X r⟩

theorem reads_ppHexNeg : Reads 16 4 16 ppHexNeg fun r => 2 ^ 16 - 1 - r :=
  ⟨by norm_num,fun r _ => format04X_length (by omega),fun r _ => read_format04X _⟩

/-- The value that `m` blocks show of a number: the number, or its complement. -/
def shown (neg : Bool) (k m : ℕ) (v : ℤ) : ℤ := if neg then 2 ^ (k * m) - 1 - v else v

theorem shown_succ (neg : Bool) (k m : ℕ) (v : ℤ) : shown neg k (m + 1) v =
    shown neg k m (v / 2 ^ k) * 2 ^ k + shown neg k 1 (v % 2 ^ k) := by
  have hdiv := Int.mul_ediv_add_emod v (2 ^ k)
  have hpow : (2 : ℤ) ^ (k * (m + 1)) = 2 ^ (k * m) * 2 ^ k := by
    rw [Nat.mul_succ,pow_add]
  cases neg with
  | false =>
    simp only [shown,Bool.false_eq_true,if_false]
    linarith
  | true =>
    simp only [shown,if_true,hpow,Nat.mul_one]
    linarith

section digits

variable {d : Digits} {b l : ℕ} {neg : Bool}

variable (neg) in
theorem ppDigits_spec {f : ℕ → ℕ} (hpp : Reads b l d.bsize d.pp f)
    (hf : ∀ r < 2 ^ d.bsize, (f r : ℤ) = shown neg d.bsize 1 r) (hsep : removeSep d.sep = []) (n : ℤ) {v : ℤ}
    (hv : 0 ≤ v) : ∃ m x : ℕ, readDigits b 0 (removeSep (ppDigits d n v)) = some x ∧ x = shown neg d.bsize m v ∧
      (removeSep (ppDigits d n v)).length = l * m ∧ d.nbits ≤ n + d.bsize * m ∧ v < 2 ^ (d.bsize * m) := by
  induction n,v using ppDigits.induct d with
  | case1 n v hcond ih =>
    have hpos : (0 : ℤ) < 2 ^ d.bsize := by positivity
    have htdiv : v.tdiv (2 ^ d.bsize) = v / 2 ^ d.bsize := Int.tdiv_eq_ediv_of_nonneg hv
    have hrem : (logand v d.bmask).toNat = (v % 2 ^ d.bsize).toNat := by
      rw [d.bmask_eq,logand,Bits.land_two_pow_sub_one]
    rw [htdiv] at ih
    obtain ⟨m,x,hx,hxv,hlen,hbits,hlt⟩ := ih (Int.ediv_nonneg hv hpos.le)
    have hr0 := Int.emod_nonneg v hpos.ne'
    have hr1 := Int.emod_lt_of_pos v hpos
    have hr : (v % 2 ^ d.bsize).toNat < 2 ^ d.bsize := by
      zify
      rw [Int.toNat_of_nonneg hr0]
      exact hr1
    have hread := hpp.read _ hr
    have hstrip : ∀ (c : Prop) [Decidable c], removeSep (if c then d.sep else []) = [] := by
      intro c _
      split
      · exact hsep
      · rfl
    have hout : removeSep (ppDigits d n v) = removeSep (ppDigits d (n + d.bsize) (v / 2 ^ d.bsize)) ++
        d.pp (v % 2 ^ d.bsize).toNat := by
      rw [ppDigits,if_pos hcond,htdiv,hrem,removeSep_append,removeSep_append,removeSep_of_read hread,
        hstrip,List.append_nil]
    refine ⟨m + 1,x * 2 ^ d.bsize + f (v % 2 ^ d.bsize).toNat,?_,?_,?_,?_,?_⟩
    · rw [hout,readDigits_append,hx,Option.bind_some]
      have hadd := readDigits_add b (d.pp (v % 2 ^ d.bsize).toNat) x hread
      rw [Nat.add_zero,hpp.length _ hr,hpp.base] at hadd
      exact hadd
    · push_cast
      rw [shown_succ,← hxv,hf _ hr,Int.toNat_of_nonneg hr0]
    · rw [hout,List.length_append,hlen,hpp.length _ hr]
      ring
    · push_cast
      linarith
    · rw [Nat.mul_succ,pow_add]
      exact (Int.ediv_lt_iff_lt_mul hpos).1 hlt
  | case2 n v hcond =>
    obtain ⟨hv0,hn⟩ := not_or.1 hcond
    have hzero : v = 0 := le_antisymm (not_lt.1 hv0) hv
    have hnil : ppDigits d n v = [] := by
      rw [ppDigits,if_neg hcond]
    rw [hnil,hzero]
    refine ⟨0,0,rfl,?_,rfl,?_,?_⟩
    · cases neg <;> simp [shown]
    · simpa using hn
    · simp

end digits

theorem shown_false_one (k r : ℕ) : ((r : ℕ) : ℤ) = shown false k 1 r := rfl

theorem shown_true_one {k r : ℕ} (hr : r < 2 ^ k) : ((2 ^ k - 1 - r : ℕ) : ℤ) = shown true k 1 r := by
  rw [shown,if_pos rfl,Nat.mul_one,Nat.cast_sub (by omega),Nat.cast_sub Nat.one_le_two_pow]
  push_cast
  rfl

def separator (hasSep : Bool) : Option Text := if hasSep then some "_".toList else none

theorem removeSep_separator (hasSep : Bool) : removeSep ((separator hasSep).getD []) = [] := by
  cases hasSep <;> decide

theorem removeSep_cons {c : Char} (hc : c ≠ '_') (s : Text) : removeSep (c :: s) = c :: removeSep s := by
  rw [removeSep,List.filter_cons,if_pos (by simpa using hc)]
  rfl

theorem le_width (nbits : Option ℤ) : nbits.getD 1 ≤ width nbits := by
  unfold width
  split <;> omega

theorem read_pos {d : Digits} {b l : ℕ} (hpp : Reads b l d.bsize d.pp fun r => r) (hsep : removeSep d.sep = []) {v : ℤ}
    (hv : 0 ≤ v) : ∃ m x : ℕ, readDigits b 0 (removeSep (ppDigits d 0 v)) = some x ∧ (x : ℤ) = v ∧
      (removeSep (ppDigits d 0 v)).length = l * m ∧ d.nbits ≤ d.bsize * m := by
  obtain ⟨m,x,hx,hxv,hlen,hbits,_⟩ := ppDigits_spec false hpp (fun r _ => shown_false_one _ r) hsep 0 hv
  refine ⟨m,x,hx,hxv,hlen,?_⟩
  rw [zero_add] at hbits
  exact hbits

theorem read_neg {d : Digits} {b l : ℕ} (hpp : Reads b l d.bsize d.pp fun r => 2 ^ d.bsize - 1 - r)
    (hsep : removeSep d.sep = []) {v : ℤ} (hv : v < 0) :
    ∃ m x : ℕ, readDigits b 0 (removeSep (ppDigits d 0 (lognot v))) = some x ∧ (x : ℤ) - 2 ^ (d.bsize * m) = v ∧
      (removeSep (ppDigits d 0 (lognot v))).length = l * m ∧ d.nbits ≤ d.bsize * m := by
  have hnot : lognot v = -v - 1 := Bits.lnot_eq v
  obtain ⟨m,x,hx,hxv,hlen,hbits,_⟩ := ppDigits_spec true hpp (fun _ hr => shown_true_one hr) hsep 0
    (show 0 ≤ lognot v by omega)
  refine ⟨m,x,hx,?_,hlen,?_⟩
  · rw [hxv,shown,if_pos rfl,hnot]
    ring
  · rw [zero_add] at hbits
    exact hbits

theorem ppBin_decodes (v : ℤ) (nbits : Option ℤ) (hasSep : Bool) :
    ∃ ds, removeSep (ppBin nbits (separator hasSep) v) = (if 0 ≤ v then '0' else '1') :: 'b' :: ds ∧
      decode (removeSep (ppBin nbits (separator hasSep) v)) = some v ∧ nbits.getD 1 ≤ ds.length := by
  have hwidth := le_width nbits
  have hsep := removeSep_separator hasSep
  rw [ppBin]
  generalize (separator hasSep).getD [] = sep at *
  by_cases hv : 0 ≤ v
  · obtain ⟨m,x,hx,hxv,hlen,hbits⟩ := read_pos (d := binDigits (width nbits) sep ppBinPos) reads_ppBinPos hsep hv
    rw [if_pos hv,if_pos hv,removeSep_cons (by decide),removeSep_cons (by decide)]
    refine ⟨_,rfl,?_,?_⟩
    · rw [decode,hx,← hxv]
      rfl
    · rw [hlen]
      exact (hwidth.trans hbits).trans (by push_cast; rfl)
  · obtain ⟨m,x,hx,hxv,hlen,hbits⟩ := read_neg (d := binDigits (width nbits) sep ppBinNeg) reads_ppBinNeg hsep (not_le.1 hv)
    rw [if_neg hv,if_neg hv,removeSep_cons (by decide),removeSep_cons (by decide)]
    refine ⟨_,rfl,?_,?_⟩
    · rw [decode,hx,hlen,← hxv]
      rfl
    · rw [hlen]
      exact (hwidth.trans hbits).trans (by push_cast; rfl)

theorem ppHex_decodes (v : ℤ) (nbits : Option ℤ) (hasSep : Bool) :
    ∃ ds, removeSep (ppHex nbits (separator hasSep) v) = (if 0 ≤ v then '0' else '1') :: 'x' :: ds ∧
      decode (removeSep (ppHex nbits (separator hasSep) v)) = some v ∧ nbits.getD 1 ≤ 4 * ds.length := by
  have hwidth := le_width nbits
  have hsep := removeSep_separator hasSep
  rw [ppHex]
  generalize (separator hasSep).getD [] = sep at *
  by_cases hv : 0 ≤ v
  · obtain ⟨m,x,hx,hxv,hlen,hbits⟩ := read_pos (d := hexDigits (width nbits) sep ppHexPos) reads_ppHexPos hsep hv
    rw [if_pos hv,if_pos hv,removeSep_cons (by decide),removeSep_cons (by decide)]
    refine ⟨_,rfl,?_,?_⟩
    · rw [decode,hx,← hxv]
      rfl
    · rw [hlen]
      exact (hwidth.trans hbits).trans (by simp only [hexDigits]; push_cast; omega)
  · obtain ⟨m,x,hx,hxv,hlen,hbits⟩ := read_neg (d := hexDigits (width nbits) sep ppHexNeg) reads_ppHexNeg hsep (not_le.1 hv)
    rw [if_neg hv,if_neg hv,removeSep_cons (by decide),removeSep_cons (by decide)]
    refine ⟨_,rfl,?_,?_⟩
    · rw [decode,hx,hlen,show 4 * (4 * m) = 16 * m by ring,← hxv]
      rfl
    · rw [hlen]
      exact (hwidth.trans hbits).trans (by simp only [hexDigits]; push_cast; omega)

/-- What is printed reads back, under the prefix of the sign, with at least the demanded bits. -/
theorem pretty_decodes (v : ℤ) (nbits : Option ℤ) (hasSep : Bool) :
    (∃ ds, removeSep (ppBin nbits (separator hasSep) v) = (if 0 ≤ v then '0' else '1') :: 'b' :: ds ∧
      decode (removeSep (ppBin nbits (separator hasSep) v)) = some v ∧ nbits.getD 1 ≤ ds.length) ∧
    ∃ ds, removeSep (ppHex nbits (separator hasSep) v) = (if 0 ≤ v then '0' else '1') :: 'x' :: ds ∧
      decode (removeSep (ppHex nbits (separator hasSep) v)) = some v ∧ nbits.getD 1 ≤ 4 * ds.length :=
  ⟨ppBin_decodes v nbits hasSep,ppHex_decodes v nbits hasSep⟩

end FramaC.Integer
