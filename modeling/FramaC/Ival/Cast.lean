import FramaC.Ival.Division

/-! # Casts, differences and backward comparisons

`all_values_table` only memoises `create_all_values_modu` for the current value of
`small_cardinal` and is dropped.
-/
namespace FramaC.Ival
open Integer Progression Outcome

/-- The loop of `set_small_cardinal`; `p` doubles, so `i` rounds are enough. -/
def logLoop (i : ℕ) : ℕ → ℕ → ℕ → ℕ
  | 0, j, _ => j
  | fuel + 1, j, p => if i ≤ p then j else logLoop i fuel (j + 1) (2 * p)

def smallCardinalLog (sc : ℕ) : ℕ := logLoop sc sc 1 2

def createAllValuesModu (sc : ℕ) (modu : ℤ) (signed : Bool) (size : ℤ) : Res Ival :=
  if signed then do
    let b ← twoPowerOfInt (size - 1)
    injectTop sc (some (roundUpToR (-b) 0 modu)) (some (roundDownToR (b - 1) 0 modu)) 0 modu
  else do
    let b ← twoPowerOfInt size
    injectTop sc (some 0) (some (roundDownToR (b - 1) 0 modu)) 0 modu

def createAllValues (sc : ℕ) (signed : Bool) (size : ℤ) : Res Ival :=
  if size ≤ smallCardinalLog sc then createAllValuesModu sc 1 signed size
  else if signed then do
    let b ← twoPowerOfInt (size - 1)
    return .topItv (some (-b)) (some (b - 1)) 0 1
  else do
    let b ← twoPowerOfInt size
    return .topItv (some 0) (some (b - 1)) 0 1

/-- `best_effort`, with `factor` and `mask` the powers of two for the size and its predecessor. -/
def bestEffort (sc : ℕ) (signed : Bool) (factor mask r m : ℤ) : Res Ival :=
  let modu := pgcd factor m
  let rr := r % modu
  let minVal := some (if signed then roundUpToR (-mask) rr modu else roundUpToR 0 rr modu)
  let maxVal := some (if signed then roundDownToR (mask - 1) rr modu else roundDownToR (factor - 1) rr modu)
  injectTop sc minVal maxVal rr modu

/-- `result` of `cast_int_to_int`. -/
def castResult (sc : ℕ) (size : ℤ) (signed : Bool) (value : Ival) : Res Ival := do
  let factor ← twoPower size
  let mask ← twoPower (size - 1)
  let notPFactor := -factor
  match value with
  | .topItv (some mn) (some mx) r m =>
    let (highbitsMn,highbitsMx) :=
      if signed then (logand (mn + mask) notPFactor,logand (mx + mask) notPFactor)
      else (logand mn notPFactor,logand mx notPFactor)
    if highbitsMn = highbitsMx then
      if isZero highbitsMn then return value
      else
        let newMin ← Integer.cast size signed mn
        let newR := newMin % m
        injectTop sc (some newMin) (some (← Integer.cast size signed mx)) newR m
    else bestEffort sc signed factor mask r m
  | .topItv _ _ r m => bestEffort sc signed factor mask r m
  | .set s =>
    let all ← createAllValues sc signed (← toInt size)
    if isIncluded value all then return value
    else
      return injectPs (← s.foldlM (fun acc v => do return addPs sc acc (← Integer.cast size signed v)) emptyPs)

def castIntToInt (sc : ℕ) (size : ℤ) (signed : Bool) (value : Ival) : Res Ival := do
  if equal top value then createAllValues sc signed (← toInt size)
  else
    let result ← castResult sc size signed value
    if equal result value then return value else return result

/-- The array built when one element is taken out of a progression of `small_cardinal + 1`. -/
def diffTerms (v m : ℤ) : ℕ → ℤ → List ℤ
  | 0, _ => []
  | n + 1, c =>
    let correctedC := if c = v then c + m else c
    correctedC :: diffTerms v m n (correctedC + m)

def diffIfOne (sc : ℕ) (value rem : Ival) : Res Ival :=
  match rem, value with
  | .set [v], .set a =>
    match arrayMem v a with
    | some index => return shareArray (a.take index ++ a.drop (index + 1)) (a.length - 1)
    | none => return value
  | .set [v], .topItv mn mx r m =>
    if mn = some v then injectTop sc (some (v + m)) mx r m
    else if mx = some v then injectTop sc mn (some (v - m)) r m
    else
      match mn, mx with
      | some a, some b =>
        if b - a = m * sc ∧ inInterval v mn mx r m then return .set (diffTerms v m sc a) else return value
      | _, _ => return value
  | _, _ => return value

def backwardLeInt (sc : ℕ) (max : Option ℤ) (v : Ival) : Res Ival := narrow sc v (.topItv none max 0 1)
def backwardGeInt (sc : ℕ) (min : Option ℤ) (v : Ival) : Res Ival := narrow sc v (.topItv min none 0 1)
def backwardLtInt (sc : ℕ) (max : Option ℤ) (v : Ival) : Res Ival := backwardLeInt sc (opt1 (· - 1) max) v
def backwardGtInt (sc : ℕ) (min : Option ℤ) (v : Ival) : Res Ival := backwardGeInt sc (opt1 (· + 1) min) v

/-- `Comp.t`. -/
inductive Comp
  | lt
  | gt
  | le
  | ge
  | eq
  | ne
  deriving DecidableEq, Repr

def backwardCompIntLeft (sc : ℕ) (op : Comp) (l r : Ival) : Res Ival :=
  catchBottom
    (match op with
    | .le => do backwardLeInt sc (← maxInt r) l
    | .ge => do backwardGeInt sc (← minInt r) l
    | .lt => do backwardLtInt sc (← maxInt r) l
    | .gt => do backwardGtInt sc (← minInt r) l
    | .eq => narrow sc l r
    | .ne => diffIfOne sc l r)

theorem logLoop_spec {i fuel j : ℕ} (h : i ≤ 2 ^ (j + fuel)) : i ≤ 2 ^ logLoop i fuel j (2 ^ j) := by
  induction fuel generalizing j with
  | zero => exact h
  | succ fuel ih =>
    unfold logLoop
    split
    · assumption
    · rw [← pow_succ']
      exact ih (by rwa [show j + 1 + fuel = j + (fuel + 1) by omega])

theorem le_two_pow_log (sc : ℕ) : sc ≤ 2 ^ smallCardinalLog sc := by
  have h : sc ≤ 2 ^ (1 + sc) := (Nat.lt_two_pow_self).le.trans (Nat.pow_le_pow_right (by omega) (by omega))
  exact logLoop_spec h

section Casts
variable {sc : ℕ} {v : Ival}

theorem createAllValues_wf (hsc : 2 ≤ sc) (signed : Bool) {size : ℤ} (hs : 1 ≤ size) :
    ∃ v, createAllValues sc signed size = .ok v ∧ Wf sc v := by
  unfold createAllValues
  split
  · unfold createAllValuesModu
    split
    · rw [twoPowerOfInt_ok (by omega),Res.ok_bind]
      obtain ⟨v,hv,hw,_⟩ := injectTop_spec hsc (reduced_unit _ _)
      exact ⟨v,hv,hw⟩
    · rw [twoPowerOfInt_ok (by omega),Res.ok_bind]
      obtain ⟨v,hv,hw,_⟩ := injectTop_spec hsc (reduced_unit _ _)
      exact ⟨v,hv,hw⟩
  · rename_i hlog
    have hbig : (sc : ℤ) + 1 ≤ 2 ^ size.toNat := by
      have h1 : 2 ^ (smallCardinalLog sc + 1) ≤ 2 ^ size.toNat := Nat.pow_le_pow_right (by omega) (by omega)
      have h2 := le_two_pow_log sc
      rw [pow_succ] at h1
      have h3 : sc + 1 ≤ 2 ^ size.toNat := by omega
      exact_mod_cast h3
    split
    · rw [twoPowerOfInt_ok (by omega)]
      have hsplit : (2 : ℤ) ^ size.toNat = 2 ^ (size - 1).toNat * 2 := by
        rw [← pow_succ]
        congr 1
        omega
      refine ⟨_,rfl,wf_topItv_iff.mpr ⟨reduced_unit _ _,?_⟩⟩
      rintro _ ⟨⟩ _ ⟨⟩
      omega
    · rw [twoPowerOfInt_ok (by omega)]
      refine ⟨_,rfl,wf_topItv_iff.mpr ⟨reduced_unit _ _,?_⟩⟩
      rintro _ ⟨⟩ _ ⟨⟩
      omega

theorem cast_ok {size : ℤ} (h1 : 1 ≤ size) (h2 : size ≤ 1024) (signed : Bool) (x : ℤ) :
    Integer.cast size signed x = .ok
      (if signed then (x + 2 ^ (size - 1).toNat) % 2 ^ size.toNat - 2 ^ (size - 1).toNat
      else x % 2 ^ size.toNat) := by
  obtain ⟨k,hk⟩ : ∃ k : ℕ, size = k + 1 := ⟨(size - 1).toNat,by omega⟩
  have hk1 : size.toNat = k + 1 := by omega
  have hk2 : (size - 1).toNat = k := by omega
  cases signed with
  | false =>
    simp only [Integer.cast,twoPower_ok (by omega : 0 ≤ size) h2,Res.ok_bind,Bool.not_false,if_true,logand,
      Bits.land_two_pow_sub_one,Bool.false_eq_true,if_false]
    rfl
  | true =>
    have hpow : (0 : ℤ) < 2 ^ k := by positivity
    have hmod := Bits.emod_two_pow_succ x k
    have h0 := Int.emod_nonneg x hpow.ne'
    have hlt := Int.emod_lt_of_pos x hpow
    have hadd : (x + 2 ^ k) % 2 ^ (k + 1) = (x % 2 ^ (k + 1) + 2 ^ k) % 2 ^ (k + 1) := by
      rw [Int.emod_add_emod]
    have hsucc : (2 : ℤ) ^ (k + 1) = 2 ^ k + 2 ^ k := by rw [pow_succ]; ring
    simp only [Integer.cast,twoPower_ok (by omega : 0 ≤ size - 1) (by omega),Res.ok_bind,Bool.not_true,
      Bool.false_eq_true,if_false,if_true,logand,Bits.land_two_pow_left,hk1,hk2,hadd,hmod]
    by_cases hb : x.testBit k = true
    · rw [if_pos hb,if_neg hpow.ne']
      rw [show x % 2 ^ k + 2 ^ k + 2 ^ k = x % 2 ^ k + 2 ^ (k + 1) by rw [hsucc]; ring,Int.add_emod_right,
        Int.emod_eq_of_lt h0 (by omega),logor,lognot,Bits.lnot_eq,
        show -((2 : ℤ) ^ k - 1) - 1 = -2 ^ k by ring,Bits.lor_neg_two_pow]
      rfl
    · rw [if_neg hb,if_pos rfl,add_zero,Int.emod_eq_of_lt (by omega) (by omega),
        Bits.land_two_pow_sub_one,add_sub_cancel_right]
      rfl

theorem bestEffort_wf (hsc : 2 ≤ sc) (signed : Bool) {factor mask r m : ℤ} (hm : 1 ≤ m) :
    ∃ v, bestEffort sc signed factor mask r m = .ok v ∧ Wf sc v := by
  have hg : 1 ≤ pgcd factor m := one_le_pgcd_right hm
  have h0 : 0 ≤ r % pgcd factor m := Int.emod_nonneg _ (by omega)
  have hlt : r % pgcd factor m < pgcd factor m := Int.emod_lt_of_pos _ (by omega)
  cases signed with
  | true =>
    obtain ⟨v,hv,hw,_⟩ := injectTop_spec hsc (reduced_round (some (-mask)) (some (mask - 1)) h0 hlt)
    exact ⟨v,hv,hw⟩
  | false =>
    obtain ⟨v,hv,hw,_⟩ := injectTop_spec hsc (reduced_round (some 0) (some (factor - 1)) h0 hlt)
    exact ⟨v,hv,hw⟩

theorem cast_translate {size : ℤ} (h1 : 1 ≤ size) (h2 : size ≤ 1024) (signed : Bool) {a b : ℤ}
    (h : (if signed then logand (a + 2 ^ (size - 1).toNat) (-2 ^ size.toNat) else logand a (-2 ^ size.toNat)) =
      if signed then logand (b + 2 ^ (size - 1).toNat) (-2 ^ size.toNat) else logand b (-2 ^ size.toNat)) :
    ∃ a' b', Integer.cast size signed a = .ok a' ∧ Integer.cast size signed b = .ok b' ∧ b' - a' = b - a := by
  refine ⟨_,_,cast_ok h1 h2 signed a,cast_ok h1 h2 signed b,?_⟩
  cases signed with
  | true =>
    simp only [if_true,logand,Bits.land_neg_two_pow] at h ⊢
    omega
  | false =>
    simp only [Bool.false_eq_true,if_false,logand,Bits.land_neg_two_pow] at h ⊢
    omega

theorem castResult_wf (hsc : 2 ≤ sc) (h : Wf sc v) {size : ℤ} (h1 : 1 ≤ size) (h2 : size ≤ 1024) (signed : Bool) :
    ∃ v', castResult sc size signed v = .ok v' ∧ Wf sc v' := by
  unfold castResult
  rw [twoPower_ok (by omega) h2,Res.ok_bind,twoPower_ok (by omega) (by omega),Res.ok_bind]
  cases v with
  | set s =>
    obtain ⟨all,hall,_⟩ := createAllValues_wf hsc signed h1
    simp only [toInt_ok (n := size) ⟨by omega,by omega⟩,Res.ok_bind,hall]
    split
    · exact ⟨_,rfl,h⟩
    · have hfold : Sat (fun ps => ∃ E, PreSet.Holds sc E ps) (fun _ => False)
          (s.foldlM (fun acc v => do return addPs sc acc (← Integer.cast size signed v)) emptyPs) := by
        refine Sat.foldlM ⟨∅,emptyPs_holds sc⟩ fun ps e _ hps => ?_
        obtain ⟨E,hE⟩ := hps
        rw [cast_ok h1 h2,Res.ok_bind]
        exact ⟨_,addPs_holds hsc hE _⟩
      obtain ⟨ps,hps,E,hE⟩ := hfold.exists_ok
      exact ⟨_,by rw [hps]; rfl,(injectPs_spec hE).1⟩
  | topItv mn mx r m =>
    have hr := (wf_topItv_iff.mp h).1
    have hm := hr.pos
    cases mn with
    | none => exact bestEffort_wf hsc signed hm
    | some a =>
      cases mx with
      | none => exact bestEffort_wf hsc signed hm
      | some b =>
        have htr := fun hh => cast_translate (a := a) (b := b) h1 h2 signed hh
        have fin : ∀ {a' b' : ℤ}, b' - a' = b - a →
            ∃ v', injectTop sc (some a') (some b') (a' % m) m = .ok v' ∧ Wf sc v' := by
          intro a' b' hab
          have hd : b' % m = a' % m := by
            rw [Int.emod_eq_emod_iff_emod_sub_eq_zero,hab,← Int.emod_eq_emod_iff_emod_sub_eq_zero,
              hr.lower a rfl,hr.upper b rfl]
          have hred : Reduced (some a') (some b') (a' % m) m :=
            ⟨hm,Int.emod_nonneg _ (by omega),Int.emod_lt_of_pos _ (by omega),by rintro _ ⟨⟩; rfl,
              by rintro _ ⟨⟩; exact hd⟩
          obtain ⟨v',hv,hw,_⟩ := injectTop_spec hsc hred
          exact ⟨v',hv,hw⟩
        cases signed with
        | true =>
          simp only [if_true] at htr ⊢
          split
          · rename_i heq
            split
            · exact ⟨_,rfl,h⟩
            · obtain ⟨a',b',ha',hb',hab⟩ := htr heq
              rw [ha',Res.ok_bind,hb',Res.ok_bind]
              exact fin hab
          · exact bestEffort_wf hsc true hm
        | false =>
          simp only [Bool.false_eq_true,if_false] at htr ⊢
          split
          · rename_i heq
            split
            · exact ⟨_,rfl,h⟩
            · obtain ⟨a',b',ha',hb',hab⟩ := htr heq
              rw [ha',Res.ok_bind,hb',Res.ok_bind]
              exact fin hab
          · exact bestEffort_wf hsc false hm

theorem castIntToInt_wf (hsc : 2 ≤ sc) (h : Wf sc v) {size : ℤ} (h1 : 1 ≤ size) (h2 : size ≤ 1024)
    (signed : Bool) : ∃ v', castIntToInt sc size signed v = .ok v' ∧ Wf sc v' := by
  unfold castIntToInt
  split
  · rw [toInt_ok ⟨by omega,by omega⟩,Res.ok_bind]
    exact createAllValues_wf hsc signed h1
  · obtain ⟨w,hw,hww⟩ := castResult_wf hsc h h1 h2 signed
    rw [hw,Res.ok_bind]
    split
    · exact ⟨_,rfl,h⟩
    · exact ⟨_,rfl,hww⟩

end Casts

section Backward
variable {sc : ℕ} {v v' l r : Ival}

theorem diffTerms_spec {x m : ℤ} (hm : 1 ≤ m) (n : ℕ) (c : ℤ) :
    (diffTerms x m n c).Pairwise (· < ·) ∧ (diffTerms x m n c).length = n ∧ ∀ y ∈ diffTerms x m n c, c ≤ y := by
  induction n generalizing c with
  | zero => simp [diffTerms]
  | succ n ih =>
    have hc : c ≤ if c = x then c + m else c := by split <;> omega
    obtain ⟨h1,h2,h3⟩ := ih ((if c = x then c + m else c) + m)
    simp only [diffTerms]
    refine ⟨List.pairwise_cons.mpr ⟨fun y hy => ?_,h1⟩,by simp [h2],fun y hy => ?_⟩
    · have := h3 y hy
      omega
    · rcases List.mem_cons.mp hy with rfl | hy
      · exact hc
      · have := h3 y hy
        omega

theorem getElem?_of_arrayMem {x : ℤ} {a : List ℤ} {i : ℕ} (h : arrayMem x a = some i) : a[i]? = some x := by
  induction a generalizing i with
  | nil => simp [arrayMem] at h
  | cons e a ih =>
    simp only [arrayMem] at h
    split at h
    · rename_i he
      cases h
      simp [he]
    · split at h
      · cases h
      · obtain ⟨j,hj,rfl⟩ := Option.map_eq_some_iff.mp h
        simpa using ih hj

theorem arrayMem_lt {x : ℤ} {a : List ℤ} {i : ℕ} (h : arrayMem x a = some i) : i < a.length :=
  (List.getElem?_eq_some_iff.mp (getElem?_of_arrayMem h)).1

theorem arrayMem_isSome {x : ℤ} {a : List ℤ} (ha : a.Pairwise (· < ·)) : (arrayMem x a).isSome = true ↔ x ∈ a := by
  induction a with
  | nil => simp [arrayMem]
  | cons e a ih =>
    obtain ⟨hlt,ha⟩ := List.pairwise_cons.mp ha
    simp only [arrayMem]
    split
    · rename_i he
      simp [he]
    · rename_i hne
      split
      · rename_i hgt
        have hnot : x ∉ a := fun hx => by
          have := hlt x hx
          omega
        simp [hnot,Ne.symm hne]
      · simp [ih ha,Ne.symm hne]

theorem diffIfOne_wf (hsc : 2 ≤ sc) (h : Wf sc v) : ∃ w, diffIfOne sc v v' = .ok w ∧ Wf sc w := by
  unfold diffIfOne
  split
  · rename_i x a
    split
    · rename_i i hi
      have hlt := arrayMem_lt hi
      have hsub : (a.take i ++ a.drop (i + 1)).Sublist a := by
        conv_rhs => rw [← List.take_append_drop i a]
        exact List.Sublist.append_left (List.drop_sublist_drop_left a (by omega)) _
      have hlen : a.length - 1 = (a.take i ++ a.drop (i + 1)).length := by
        rw [List.length_append,List.length_take,List.length_drop]
        omega
      rw [hlen,shareArray_eq]
      exact ⟨_,rfl,h.1.sublist hsub,hsub.length_le.trans h.2⟩
    · exact ⟨_,rfl,h⟩
  · rename_i x mn mx r m
    obtain ⟨hr,hl⟩ := wf_topItv_iff.mp h
    have hm := hr.pos
    split
    · rename_i hx
      have hred : Reduced (some (x + m)) mx r m := by
        refine ⟨hm,hr.nonneg,hr.lt,?_,hr.upper⟩
        rintro _ ⟨⟩
        rw [Int.add_emod_right]
        exact hr.lower x hx
      obtain ⟨w,hw,hww,_⟩ := injectTop_spec hsc hred
      exact ⟨w,hw,hww⟩
    · split
      · rename_i hx
        have hred : Reduced mn (some (x - m)) r m := by
          refine ⟨hm,hr.nonneg,hr.lt,hr.lower,?_⟩
          rintro _ ⟨⟩
          rw [Int.sub_emod_right]
          exact hr.upper x hx
        obtain ⟨w,hw,hww,_⟩ := injectTop_spec hsc hred
        exact ⟨w,hw,hww⟩
      · split
        · rename_i a b _ _
          split
          · obtain ⟨h1,h2,_⟩ := diffTerms_spec (x := x) hm sc a
            exact ⟨_,rfl,h1,h2.le⟩
          · exact ⟨_,rfl,h⟩
        · exact ⟨_,rfl,h⟩
  · exact ⟨_,rfl,h⟩

theorem catchBottom_wf {body : Res Ival} (h : Sat (Wf sc) (fun e => e = .errorBottom) body) :
    ∃ v, catchBottom body = .ok v ∧ Wf sc v := by
  cases body with
  | ok v => exact ⟨v,rfl,h⟩
  | error e =>
    cases h
    exact ⟨bottom,rfl,wf_bottom sc⟩

theorem wf_half_line (sc : ℕ) (mn mx : Option ℤ) (h : mn = none ∨ mx = none) : Wf sc (.topItv mn mx 0 1) := by
  refine wf_topItv_iff.mpr ⟨reduced_unit mn mx,?_⟩
  rcases h with rfl | rfl <;> simp [Long]

theorem minInt_sat (r : Ival) : Sat (fun _ => True) (fun e => e = .errorBottom) (minInt r) := by
  cases r with
  | set s =>
    rw [minInt]
    split
    · exact rfl
    · trivial
  | topItv mn mx r m => trivial

theorem maxInt_sat (r : Ival) : Sat (fun _ => True) (fun e => e = .errorBottom) (maxInt r) := by
  cases r with
  | set s =>
    rw [maxInt]
    split
    · exact rfl
    · trivial
  | topItv mn mx r m => trivial

theorem backwardCompIntLeft_wf (hsc : 2 ≤ sc) (op : Comp) (hl : Wf sc l) (hr : Wf sc r) :
    ∃ v, backwardCompIntLeft sc op l r = .ok v ∧ Wf sc v := by
  have hnarrow : ∀ {w : Ival} {E : Exn → Prop}, Wf sc w → Sat (Wf sc) E (narrow sc l w) := by
    intro w E hw
    obtain ⟨v,hv,hvw,_⟩ := narrow_spec hsc hl hw
    exact Sat.of_ok hv hvw
  refine catchBottom_wf ?_
  cases op with
  | le => exact (maxInt_sat r).bind fun b _ => hnarrow (wf_half_line sc _ _ (.inl rfl))
  | ge => exact (minInt_sat r).bind fun b _ => hnarrow (wf_half_line sc _ _ (.inr rfl))
  | lt => exact (maxInt_sat r).bind fun b _ => hnarrow (wf_half_line sc _ _ (.inl rfl))
  | gt => exact (minInt_sat r).bind fun b _ => hnarrow (wf_half_line sc _ _ (.inr rfl))
  | eq => exact hnarrow hr
  | ne =>
    obtain ⟨v,hv,hvw⟩ := diffIfOne_wf hsc hl
    exact Sat.of_ok hv hvw

end Backward

end FramaC.Ival
