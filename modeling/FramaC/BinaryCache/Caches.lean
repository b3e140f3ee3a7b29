import FramaC.BinaryCache.Arrays

/-! # The caches

An entry holds the arguments of a call, then its result. A call overwrites the entry at its hash.
All values are fields of a block, and are taken up to the equality of their modules.
-/
namespace FramaC.BinaryCache
open Memo
variable {O A : Type}

def memoryFootprint : Option (Option ℤ) → ℕ
  | none => 2
  | some none => 2
  | some (some i) => if i ≤ 0 ∨ i > 10 then 2 else i.toNat

def cacheSize (env : Option (Option ℤ)) : NativeInt := 1#63 <<< (8 + memoryFootprint env)

structure Cacheable (O : Type) where
  hash : O → NativeInt
  sentinel : O
  equal : O → O → Bool
  eq_of_equal : ∀ {x y}, equal x y = true → x = y

/-- `has land mask`. -/
def slot (env : Option (Option ℤ)) (has : NativeInt) : ℕ := (has &&& (cacheSize env - 1)).toNat

def matchFields (n : ArrayN) (t : List O) (i : ℕ) : ℕ → List (Cacheable O × O) → Option Bool
  | _,[] => some true
  | r,(H,a) :: keys => do
    let x ← n.get t i r
    if H.equal x a then matchFields n t i (r + 1) keys else some false

def valueCache [Inhabited O] (env : Option (Option ℤ)) (n : ArrayN) (sentinels : List O) (has : A → NativeInt)
    (keys : A → List (Cacheable O × O)) : Table A O where
  State := List O
  make := n.make (cacheSize env).toNat sentinels
  clear t := n.clear t sentinels
  get t a := do
    let i := slot env (has a)
    if ← matchFields n t i 0 (keys a) then some <$> n.get t i (keys a).length else some none
  set t a r := n.set t (slot env (has a)) ((keys a).map Prod.snd ++ [r])
  order a := a

/-- A cache whose results are bits. Both arrays are forced by the first call. -/
def predicateCache [Inhabited O] (env : Option (Option ℤ)) (sentinels : List O) (has : A → NativeInt)
    (keys : A → List (Cacheable O × O)) (order : A → A) : Table A Bool where
  State := List O × ArrayBit
  make := do
    let t ← array2.make (cacheSize env).toNat sentinels
    some (t,ArrayBit.make (cacheSize env).toNat)
  clear s := do
    let t ← array2.clear s.1 sentinels
    some (t,ArrayBit.clear s.2)
  get s a := do
    let i := slot env (has a)
    if ← matchFields array2 s.1 i 0 (keys a) then some <$> ArrayBit.get s.2 i else some none
  set s a r := do
    let i := slot env (has a)
    let t ← array2.set s.1 i ((keys a).map Prod.snd)
    let bits ← ArrayBit.set s.2 i r
    some (t,bits)
  order := order

def byHash (H : Cacheable O) (a : O × O) : O × O := if (H.hash a.1).slt (H.hash a.2) then a else (a.2,a.1)

section Caches
variable [Inhabited O] (env : Option (Option ℤ))

def symmetricBinary (H : Cacheable O) (R : O) : Table (O × O) O :=
  valueCache env array3 [H.sentinel,H.sentinel,R]
    (fun a => (H.hash (byHash H a).2 <<< 5) - H.hash (byHash H a).2 + H.hash (byHash H a).1)
    (fun a => [(H,(byHash H a).1),(H,(byHash H a).2)])

def arityOne (H : Cacheable O) (R : O) : Table O O :=
  valueCache env array2 [H.sentinel,R] (fun a => H.hash a) (fun a => [(H,a)])

def arityTwo (H0 H1 : Cacheable O) (R : O) : Table (O × O) O :=
  valueCache env array3 [H0.sentinel,H1.sentinel,R]
    (fun a => (H1.hash a.2 <<< 5) - H1.hash a.2 + H0.hash a.1) (fun a => [(H0,a.1),(H1,a.2)])

def arityThree (H0 H1 H2 : Cacheable O) (R : O) : Table (O × O × O) O :=
  valueCache env array4 [H0.sentinel,H1.sentinel,H2.sentinel,R]
    (fun a => H0.hash a.1 + 117 * H1.hash a.2.1 + 2375 * H2.hash a.2.2)
    (fun a => [(H0,a.1),(H1,a.2.1),(H2,a.2.2)])

def binaryPredicate (H0 H1 : Cacheable O) : Table (O × O) Bool :=
  predicateCache env [H0.sentinel,H1.sentinel] (fun a => 599 * H0.hash a.1 + H1.hash a.2)
    (fun a => [(H0,a.1),(H1,a.2)]) (fun a => a)

def symmetricBinaryPredicate (H0 : Cacheable O) : Table (O × O) Bool :=
  predicateCache env [H0.sentinel,H0.sentinel]
    (fun a => (H0.hash (byHash H0 a).2 <<< 5) - H0.hash (byHash H0 a).2 + H0.hash (byHash H0 a).1)
    (fun a => [(H0,(byHash H0 a).1),(H0,(byHash H0 a).2)]) (byHash H0)

end Caches

theorem memoryFootprint_bounds (env : Option (Option ℤ)) : 1 ≤ memoryFootprint env ∧ memoryFootprint env ≤ 10 := by
  unfold memoryFootprint
  split
  · decide
  · decide
  · split <;> omega

theorem cacheSize_toNat (env : Option (Option ℤ)) : (cacheSize env).toNat = 2 ^ (8 + memoryFootprint env) := by
  obtain ⟨h1,h2⟩ := memoryFootprint_bounds env
  rw [cacheSize,← BitVec.twoPow_eq,BitVec.toNat_twoPow]
  exact Nat.mod_eq_of_lt (Nat.pow_lt_pow_right (by decide) (by omega))

theorem slot_lt (env : Option (Option ℤ)) (has : NativeInt) : slot env has < (cacheSize env).toNat := by
  have hpos : 1 ≤ (cacheSize env).toNat := by
    rw [cacheSize_toNat]
    exact Nat.one_le_two_pow
  have hle : slot env has ≤ (cacheSize env - 1).toNat := by
    rw [slot,BitVec.toNat_and]
    exact Nat.and_le_right
  have hmask : (cacheSize env - 1).toNat = (cacheSize env).toNat - 1 := by
    rw [BitVec.toNat_sub_of_le (by rw [BitVec.le_def]; simpa using hpos)]
    rfl
  omega

section Matches
variable {n : ArrayN} {t : List O} {i r : ℕ} {keys : List (Cacheable O × O)}

theorem matchFields_ok {xs : List O} (hlen : xs.length = keys.length)
    (h : ∀ k, k < keys.length → n.get t i (r + k) = xs[k]?) :
    ∃ v, matchFields n t i r keys = some v ∧ (v = true → xs = keys.map Prod.snd) := by
  induction keys generalizing r xs with
  | nil => exact ⟨true,rfl,fun _ => List.length_eq_zero_iff.mp hlen⟩
  | cons key keys ih =>
    obtain ⟨H,a⟩ := key
    obtain ⟨x,xs,rfl⟩ := List.exists_of_length_succ xs hlen
    have hx : n.get t i r = some x := h 0 (by simp)
    have hxs : ∀ k, k < keys.length → n.get t i (r + 1 + k) = xs[k]? := by
      intro k hk
      have := h (k + 1) (by simpa using hk)
      rwa [show r + (k + 1) = r + 1 + k by omega] at this
    obtain ⟨v,h1,h2⟩ := ih (by simpa using hlen) hxs
    simp only [matchFields,hx,Option.bind_eq_bind,Option.bind_some]
    by_cases he : H.equal x a = true
    · refine ⟨v,by rw [if_pos he,h1],fun hv => ?_⟩
      rw [h2 hv,H.eq_of_equal he,List.map_cons]
    · exact ⟨false,by rw [if_neg he],fun hv => by cases hv⟩

theorem matchFields_self (h : ∀ k, k < keys.length → n.get t i (r + k) = (keys.map Prod.snd)[k]?)
    (heq : ∀ key ∈ keys, key.1.equal key.2 key.2 = true) : matchFields n t i r keys = some true := by
  induction keys generalizing r with
  | nil => rfl
  | cons key keys ih =>
    obtain ⟨H,a⟩ := key
    have hx : n.get t i r = some a := h 0 (by simp)
    have hkeys : ∀ k, k < keys.length → n.get t i (r + 1 + k) = (keys.map Prod.snd)[k]? := by
      intro k hk
      have := h (k + 1) (by simpa using hk)
      rwa [show r + (k + 1) = r + 1 + k by omega] at this
    simp only [matchFields,hx,Option.bind_eq_bind,Option.bind_some]
    rw [if_pos (heq (H,a) List.mem_cons_self)]
    exact ih hkeys fun key hkey => heq key (List.mem_cons_of_mem _ hkey)

theorem matchFields_congr {t' : List O} (h : ∀ k, k < r + keys.length → n.get t' i k = n.get t i k) :
    matchFields n t' i r keys = matchFields n t i r keys := by
  induction keys generalizing r with
  | nil => rfl
  | cons key keys ih =>
    obtain ⟨H,a⟩ := key
    rw [List.length_cons] at h
    have hrec := ih (r := r + 1) fun k hk => h k (by omega)
    rw [matchFields,matchFields,h r (by omega),hrec]

end Matches

def Sized (env : Option (Option ℤ)) (n : ArrayN) (t : List O) : Prop := n.width * (cacheSize env).toNat = t.length

section Accesses
variable {env : Option (Option ℤ)} {n : ArrayN} {t sentinels : List O} {has : A → NativeInt}
variable {keys : A → List (Cacheable O × O)}

theorem exists_fields (ht : Sized env n t) {i m : ℕ} (hi : i < (cacheSize env).toNat) (hm : m ≤ n.width) :
    ∃ xs : List O, xs.length = m ∧ ∀ k, k < m → n.get t i (0 + k) = xs[k]? := by
  have hend : n.width * i + m ≤ t.length := by
    rcases Nat.eq_zero_or_pos m with rfl | hpos
    · have : n.width * i ≤ n.width * (cacheSize env).toNat := Nat.mul_le_mul_left _ hi.le
      rw [ht] at this
      omega
    · have := entry_lt ht hi (show m - 1 < n.width by omega)
      omega
  refine ⟨(t.drop (n.width * i)).take m,?_,?_⟩
  · rw [List.length_take,List.length_drop]
    omega
  · intro k hk
    rw [ArrayN.get,field,List.getElem?_take,if_pos hk,List.getElem?_drop,Nat.zero_add]

theorem matchFields_after_set {t' : List O} {a b : A} {rest : List O} (hkeys : (keys b).length = (keys a).length)
    (hw : (keys a).length ≤ n.width)
    (ht' : ∀ j r, r < n.width → n.get t' j r =
      if slot env (has a) = j then ((keys a).map Prod.snd ++ rest)[r]? else n.get t j r) :
    (slot env (has a) = slot env (has b) ∧ ∃ v, matchFields n t' (slot env (has b)) 0 (keys b) = some v ∧
      (v = true → (keys a).map Prod.snd = (keys b).map Prod.snd)) ∨
    (slot env (has a) ≠ slot env (has b) ∧
      matchFields n t' (slot env (has b)) 0 (keys b) = matchFields n t (slot env (has b)) 0 (keys b)) := by
  by_cases he : slot env (has a) = slot env (has b)
  · refine .inl ⟨he,matchFields_ok (by rw [List.length_map,hkeys]) ?_⟩
    intro k hk
    rw [ht' _ _ (by omega),if_pos he,Nat.zero_add,List.getElem?_append_left (by rw [List.length_map]; omega)]
  · refine .inr ⟨he,matchFields_congr ?_⟩
    intro k hk
    rw [ht' _ _ (by omega),if_neg he]

variable [Inhabited O]

theorem valueCache_stores {Valid : A → Prop} {Same : A → A → Prop} (hkeys : ∀ a, (keys a).length + 1 = n.width)
    (hrefl : ∀ a, Same a a) (hsame : ∀ a b, (keys a).map Prod.snd = (keys b).map Prod.snd → Same a b) :
    (valueCache env n sentinels has keys).Stores (Sized env n) Valid Same where
  order_same := hrefl
  get_ok t a ht := by
    have hlen := hkeys a
    obtain ⟨xs,h1,h2⟩ := exists_fields ht (slot_lt env (has a)) (show (keys a).length ≤ n.width by omega)
    obtain ⟨v,h3,-⟩ := matchFields_ok h1 h2
    obtain ⟨x,h4⟩ := get_isSome ht (slot_lt env (has a)) (show (keys a).length < n.width by omega)
    cases v with
    | true => exact ⟨some x,by simp [valueCache,h3,h4]⟩
    | false => exact ⟨none,by simp [valueCache,h3]⟩
  set_ok t a x ht := by
    have hlen := hkeys a
    have hfields : ((keys a).map Prod.snd ++ [x]).length = n.width := by simpa using hlen
    obtain ⟨t',h1,h2,h3⟩ := set_ok ht (slot_lt env (has a)) hfields
    refine ⟨t',h1,h2,?_⟩
    intro b y hb hy
    have hlen' := hkeys b
    simp only [valueCache] at hy ⊢
    rcases matchFields_after_set (show (keys b).length = (keys a).length by omega) (by omega) h3 with ⟨he,v,h4,h5⟩ | ⟨hne,h4⟩
    · rw [h4] at hy
      cases v with
      | false => simp at hy
      | true =>
        have hget : n.get t' (slot env (has b)) (keys b).length = some x := by
          rw [h3 _ _ (by omega),if_pos he,List.getElem?_append_right (by rw [List.length_map]; omega),
            List.length_map,show (keys b).length - (keys a).length = 0 by omega]
          rfl
        simp only [Option.bind_eq_bind,Option.bind_some,if_true,hget] at hy
        exact .inl ⟨hsame a b (h5 rfl),by simpa using hy.symm⟩
    · right
      have hget : n.get t' (slot env (has b)) (keys b).length = n.get t (slot env (has b)) (keys b).length := by
        rw [h3 _ _ (by omega),if_neg hne]
      rwa [h4,hget] at hy

theorem valueCache_laws {Valid : A → Prop} {Same : A → A → Prop} (hkeys : ∀ a, (keys a).length + 1 = n.width)
    (hrefl : ∀ a, Same a a) (hsame : ∀ a b, (keys a).map Prod.snd = (keys b).map Prod.snd → Same a b)
    (hmake : ∃ t, (valueCache env n sentinels has keys).make = some t ∧ Sized env n t ∧
      (valueCache env n sentinels has keys).NoMatch Valid t) :
    (valueCache env n sentinels has keys).Laws (Sized env n) Valid Same where
  order_same := hrefl
  get_ok := (valueCache_stores hkeys hrefl hsame : Table.Stores _ _ Valid _).get_ok
  make_ok := hmake
  set_ok := (valueCache_stores hkeys hrefl hsame).set_ok

omit [Inhabited O] in
theorem matchFields_cleared {i : ℕ} {l : List (Cacheable O × O)} (hi : i < (cacheSize env).toNat)
    (ht : ∀ i r, i < (cacheSize env).toNat → r < n.width → n.get t i r = sentinels[r]?)
    (hlen : l.length ≤ n.width) (hsent : n.width ≤ sentinels.length)
    (hl : l.map Prod.snd ≠ sentinels.take l.length) : matchFields n t i 0 l = some false := by
  have hfields : ∀ k, k < l.length → n.get t i (0 + k) = (sentinels.take l.length)[k]? := by
    intro k hk
    rw [List.getElem?_take,if_pos hk,ht _ _ hi (by omega),Nat.zero_add]
  obtain ⟨v,h1,h2⟩ := matchFields_ok (by rw [List.length_take]; omega) hfields
  cases v with
  | false => exact h1
  | true => exact absurd (h2 rfl).symm hl

theorem valueCache_clears {Valid : A → Prop} (hpos : 1 ≤ n.width) (hstride : n.stride = n.width)
    (hsent : sentinels.length = n.width) (hkeys : ∀ a, (keys a).length + 1 = n.width)
    (hvalid : ∀ a, Valid a → (keys a).map Prod.snd ≠ sentinels.take (keys a).length) :
    (valueCache env n sentinels has keys).Clears (Sized env n) Valid := by
  intro t ht
  obtain ⟨t',h1,h2,h3⟩ := clear_ok ht hpos hstride hsent
  refine ⟨t',h1,h2,fun a ha => ?_⟩
  have hlen := hkeys a
  simp [valueCache,matchFields_cleared (slot_lt env (has a)) h3 (by omega) (by omega) (hvalid a ha)]

theorem valueCache_make {Valid : A → Prop} (h : (valueCache env n sentinels has keys).Clears (Sized env n) Valid) :
    ∃ t, (valueCache env n sentinels has keys).make = some t ∧ Sized env n t ∧
      (valueCache env n sentinels has keys).NoMatch Valid t := by
  apply h (List.replicate (n.width * (cacheSize env).toNat) default)
  rw [Sized,List.length_replicate]

def SizedBits (env : Option (Option ℤ)) (s : List O × ArrayBit) : Prop :=
  Sized env array2 s.1 ∧ s.2.length = ((cacheSize env).toNat + 7) / 8

variable {order : A → A}

theorem predicateCache_clears {Valid : A → Prop} (hsent : sentinels.length = 2) (hkeys : ∀ a, (keys a).length = 2)
    (hvalid : ∀ a, Valid a → (keys a).map Prod.snd ≠ sentinels.take (keys a).length) :
    (predicateCache env sentinels has keys order).Clears (SizedBits env) Valid := by
  intro s hs
  obtain ⟨t',h1,h2,h3⟩ := clear_ok hs.1 (by decide) rfl hsent
  refine ⟨(t',ArrayBit.clear s.2),?_,⟨h2,?_⟩,?_⟩
  · simp only [predicateCache,h1,Option.bind_eq_bind,Option.bind_some]
  · rw [ArrayBit.clear,List.length_replicate]
    exact hs.2
  · intro a ha
    have hlen := hkeys a
    have hmatch := matchFields_cleared (slot_lt env (has a)) h3 (show (keys a).length ≤ 2 by omega)
      (show 2 ≤ sentinels.length by omega) (hvalid a ha)
    simp [predicateCache,hmatch]

theorem predicateCache_stores {Valid : A → Prop} {Same : A → A → Prop} (hkeys : ∀ a, (keys a).length = 2)
    (horder : ∀ a, Same (order a) a) (hsame : ∀ a b, (keys a).map Prod.snd = (keys b).map Prod.snd → Same a b) :
    (predicateCache env sentinels has keys order).Stores (SizedBits env) Valid Same where
  order_same := horder
  get_ok s a hs := by
    have hlen := hkeys a
    obtain ⟨xs,h1,h2⟩ := exists_fields hs.1 (slot_lt env (has a)) (show (keys a).length ≤ 2 by omega)
    obtain ⟨v,h3,-⟩ := matchFields_ok h1 h2
    obtain ⟨b,h4⟩ := ArrayBit.get_isSome hs.2 (slot_lt env (has a))
    cases v with
    | true => exact ⟨some b,by simp [predicateCache,h3,h4]⟩
    | false => exact ⟨none,by simp [predicateCache,h3]⟩
  set_ok s a x hs := by
    have hlen := hkeys a
    have hfields : ((keys a).map Prod.snd).length = 2 := by simpa using hlen
    obtain ⟨t',h1,h2,h3⟩ := set_ok hs.1 (slot_lt env (has a)) hfields
    obtain ⟨bits,k1,k2,k3⟩ := ArrayBit.set_ok hs.2 (slot_lt env (has a)) x
    refine ⟨(t',bits),?_,⟨h2,k2.trans hs.2⟩,?_⟩
    · simp only [predicateCache,h1,k1,Option.bind_eq_bind,Option.bind_some]
    · intro b y hb hy
      have hlen' := hkeys b
      simp only [predicateCache] at hy ⊢
      have h3' : ∀ j r, r < array2.width → array2.get t' j r =
          if slot env (has a) = j then ((keys a).map Prod.snd ++ [])[r]? else array2.get s.1 j r := by
        rw [List.append_nil]
        exact h3
      rcases matchFields_after_set (show (keys b).length = (keys a).length by omega)
        (show (keys a).length ≤ 2 by omega) h3' with ⟨he,v,h4,h5⟩ | ⟨hne,h4⟩
      · rw [h4] at hy
        cases v with
        | false => simp at hy
        | true =>
          rw [k3,if_pos he] at hy
          simp only [Option.bind_eq_bind,Option.bind_some,if_true] at hy
          exact .inl ⟨hsame a b (h5 rfl),by simpa using hy.symm⟩
      · right
        rwa [h4,k3,if_neg hne] at hy

theorem predicateCache_make : (predicateCache env sentinels has keys order).make =
    (predicateCache env sentinels has keys order).clear (List.replicate (array2.width * (cacheSize env).toNat) default,
      ArrayBit.make (cacheSize env).toNat) := by
  simp [predicateCache,ArrayN.make,ArrayBit.make,ArrayBit.clear]

theorem sizedBits_make : SizedBits env (List.replicate (array2.width * (cacheSize env).toNat) (default : O),
    ArrayBit.make (cacheSize env).toNat) :=
  ⟨by rw [Sized,List.length_replicate],ArrayBit.length_make _⟩

theorem predicateCache_laws {Valid : A → Prop} {Same : A → A → Prop} (hkeys : ∀ a, (keys a).length = 2)
    (horder : ∀ a, Same (order a) a) (hsame : ∀ a b, (keys a).map Prod.snd = (keys b).map Prod.snd → Same a b)
    (hsent : sentinels.length = 2)
    (hvalid : ∀ a, Valid a → (keys a).map Prod.snd ≠ sentinels.take (keys a).length) :
    (predicateCache env sentinels has keys order).Laws (SizedBits env) Valid Same where
  order_same := horder
  get_ok := (predicateCache_stores hkeys horder hsame : Table.Stores _ _ Valid _).get_ok
  make_ok := by
    rw [predicateCache_make]
    exact predicateCache_clears hsent hkeys hvalid _ sizedBits_make
  set_ok := (predicateCache_stores hkeys horder hsame).set_ok

def AtSentinels (sentinels : List O) (l : List (Cacheable O × O)) : Prop :=
  l.map Prod.snd = sentinels.take l.length ∧ ∀ key ∈ l, key.1.equal key.2 key.2 = true

omit [Inhabited O] in
theorem matchFields_sentinels {i : ℕ} {l : List (Cacheable O × O)} (hi : i < (cacheSize env).toNat)
    (ht : ∀ i r, i < (cacheSize env).toNat → r < n.width → n.get t i r = sentinels[r]?) (hlen : l.length ≤ n.width)
    (hl : AtSentinels sentinels l) : matchFields n t i 0 l = some true := by
  refine matchFields_self (fun k hk => ?_) hl.2
  rw [hl.1,List.getElem?_take,if_pos hk,Nat.zero_add,ht _ _ hi (by omega)]

theorem valueCache_sentinels {s s' : List O} (hs : Sized env n s) (hpos : 1 ≤ n.width) (hstride : n.stride = n.width)
    (hsent : sentinels.length = n.width) {a : A} (hkeys : (keys a).length + 1 = n.width)
    (hclear : (valueCache env n sentinels has keys).clear s = some s') (ha : AtSentinels sentinels (keys a)) :
    (valueCache env n sentinels has keys).get s' a = some sentinels[(keys a).length]? := by
  obtain ⟨t',h1,h2,h3⟩ := clear_ok hs hpos hstride hsent
  obtain rfl : t' = s' := Option.some.inj (h1.symm.trans hclear)
  have hmatch := matchFields_sentinels (slot_lt env (has a)) h3 (by omega) ha
  have hget := h3 (slot env (has a)) (keys a).length (slot_lt env _) (by omega)
  rw [List.getElem?_eq_getElem (by omega)] at hget ⊢
  simp [valueCache,hmatch,hget]

theorem predicateCache_sentinels {s s' : List O × ArrayBit} (hs : SizedBits env s) (hsent : sentinels.length = 2)
    {a : A} (hkeys : (keys a).length = 2) (hclear : (predicateCache env sentinels has keys order).clear s = some s')
    (ha : AtSentinels sentinels (keys a)) :
    (predicateCache env sentinels has keys order).get s' a = some (some false) := by
  obtain ⟨t',h1,h2,h3⟩ := clear_ok hs.1 (by decide) rfl hsent
  have heq : (t',ArrayBit.clear s.2) = s' := by
    simpa only [predicateCache,h1,Option.bind_eq_bind,Option.bind_some,Option.some.injEq] using hclear
  subst heq
  have hmatch := matchFields_sentinels (slot_lt env (has a)) h3 (show (keys a).length ≤ 2 by omega) ha
  have hbit : ArrayBit.get (ArrayBit.clear s.2) (slot env (has a)) = some false :=
    ArrayBit.get_clear hs.2 (slot_lt env (has a))
  simp [predicateCache,hmatch,hbit]

theorem valueCache_blanks {Sent : A → Prop} {r : O} (hpos : 1 ≤ n.width) (hstride : n.stride = n.width)
    (hsent : sentinels.length = n.width) (hkeys : ∀ a, (keys a).length + 1 = n.width)
    (hlast : sentinels[n.width - 1]? = some r) (hat : ∀ a, Sent a → AtSentinels sentinels (keys a))
    (hne : ∀ a, ¬ Sent a → (keys a).map Prod.snd ≠ sentinels.take (keys a).length) :
    (valueCache env n sentinels has keys).Blanks (Sized env n) Sent r := by
  have hclear : ∀ s, Sized env n s → ∃ s', (valueCache env n sentinels has keys).clear s = some s' ∧ Sized env n s' ∧
      (valueCache env n sentinels has keys).Blank Sent r s' := by
    intro s hs
    have hclears : (valueCache env n sentinels has keys).Clears (Sized env n) fun a => ¬ Sent a :=
      valueCache_clears hpos hstride hsent hkeys hne
    obtain ⟨s',h1,h2,h3⟩ := hclears s hs
    refine ⟨s',h1,h2,h3,fun a ha => ?_⟩
    have hlen := hkeys a
    rw [valueCache_sentinels hs hpos hstride hsent hlen h1 (hat a ha),← hlast,← hlen]
    rfl
  exact ⟨hclear (List.replicate (n.width * (cacheSize env).toNat) default) (by rw [Sized,List.length_replicate]),hclear⟩

theorem predicateCache_blanks {Sent : A → Prop} (hsent : sentinels.length = 2) (hkeys : ∀ a, (keys a).length = 2)
    (hat : ∀ a, Sent a → AtSentinels sentinels (keys a))
    (hne : ∀ a, ¬ Sent a → (keys a).map Prod.snd ≠ sentinels.take (keys a).length) :
    (predicateCache env sentinels has keys order).Blanks (SizedBits env) Sent false := by
  have hclear : ∀ s, SizedBits env s → ∃ s', (predicateCache env sentinels has keys order).clear s = some s' ∧
      SizedBits env s' ∧ (predicateCache env sentinels has keys order).Blank Sent false s' := by
    intro s hs
    obtain ⟨s',h1,h2,h3⟩ := predicateCache_clears hsent hkeys hne s hs
    exact ⟨s',h1,h2,h3,fun a ha => predicateCache_sentinels hs hsent (hkeys a) h1 (hat a ha)⟩
  refine ⟨?_,hclear⟩
  rw [predicateCache_make]
  exact hclear _ sizedBits_make

end Accesses

section ArityThree
variable [Inhabited O] {env : Option (Option ℤ)} {H0 H1 H2 : Cacheable O} {R : O}

theorem fields_mod (env : Option (Option ℤ)) : 4 * (cacheSize env).toNat % 7 =
    if memoryFootprint env % 3 = 1 then 4 else if memoryFootprint env % 3 = 2 then 1 else 2 := by
  obtain ⟨h1,h2⟩ := memoryFootprint_bounds env
  rw [cacheSize_toNat]
  generalize memoryFootprint env = m at *
  interval_cases m <;> rfl

def rawValues (H0 H1 H2 : Cacheable O) (R : O) : List O :=
  [default,H0.sentinel,H1.sentinel,H2.sentinel,R]

def NotRaw (H0 H1 H2 : Cacheable O) (R : O) (a : O × O × O) : Prop :=
  ∃ x ∈ [a.1,a.2.1,a.2.2], x ∉ rawValues H0 H1 H2 R

theorem arityThree_make (hfoot : memoryFootprint env % 3 = 1) :
    ∃ t, (arityThree env H0 H1 H2 R).make = some t ∧ Sized env array4 t ∧
      (arityThree env H0 H1 H2 R).NoMatch (NotRaw H0 H1 H2 R) t := by
  have hmod := fields_mod env
  rw [if_pos hfoot] at hmod
  have hlen : (List.replicate (4 * (cacheSize env).toNat) (default : O)).length = 4 * (cacheSize env).toNat :=
    List.length_replicate
  have hfit : ∀ k, 0 + k * array4.stride < (List.replicate (4 * (cacheSize env).toNat) (default : O)).length →
      0 + k * array4.stride + [H0.sentinel,H1.sentinel,H2.sentinel,R].length ≤
        (List.replicate (4 * (cacheSize env).toNat) (default : O)).length := by
    intro k hk
    simp only [array4,hlen,List.length_cons,List.length_nil] at hk ⊢
    omega
  have hshort : [H0.sentinel,H1.sentinel,H2.sentinel,R].length ≤ array4.stride := by simp [array4]
  obtain ⟨t,h1,h2,h3⟩ := clearLoop_ok (n := array4) (by decide) hshort
    (show (List.replicate (4 * (cacheSize env).toNat) (default : O)).length ≤
      (List.replicate (4 * (cacheSize env).toNat) (default : O)).length + 0 by omega) hfit
  have hsized : Sized env array4 t := hlen.symm.trans h2.symm
  refine ⟨t,h1,hsized,fun a ha => ?_⟩
  have hraw : ∀ j x, field t j = some x → x ∈ rawValues H0 H1 H2 R := by
    intro j x hx
    rw [h3] at hx
    split at hx
    · have := List.mem_of_getElem? hx
      rw [rawValues]
      simp only [List.mem_cons] at this ⊢
      tauto
    · rw [List.eq_of_mem_replicate (List.mem_of_getElem? hx)]
      simp [rawValues]
  obtain ⟨xs,k1,k2⟩ := exists_fields hsized
    (slot_lt env (H0.hash a.1 + 117 * H1.hash a.2.1 + 2375 * H2.hash a.2.2)) (show 3 ≤ 4 by omega)
  have hkeys : xs.length = [(H0,a.1),(H1,a.2.1),(H2,a.2.2)].length := k1
  obtain ⟨v,k3,k4⟩ := matchFields_ok hkeys k2
  cases v with
  | false =>
    simp only [arityThree,valueCache,k3,Option.bind_eq_bind,Option.bind_some]
    rfl
  | true =>
    obtain ⟨x,hx,hnot⟩ := ha
    rw [show [a.1,a.2.1,a.2.2] = xs from (k4 rfl).symm] at hx
    obtain ⟨k,hk,rfl⟩ := List.getElem_of_mem hx
    have hget := k2 k (by omega)
    rw [List.getElem?_eq_getElem hk] at hget
    exact absurd (hraw _ _ hget) hnot

theorem arityThree_laws (hfoot : memoryFootprint env % 3 = 1) :
    (arityThree env H0 H1 H2 R).Laws (Sized env array4) (NotRaw H0 H1 H2 R) Eq := by
  apply valueCache_laws (fun a => rfl) (fun a => rfl)
  · intro a b h
    simp only [List.map_cons,List.map_nil,List.cons.injEq,and_true] at h
    exact Prod.ext h.1 (Prod.ext h.2.1 h.2.2)
  · exact arityThree_make hfoot

theorem arityThree_outside (hfoot : memoryFootprint env % 3 ≠ 1) : (arityThree env H0 H1 H2 R).make = none := by
  have hmod := fields_mod env
  rw [if_neg hfoot] at hmod
  have hlen : (List.replicate (4 * (cacheSize env).toNat) (default : O)).length = 4 * (cacheSize env).toNat :=
    List.length_replicate
  have hrem : 4 * (cacheSize env).toNat % 7 = 1 ∨ 4 * (cacheSize env).toNat % 7 = 2 := by
    split at hmod
    · exact .inl hmod
    · exact .inr hmod
  apply clearLoop_outside (n := array4) (k := 4 * (cacheSize env).toNat / 7) (by simp) (by decide)
  · exact Nat.le_add_right _ _
  · simp only [array4,hlen]
    omega
  · simp only [array4,hlen,List.length_cons,List.length_nil]
    omega

end ArityThree

/-- Every call of every such run returns the value of its function, every access is inside the
memory of the cache, and a clear leaves no entry that matches other arguments than the sentinels. -/
def Transparent {R : Type} (t : Table A R) (NonSentinel : A → Prop) (Same : A → A → Prop)
    (Runs : List (Op A R) → Prop) : Prop :=
  ∀ ops, Coherent none ops → (∀ f a, .merge f a ∈ ops → NonSentinel a) →
    (∀ f a, .merge f a ∈ ops → ∀ b c, Same b c → f b = f c) → Runs ops →
    ∃ st, t.run ops none = some (ops.filterMap Op.value?,st) ∧
      (ops.getLast? = some .clear → ∀ s, st = some s → t.NoMatch NonSentinel s)

def UpToOrder (a b : O × O) : Prop := b = a ∨ b = (a.2,a.1)

section Runs
variable {R : Type} {t : Table A R} {Good : t.State → Prop} {Valid : A → Prop} {Same : A → A → Prop}

theorem ready_none (g : t.State → Prop) (Valid : A → Prop) : t.Ready g Valid none none := by
  intro s hs
  cases hs

theorem transparent_of_clears (h : t.Laws Good Valid Same) (hc : t.Clears Good Valid) :
    Transparent t Valid Same fun _ => True := by
  intro ops hcoh hvalid hsame _
  obtain ⟨st,h1,h2⟩ := h.run_ok hcoh hsame hvalid (.inl hc) (ready_none Good Valid)
  refine ⟨st,h1,fun hlast s hs => ?_⟩
  obtain ⟨l,rfl⟩ := List.getLast?_eq_some_iff.mp hlast
  rw [current_append_clear] at h2
  exact (h2 s hs).2

theorem run_clears {ops : List (Op A R)} (h : ∀ o ∈ ops, o.isClear) : t.run ops none = some (ops.filterMap Op.value?,none) := by
  induction ops with
  | nil => rfl
  | cons op ops ih =>
    obtain ⟨h1,h2⟩ := List.forall_mem_cons.mp h
    cases op with
    | clear => exact ih h2
    | merge f a => exact absurd h1 id

theorem transparent_of_noClear {NonSentinel : A → Prop} {Cond : Prop} (h : Cond → t.Laws Good Valid Same) :
    Transparent t NonSentinel Same fun ops => (∀ f a, .merge f a ∈ ops → Cond ∧ Valid a) ∧ NoClearAfterMerge ops := by
  rintro ops hcoh - hsame ⟨hvalid,hclear⟩
  by_cases hall : ∀ o ∈ ops, o.isClear
  · refine ⟨none,run_clears hall,fun _ s hs => ?_⟩
    cases hs
  · obtain ⟨f,a,hmem⟩ : ∃ f a, Op.merge f a ∈ ops := by
      push Not at hall
      obtain ⟨o,ho,hn⟩ := hall
      cases o with
      | clear => exact absurd trivial hn
      | merge f a => exact ⟨f,a,ho⟩
    obtain ⟨st,h1,-⟩ := (h (hvalid f a hmem).1).run_ok hcoh hsame (fun f a ha => (hvalid f a ha).2)
      (.inr ⟨hclear,.inl rfl⟩) (ready_none Good Valid)
    refine ⟨st,h1,fun hlast => absurd ?_ hall⟩
    obtain ⟨l,rfl⟩ := List.getLast?_eq_some_iff.mp hlast
    intro o ho
    rcases List.mem_append.mp ho with ho | ho
    · exact (List.pairwise_append.mp hclear).2.2 o ho .clear List.mem_cons_self trivial
    · rw [List.mem_singleton.mp ho]
      trivial

end Runs

section Transparency
variable [Inhabited O]

omit [Inhabited O] in
theorem byHash_upToOrder (H : Cacheable O) (a : O × O) : UpToOrder (byHash H a) a := by
  unfold byHash
  split
  · exact .inl rfl
  · exact .inr rfl

omit [Inhabited O] in
theorem upToOrder_of_byHash {H : Cacheable O} {a b : O × O} (h : byHash H a = byHash H b) : UpToOrder a b := by
  rcases byHash_upToOrder H a with ha | ha <;> rcases byHash_upToOrder H b with hb | hb
  · exact .inl (by rw [ha,hb,h])
  · exact .inr (by rw [ha,hb,h])
  · exact .inr (by rw [ha,hb,h])
  · exact .inl (by rw [ha,hb,h])

omit [Inhabited O] in
theorem byHash_ne_sentinel {H : Cacheable O} {a : O × O} (h : a ≠ (H.sentinel,H.sentinel)) :
    [(byHash H a).1,(byHash H a).2] ≠ [H.sentinel,H.sentinel] := by
  intro he
  simp only [List.cons.injEq,and_true] at he
  apply h
  rcases byHash_upToOrder H a with ha | ha
  · rw [ha]
    exact Prod.ext he.1 he.2
  · rw [ha]
    exact Prod.ext he.2 he.1

section Laws
variable (env : Option (Option ℤ)) (H0 H1 : Cacheable O) (R : O)

theorem symmetricBinary_clears :
    (symmetricBinary env H0 R).Clears (Sized env array3) fun a => a ≠ (H0.sentinel,H0.sentinel) :=
  valueCache_clears (by decide) rfl rfl (fun _ => rfl) fun _ ha => byHash_ne_sentinel ha

theorem symmetricBinary_laws :
    (symmetricBinary env H0 R).Laws (Sized env array3) (fun a => a ≠ (H0.sentinel,H0.sentinel)) UpToOrder := by
  apply valueCache_laws (fun _ => rfl) (fun _ => .inl rfl)
  · intro a b h
    simp only [List.map_cons,List.map_nil,List.cons.injEq,and_true] at h
    exact upToOrder_of_byHash (Prod.ext h.1 h.2)
  · exact valueCache_make (symmetricBinary_clears env H0 R)

theorem arityOne_clears : (arityOne env H0 R).Clears (Sized env array2) fun a => a ≠ H0.sentinel := by
  apply valueCache_clears (by decide) rfl rfl (fun _ => rfl)
  intro a ha h
  exact ha (List.head_eq_of_cons_eq h)

theorem arityOne_laws : (arityOne env H0 R).Laws (Sized env array2) (fun a => a ≠ H0.sentinel) Eq := by
  apply valueCache_laws (fun _ => rfl) (fun _ => rfl)
  · intro a b h
    exact List.head_eq_of_cons_eq h
  · exact valueCache_make (arityOne_clears env H0 R)

omit [Inhabited O] in
theorem pair_ne_sentinel {a : O × O} (ha : a ≠ (H0.sentinel,H1.sentinel)) :
    [a.1,a.2] ≠ [H0.sentinel,H1.sentinel] := by
  intro h
  simp only [List.cons.injEq,and_true] at h
  exact ha (Prod.ext h.1 h.2)

omit [Inhabited O] in
theorem pair_eq {a b : O × O} (h : [a.1,a.2] = [b.1,b.2]) : a = b := by
  simp only [List.cons.injEq,and_true] at h
  exact Prod.ext h.1 h.2

theorem arityTwo_clears :
    (arityTwo env H0 H1 R).Clears (Sized env array3) fun a => a ≠ (H0.sentinel,H1.sentinel) :=
  valueCache_clears (by decide) rfl rfl (fun _ => rfl) fun _ ha => pair_ne_sentinel H0 H1 ha

theorem arityTwo_laws :
    (arityTwo env H0 H1 R).Laws (Sized env array3) (fun a => a ≠ (H0.sentinel,H1.sentinel)) Eq := by
  apply valueCache_laws (fun _ => rfl) (fun _ => rfl)
  · exact fun a b h => pair_eq h
  · exact valueCache_make (arityTwo_clears env H0 H1 R)

theorem binaryPredicate_clears :
    (binaryPredicate env H0 H1).Clears (SizedBits env) fun a => a ≠ (H0.sentinel,H1.sentinel) :=
  predicateCache_clears rfl (fun _ => rfl) fun _ ha => pair_ne_sentinel H0 H1 ha

theorem binaryPredicate_laws :
    (binaryPredicate env H0 H1).Laws (SizedBits env) (fun a => a ≠ (H0.sentinel,H1.sentinel)) Eq :=
  predicateCache_laws (fun _ => rfl) (fun _ => rfl) (fun _ _ h => pair_eq h) rfl fun _ ha => pair_ne_sentinel H0 H1 ha

theorem symmetricBinaryPredicate_clears :
    (symmetricBinaryPredicate env H0).Clears (SizedBits env) fun a => a ≠ (H0.sentinel,H0.sentinel) :=
  predicateCache_clears rfl (fun _ => rfl) fun _ ha => byHash_ne_sentinel ha

theorem symmetricBinaryPredicate_laws :
    (symmetricBinaryPredicate env H0).Laws (SizedBits env) (fun a => a ≠ (H0.sentinel,H0.sentinel)) UpToOrder := by
  apply predicateCache_laws (fun _ => rfl) (byHash_upToOrder H0)
  · intro a b h
    simp only [List.map_cons,List.map_nil,List.cons.injEq,and_true] at h
    exact upToOrder_of_byHash (Prod.ext h.1 h.2)
  · rfl
  · exact fun _ ha => byHash_ne_sentinel ha

theorem arityTwo_blanks (h0 : H0.equal H0.sentinel H0.sentinel = true) (h1 : H1.equal H1.sentinel H1.sentinel = true) :
    (arityTwo env H0 H1 R).Blanks (Sized env array3) (fun a => a = (H0.sentinel,H1.sentinel)) R := by
  refine valueCache_blanks (by decide) rfl rfl (fun _ => rfl) rfl ?_ fun _ ha => pair_ne_sentinel H0 H1 ha
  rintro _ rfl
  refine ⟨rfl,?_⟩
  simp [h0,h1]

theorem binaryPredicate_blanks (h0 : H0.equal H0.sentinel H0.sentinel = true)
    (h1 : H1.equal H1.sentinel H1.sentinel = true) :
    (binaryPredicate env H0 H1).Blanks (SizedBits env) (fun a => a = (H0.sentinel,H1.sentinel)) false := by
  refine predicateCache_blanks rfl (fun _ => rfl) ?_ fun _ ha => pair_ne_sentinel H0 H1 ha
  rintro _ rfl
  refine ⟨rfl,?_⟩
  simp [h0,h1]

theorem symmetricBinaryPredicate_blanks (h0 : H0.equal H0.sentinel H0.sentinel = true) :
    (symmetricBinaryPredicate env H0).Blanks (SizedBits env) (fun a => a = (H0.sentinel,H0.sentinel)) false := by
  refine predicateCache_blanks rfl (fun _ => rfl) ?_ fun _ ha => byHash_ne_sentinel ha
  rintro _ rfl
  have hord : byHash H0 (H0.sentinel,H0.sentinel) = (H0.sentinel,H0.sentinel) := by
    unfold byHash
    split <;> rfl
  refine ⟨by rw [hord]; rfl,?_⟩
  simp [hord,h0]

theorem arityTwo_stores {Valid : O × O → Prop} : (arityTwo env H0 H1 R).Stores (Sized env array3) Valid Eq :=
  valueCache_stores (fun _ => rfl) (fun _ => rfl) fun _ _ h => pair_eq h

theorem binaryPredicate_stores {Valid : O × O → Prop} : (binaryPredicate env H0 H1).Stores (SizedBits env) Valid Eq :=
  predicateCache_stores (fun _ => rfl) (fun _ => rfl) fun _ _ h => pair_eq h

theorem symmetricBinaryPredicate_stores {Valid : O × O → Prop} :
    (symmetricBinaryPredicate env H0).Stores (SizedBits env) Valid UpToOrder := by
  refine predicateCache_stores (fun _ => rfl) (byHash_upToOrder H0) fun a b h => ?_
  simp only [List.map_cons,List.map_nil,List.cons.injEq,and_true] at h
  exact upToOrder_of_byHash (Prod.ext h.1 h.2)

end Laws

/-- Five of the six caches are transparent. A cache of arity three is transparent when the stride of
its clears stays inside the block, it is not cleared after a call, and no call is on values that
allocation leaves in the entries. -/
theorem caches_transparent (env : Option (Option ℤ)) (H0 H1 H2 : Cacheable O) (R : O) :
    Transparent (symmetricBinary env H0 R) (fun a => a ≠ (H0.sentinel,H0.sentinel)) UpToOrder (fun _ => True) ∧
    Transparent (arityOne env H0 R) (fun a => a ≠ H0.sentinel) Eq (fun _ => True) ∧
    Transparent (arityTwo env H0 H1 R) (fun a => a ≠ (H0.sentinel,H1.sentinel)) Eq (fun _ => True) ∧
    Transparent (binaryPredicate env H0 H1) (fun a => a ≠ (H0.sentinel,H1.sentinel)) Eq (fun _ => True) ∧
    Transparent (symmetricBinaryPredicate env H0) (fun a => a ≠ (H0.sentinel,H0.sentinel)) UpToOrder
      (fun _ => True) ∧
    Transparent (arityThree env H0 H1 H2 R) (fun a => a ≠ (H0.sentinel,H1.sentinel,H2.sentinel)) Eq
      (fun ops => (∀ f a, .merge f a ∈ ops → memoryFootprint env % 3 = 1 ∧ NotRaw H0 H1 H2 R a) ∧
        NoClearAfterMerge ops) := by
  refine ⟨?_,?_,?_,?_,?_,?_⟩
  · exact transparent_of_clears (symmetricBinary_laws env H0 R) (symmetricBinary_clears env H0 R)
  · exact transparent_of_clears (arityOne_laws env H0 R) (arityOne_clears env H0 R)
  · exact transparent_of_clears (arityTwo_laws env H0 H1 R) (arityTwo_clears env H0 H1 R)
  · exact transparent_of_clears (binaryPredicate_laws env H0 H1) (binaryPredicate_clears env H0 H1)
  · exact transparent_of_clears (symmetricBinaryPredicate_laws env H0) (symmetricBinaryPredicate_clears env H0)
  · exact transparent_of_noClear fun hfoot => arityThree_laws hfoot

end Transparency

def intCacheable : Cacheable ℤ where
  hash x := BitVec.ofInt 63 x
  sentinel := 0
  equal x y := decide (x = y)
  eq_of_equal h := of_decide_eq_true h

def sumCall : Op (ℤ × ℤ × ℤ) ℤ := .merge (fun a => a.1 + a.2.1 + a.2.2) (1,2,3)

/-- With the default footprint, the first call of a cache of arity three leaves its memory. -/
theorem arityThree_not_transparent :
    memoryFootprint none = 2 ∧
    ¬ Transparent (arityThree none intCacheable intCacheable intCacheable 0) (fun a => a.1 ≠ 0 ∧ a.2.1 ≠ 0 ∧ a.2.2 ≠ 0)
      Eq (fun _ => True) := by
  refine ⟨rfl,fun h => ?_⟩
  have hmake : (arityThree none intCacheable intCacheable intCacheable 0).make = none :=
    arityThree_outside (show memoryFootprint none % 3 ≠ 1 by decide)
  have hcoh : Coherent none [sumCall] := trivial
  have hvalid : ∀ f a, .merge f a ∈ [sumCall] → a.1 ≠ 0 ∧ a.2.1 ≠ 0 ∧ a.2.2 ≠ 0 := by
    intro f a ha
    obtain ⟨-,rfl⟩ := Op.merge.inj (List.mem_singleton.mp ha)
    decide
  obtain ⟨st,hrun,-⟩ := h _ hcoh hvalid (fun f a _ b c hbc => by rw [hbc]) trivial
  rw [sumCall,Table.run_of_make_none _ hmake] at hrun
  cases hrun

theorem caches_transparent_footprint : ∃ st, (arityThree (some (some 1)) intCacheable intCacheable intCacheable 0).run
    [.clear,sumCall,sumCall] none = some ([6,6],st) := by
  obtain ⟨-,-,-,-,-,h⟩ := caches_transparent (some (some 1)) intCacheable intCacheable intCacheable 0
  have hcoh : Coherent none [.clear,sumCall,sumCall] := ⟨rfl,trivial⟩
  have hmem : ∀ f a, .merge f a ∈ [.clear,sumCall,sumCall] → a = (1,2,3) := by
    intro f a ha
    simp only [sumCall,List.mem_cons,reduceCtorEq,Op.merge.injEq,List.not_mem_nil,or_false,false_or,or_self] at ha
    exact ha.2
  have hraw : NotRaw intCacheable intCacheable intCacheable 0 (1,2,3) :=
    ⟨1,List.mem_cons_self,by simp [rawValues,intCacheable]⟩
  have hclear : NoClearAfterMerge [.clear,sumCall,sumCall] := by
    simp [NoClearAfterMerge,Op.isClear,sumCall]
  obtain ⟨st,hrun,-⟩ := h _ hcoh (fun f a ha => by rw [hmem f a ha]; decide)
    (fun f a _ b c hbc => by rw [hbc]) ⟨fun f a ha => ⟨by decide,by rw [hmem f a ha]; exact hraw⟩,hclear⟩
  have hvalues : [Op.clear,sumCall,sumCall].filterMap Op.value? = [6,6] := rfl
  exact ⟨st,by rw [hrun,hvalues]⟩

end FramaC.BinaryCache
