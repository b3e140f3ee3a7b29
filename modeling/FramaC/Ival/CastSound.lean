import FramaC.Ival.Cast
import FramaC.Ival.DivisionSound

/-! # Soundness of casts and of the extraction of bits

A value is wrapped into the range of a type by a translation that depends on its high bits. Sizes for which the power of
two is refused are excluded.
-/
namespace FramaC.Ival
open Integer Progression Outcome

def typeMin (size : ℤ) (signed : Bool) : ℤ := if signed then -2 ^ (size - 1).toNat else 0
def typeMax (size : ℤ) (signed : Bool) : ℤ := if signed then 2 ^ (size - 1).toNat - 1 else 2 ^ size.toNat - 1

/-- The integer of the type that is congruent to `a` modulo the number of values of the type. -/
def wrap (size : ℤ) (signed : Bool) (a : ℤ) : ℤ := (a - typeMin size signed) % 2 ^ size.toNat + typeMin size signed

section Ranges
variable {size : ℤ} {signed : Bool} {a b : ℤ}

theorem two_pow_size (h : 1 ≤ size) : (2 : ℤ) ^ size.toNat = 2 ^ (size - 1).toNat + 2 ^ (size - 1).toNat := by
  obtain ⟨k,hk⟩ : ∃ k, size.toNat = k + 1 := ⟨(size - 1).toNat,by omega⟩
  rw [hk,show (size - 1).toNat = k by omega,pow_succ]
  ring

theorem typeMax_eq (h : 1 ≤ size) (signed : Bool) : typeMax size signed = typeMin size signed + 2 ^ size.toNat - 1 := by
  have h2 := two_pow_size h
  cases signed with
  | true =>
    simp only [typeMax,typeMin,if_true]
    omega
  | false => simp [typeMax,typeMin]

theorem wrap_range (h : 1 ≤ size) (signed : Bool) (a : ℤ) :
    typeMin size signed ≤ wrap size signed a ∧ wrap size signed a ≤ typeMax size signed := by
  have hpos : (0 : ℤ) < 2 ^ size.toNat := by positivity
  have h0 := Int.emod_nonneg (a - typeMin size signed) hpos.ne'
  have hlt := Int.emod_lt_of_pos (a - typeMin size signed) hpos
  rw [typeMax_eq h]
  unfold wrap
  omega

theorem wrap_eq_sub (size : ℤ) (signed : Bool) (a : ℤ) :
    wrap size signed a = a - 2 ^ size.toNat * ((a - typeMin size signed) / 2 ^ size.toNat) := by
  rw [wrap,Int.emod_def]
  ring

theorem wrap_emod {g : ℤ} (hg : g ∣ 2 ^ size.toNat) : wrap size signed a % g = a % g := by
  obtain ⟨q,hq⟩ := hg
  rw [wrap_eq_sub,hq,mul_assoc,Int.sub_mul_emod_self_left]

theorem quotient_eq_zero_iff (h : 1 ≤ size) :
    (a - typeMin size signed) / 2 ^ size.toNat = 0 ↔ typeMin size signed ≤ a ∧ a ≤ typeMax size signed := by
  have hpos : (0 : ℤ) < 2 ^ size.toNat := by positivity
  rw [typeMax_eq h]
  constructor
  · intro hq
    have h0 := Int.emod_nonneg (a - typeMin size signed) hpos.ne'
    have hlt := Int.emod_lt_of_pos (a - typeMin size signed) hpos
    rw [Int.emod_def,hq,mul_zero,sub_zero] at h0 hlt
    omega
  · rintro ⟨hlo,hhi⟩
    exact Int.ediv_eq_zero_of_lt (by omega) (by omega)

theorem cast_eq_wrap (h1 : 1 ≤ size) (h2 : size ≤ 1024) (signed : Bool) (a : ℤ) :
    Integer.cast size signed a = .ok (wrap size signed a) := by
  rw [cast_ok h1 h2]
  cases signed with
  | true => simp [wrap,typeMin,sub_eq_add_neg]
  | false => simp [wrap,typeMin]

end Ranges

def PreSet.Within (lo hi : ℤ) : PreSet → Prop
  | .preSet o _ => ∀ x ∈ o, lo ≤ x ∧ x ≤ hi
  | .preTop min max _ => lo ≤ min ∧ max ≤ hi

section Images
variable {sc : ℕ} {lo hi : ℤ}

theorem addPs_within {ps : PreSet} (h : ps.Within lo hi) {x : ℤ} (hx : lo ≤ x ∧ x ≤ hi) :
    (addPs sc ps x).Within lo hi := by
  cases ps with
  | preSet o s =>
    have hmem : ∀ y ∈ O.add x o, lo ≤ y ∧ y ≤ hi := by
      intro y hy
      rcases O.mem_add.mp hy with rfl | hy
      · exact hx
      · exact h y hy
    have hne : O.add x o ≠ [] := List.ne_nil_of_mem (O.mem_add.mpr (Or.inl rfl))
    simp only [addPs]
    split
    · exact h
    · split
      · exact hmem
      · exact ⟨(hmem _ (headD_mem hne)).1,(hmem _ (getLastD_mem hne)).2⟩
  | preTop min max modu =>
    obtain ⟨h1,h2⟩ := h
    exact ⟨le_min h1 hx.1,max_le h2 hx.2⟩

theorem injectPs_within {ps : PreSet} {E : Set ℤ} (hE : ps.Holds sc E) (h : ps.Within lo hi) {c : ℤ}
    (hc : c ∈ concr (injectPs ps)) : lo ≤ c ∧ c ≤ hi := by
  cases ps with
  | preSet o s =>
    obtain ⟨_,rfl,_,_⟩ := hE
    rw [injectPs,shareSet_eq] at hc
    exact h c hc
  | preTop min max modu =>
    obtain ⟨_,hlo,hhi⟩ := hc
    exact ⟨h.1.trans (hlo _ rfl),(hhi _ rfl).trans h.2⟩

theorem mapSetExnsafe_within (hsc : 2 ≤ sc) {f : ℤ → ℤ} {s : List ℤ} (h : ∀ x ∈ s, lo ≤ f x ∧ f x ≤ hi) {c : ℤ}
    (hc : c ∈ concr (mapSetExnsafe sc f s)) : lo ≤ c ∧ c ≤ hi := by
  refine injectPs_within (foldl_addPs_holds hsc s f (emptyPs_holds sc)) ?_ hc
  refine List.foldlRecOn s (fun acc v => addPs sc acc (f v)) (motive := PreSet.Within lo hi) ?_ ?_
  · intro x hx
    cases hx
  · intro ps hps x hx
    exact addPs_within hps (h x hx)

theorem foldlM_addPs_eq {step : ℤ → Res ℤ} {f : ℤ → ℤ} {s : List ℤ} (h : ∀ x ∈ s, step x = .ok (f x)) (ps : PreSet) :
    s.foldlM (fun acc v => do return addPs sc acc (← step v)) ps =
      .ok (s.foldl (fun acc v => addPs sc acc (f v)) ps) := by
  induction s generalizing ps with
  | nil => rfl
  | cons x s ih =>
    rw [List.foldlM_cons,h x (by simp),Res.ok_bind,pure_bind,List.foldl_cons]
    exact ih (fun y hy => h y (by simp [hy])) _

end Images

section Casts
variable {sc : ℕ} {v : Ival} {size : ℤ} {signed : Bool}

theorem createAllValues_spec (hsc : 2 ≤ sc) (h : 1 ≤ size) (signed : Bool) :
    ∃ w, createAllValues sc signed size = .ok w ∧ Wf sc w ∧
      ∀ c, c ∈ concr w ↔ typeMin size signed ≤ c ∧ c ≤ typeMax size signed := by
  obtain ⟨w,hw,hwf⟩ := createAllValues_wf hsc signed h
  refine ⟨w,hw,hwf,?_⟩
  have hround : ∀ b : ℤ, roundUpToR b 0 1 = b ∧ roundDownToR b 0 1 = b := fun b =>
    ⟨roundUpToR_self (by decide) (Int.emod_one b),roundDownToR_self (by decide) (Int.emod_one b)⟩
  have hbounds : ∀ {lo hi : ℤ} {u : Ival}, concr u = prog (some lo) (some hi) 0 1 → ∀ c, c ∈ concr u ↔ lo ≤ c ∧ c ≤ hi := by
    intro lo hi u hu c
    rw [hu]
    constructor
    · rintro ⟨_,hlo,hhi⟩
      exact ⟨hlo lo rfl,hhi hi rfl⟩
    · rintro ⟨hlo,hhi⟩
      exact ⟨Int.emod_one c,by rintro _ ⟨⟩; exact hlo,by rintro _ ⟨⟩; exact hhi⟩
  unfold createAllValues createAllValuesModu at hw
  cases signed with
  | true =>
    simp only [if_true,twoPowerOfInt_ok (by omega : 0 ≤ size - 1),Res.ok_bind,(hround _).1,(hround _).2] at hw
    split at hw
    · obtain ⟨u,hu,_,hc⟩ := injectTop_spec hsc (reduced_unit (some (-2 ^ (size - 1).toNat)) (some (2 ^ (size - 1).toNat - 1)))
      rw [hu] at hw
      cases hw
      exact hbounds hc
    · cases hw
      exact hbounds rfl
  | false =>
    simp only [Bool.false_eq_true,if_false,twoPowerOfInt_ok (by omega : 0 ≤ size),Res.ok_bind,(hround _).2] at hw
    split at hw
    · obtain ⟨u,hu,_,hc⟩ := injectTop_spec hsc (reduced_unit (some 0) (some (2 ^ size.toNat - 1)))
      rw [hu] at hw
      cases hw
      exact hbounds hc
    · cases hw
      exact hbounds rfl

theorem bestEffort_spec (hsc : 2 ≤ sc) (size : ℤ) (signed : Bool) (r : ℤ) {m : ℤ} (hm : 1 ≤ m) :
    ∃ w, bestEffort sc signed (2 ^ size.toNat) (2 ^ (size - 1).toNat) r m = .ok w ∧
      ∀ c, c ∈ concr w ↔ c % pgcd (2 ^ size.toNat) m = r % pgcd (2 ^ size.toNat) m ∧ typeMin size signed ≤ c ∧
        c ≤ typeMax size signed := by
  have hg : 1 ≤ pgcd (2 ^ size.toNat) m := one_le_pgcd_right hm
  have h0 : 0 ≤ r % pgcd (2 ^ size.toNat) m := Int.emod_nonneg _ (by omega)
  have hlt : r % pgcd (2 ^ size.toNat) m < pgcd (2 ^ size.toNat) m := Int.emod_lt_of_pos _ (by omega)
  obtain ⟨w,hw,_,hc⟩ := injectTop_spec hsc
    (reduced_round (some (typeMin size signed)) (some (typeMax size signed)) h0 hlt)
  refine ⟨w,?_,?_⟩
  · cases signed with
    | true => exact hw
    | false => exact hw
  · intro c
    rw [hc]
    constructor
    · rintro ⟨hcls,hlo,hhi⟩
      exact ⟨hcls,(le_roundUpToR (by omega)).trans (hlo _ rfl),(hhi _ rfl).trans (roundDownToR_le (by omega))⟩
    · rintro ⟨hcls,hlo,hhi⟩
      refine ⟨hcls,?_,?_⟩
      · rintro _ ⟨⟩
        exact roundUpToR_le (by omega) hcls hlo
      · rintro _ ⟨⟩
        exact le_roundDownToR (by omega) hcls hhi

theorem castResult_bounded (h1 : 1 ≤ size) (h2 : size ≤ 1024) (signed : Bool) (mn mx r m : ℤ) :
    castResult sc size signed (.topItv (some mn) (some mx) r m) =
      if (mn - typeMin size signed) / 2 ^ size.toNat = (mx - typeMin size signed) / 2 ^ size.toNat then
        if (mn - typeMin size signed) / 2 ^ size.toNat = 0 then .ok (.topItv (some mn) (some mx) r m)
        else injectTop sc (some (wrap size signed mn)) (some (wrap size signed mx)) (wrap size signed mn % m) m
      else bestEffort sc signed (2 ^ size.toNat) (2 ^ (size - 1).toNat) r m := by
  have hF : (2 : ℤ) ^ size.toNat ≠ 0 := by positivity
  have hhigh : ∀ c : ℤ, logand c (-2 ^ size.toNat) = 2 ^ size.toNat * (c / 2 ^ size.toNat) := by
    intro c
    rw [logand,Bits.land_neg_two_pow,Int.emod_def]
    ring
  unfold castResult
  rw [twoPower_ok (by omega) h2,Res.ok_bind,twoPower_ok (by omega) (by omega),Res.ok_bind]
  simp only [cast_eq_wrap h1 h2,Res.ok_bind,hhigh,isZero]
  cases signed with
  | true => simp [typeMin,hF]; rfl
  | false => simp [typeMin,hF]; rfl

def CastSpec (size : ℤ) (signed : Bool) (v w : Ival) : Prop :=
  (∀ a ∈ concr v, wrap size signed a ∈ concr w) ∧
    (∀ c ∈ concr w, typeMin size signed ≤ c ∧ c ≤ typeMax size signed) ∧
    ((∀ a ∈ concr v, typeMin size signed ≤ a ∧ a ≤ typeMax size signed) → w = v)

theorem wrap_of_range (h : 1 ≤ size) {a : ℤ} (ha : typeMin size signed ≤ a ∧ a ≤ typeMax size signed) :
    wrap size signed a = a := by
  rw [wrap_eq_sub,(quotient_eq_zero_iff h).2 ha,mul_zero,sub_zero]

theorem castSpec_self (h : 1 ≤ size) (hv : ∀ a ∈ concr v, typeMin size signed ≤ a ∧ a ≤ typeMax size signed) :
    CastSpec size signed v v := by
  refine ⟨?_,hv,fun _ => rfl⟩
  intro a ha
  rw [wrap_of_range h (hv a ha)]
  exact ha

theorem castSpec_bestEffort (hsc : 2 ≤ sc) (h : 1 ≤ size) (signed : Bool) {mn mx : Option ℤ} {r m : ℤ}
    (hv : Wf sc (.topItv mn mx r m))
    (hout : ¬ ∀ a ∈ prog mn mx r m, typeMin size signed ≤ a ∧ a ≤ typeMax size signed) :
    ∃ w, bestEffort sc signed (2 ^ size.toNat) (2 ^ (size - 1).toNat) r m = .ok w ∧
      CastSpec size signed (.topItv mn mx r m) w := by
  obtain ⟨w,hw,hmem⟩ := bestEffort_spec hsc size signed r (wf_topItv_iff.mp hv).1.pos
  refine ⟨w,hw,?_,fun c hc => ((hmem c).1 hc).2,fun hin => absurd hin hout⟩
  rintro a ⟨hcls,_,_⟩
  refine (hmem _).2 ⟨?_,wrap_range h signed a⟩
  rw [wrap_emod (pgcd_dvd_left _ m),← hcls,Int.emod_emod_of_dvd _ (pgcd_dvd_right _ m)]

theorem castSpec_translate (hsc : 2 ≤ sc) (h : 1 ≤ size) {mn mx r m : ℤ} (hv : Wf sc (.topItv (some mn) (some mx) r m))
    (hq : (mn - typeMin size signed) / 2 ^ size.toNat = (mx - typeMin size signed) / 2 ^ size.toNat)
    (hne : (mn - typeMin size signed) / 2 ^ size.toNat ≠ 0) :
    ∃ w, injectTop sc (some (wrap size signed mn)) (some (wrap size signed mx)) (wrap size signed mn % m) m = .ok w ∧
      CastSpec size signed (.topItv (some mn) (some mx) r m) w := by
  obtain ⟨hr,hl⟩ := wf_topItv_iff.mp hv
  have hm := hr.pos
  have hpos : (0 : ℤ) < 2 ^ size.toNat := by positivity
  have hquot : ∀ {a}, mn ≤ a → a ≤ mx →
      (a - typeMin size signed) / 2 ^ size.toNat = (mn - typeMin size signed) / 2 ^ size.toNat := by
    intro a ha1 ha2
    have hle1 := Int.ediv_le_ediv hpos (sub_le_sub_right ha1 (typeMin size signed))
    have hle2 := Int.ediv_le_ediv hpos (sub_le_sub_right ha2 (typeMin size signed))
    omega
  have hmnmx := hl.le hm rfl rfl
  have htrans : ∀ {a}, mn ≤ a → a ≤ mx → wrap size signed a - wrap size signed mn = a - mn := by
    intro a ha1 ha2
    rw [wrap_eq_sub,wrap_eq_sub,hquot ha1 ha2]
    ring
  have hcls : ∀ {a}, mn ≤ a → a ≤ mx → a % m = r → wrap size signed a % m = wrap size signed mn % m := by
    intro a ha1 ha2 ha
    rw [Int.emod_eq_emod_iff_emod_sub_eq_zero,htrans ha1 ha2,← Int.emod_eq_emod_iff_emod_sub_eq_zero,ha,hr.lower mn rfl]
  have hred : Reduced (some (wrap size signed mn)) (some (wrap size signed mx)) (wrap size signed mn % m) m := by
    refine ⟨hm,Int.emod_nonneg _ (by omega),Int.emod_lt_of_pos _ (by omega),by rintro _ ⟨⟩; rfl,?_⟩
    rintro _ ⟨⟩
    exact hcls hmnmx le_rfl (hr.upper mx rfl)
  obtain ⟨w,hw,_,hc⟩ := injectTop_spec hsc hred
  refine ⟨w,hw,?_,?_,?_⟩
  · rintro a ⟨ha,hlo,hhi⟩
    have ha1 := hlo mn rfl
    have ha2 := hhi mx rfl
    have ht1 := htrans ha1 ha2
    have ht2 := htrans hmnmx le_rfl
    rw [hc]
    refine ⟨hcls ha1 ha2 ha,?_,?_⟩
    · rintro _ ⟨⟩
      omega
    · rintro _ ⟨⟩
      omega
  · intro c hcw
    rw [hc] at hcw
    obtain ⟨_,hlo,hhi⟩ := hcw
    exact ⟨(wrap_range h signed mn).1.trans (hlo _ rfl),(hhi _ rfl).trans (wrap_range h signed mx).2⟩
  · intro hin
    have hmem : mn ∈ concr (.topItv (some mn) (some mx) r m) := hr.lower_mem fun b hb => hl.le hm rfl hb
    exact absurd ((quotient_eq_zero_iff h).2 (hin mn hmem)) hne

theorem castResult_sound (hsc : 2 ≤ sc) (hv : Wf sc v) (h1 : 1 ≤ size) (h2 : size ≤ 1024) (signed : Bool) :
    ∃ w, castResult sc size signed v = .ok w ∧ CastSpec size signed v w := by
  cases v with
  | set s =>
    unfold castResult
    rw [twoPower_ok (by omega) h2,Res.ok_bind,twoPower_ok (by omega) (by omega),Res.ok_bind]
    obtain ⟨all,hall,hallw,hmem⟩ := createAllValues_spec hsc h1 signed
    simp only [toInt_ok (n := size) ⟨by omega,by omega⟩,Res.ok_bind,hall]
    split
    · rename_i hinc
      have hsub := (isIncluded_iff_subset hsc hv hallw).1 hinc
      exact ⟨_,rfl,castSpec_self h1 fun a ha => (hmem a).1 (hsub ha)⟩
    · rename_i hinc
      refine ⟨mapSetExnsafe sc (wrap size signed) s,?_,?_,?_,?_⟩
      · rw [foldlM_addPs_eq fun x _ => cast_eq_wrap h1 h2 signed x]
        rfl
      · exact (mapSetExnsafe_spec hsc _ s).2
      · exact fun c hc => mapSetExnsafe_within hsc (fun x _ => wrap_range h1 signed x) hc
      · intro hin
        exact absurd ((isIncluded_iff_subset hsc hv hallw).2 fun a ha => (hmem a).2 (hin a ha)) hinc
  | topItv mn mx r m =>
    obtain ⟨hr,hl⟩ := wf_topItv_iff.mp hv
    cases mn with
    | none =>
      have hout : ¬ ∀ a ∈ prog none mx r m, typeMin size signed ≤ a ∧ a ≤ typeMax size signed := by
        intro hin
        obtain ⟨c,hc,hlt⟩ := hr.unbounded_below (typeMin size signed - 1)
        have := (hin c hc).1
        omega
      obtain ⟨w,hw,hspec⟩ := castSpec_bestEffort hsc h1 signed hv hout
      refine ⟨w,?_,hspec⟩
      unfold castResult
      rw [twoPower_ok (by omega) h2,Res.ok_bind,twoPower_ok (by omega) (by omega),Res.ok_bind]
      exact hw
    | some a =>
      cases mx with
      | none =>
        have hout : ¬ ∀ c ∈ prog (some a) none r m, typeMin size signed ≤ c ∧ c ≤ typeMax size signed := by
          intro hin
          obtain ⟨c,hc,hlt⟩ := hr.unbounded_above (typeMax size signed + 1)
          have := (hin c hc).2
          omega
        obtain ⟨w,hw,hspec⟩ := castSpec_bestEffort hsc h1 signed hv hout
        refine ⟨w,?_,hspec⟩
        unfold castResult
        rw [twoPower_ok (by omega) h2,Res.ok_bind,twoPower_ok (by omega) (by omega),Res.ok_bind]
        exact hw
      | some b =>
        rw [castResult_bounded h1 h2]
        have hab := hl.le hr.pos rfl rfl
        split
        · rename_i hq
          split
          · rename_i hz
            refine ⟨_,rfl,castSpec_self h1 ?_⟩
            rintro c ⟨_,hlo,hhi⟩
            have hb := (quotient_eq_zero_iff h1).1 (hq.symm.trans hz)
            exact ⟨((quotient_eq_zero_iff h1).1 hz).1.trans (hlo a rfl),(hhi b rfl).trans hb.2⟩
          · rename_i hz
            exact castSpec_translate hsc h1 hv hq hz
        · rename_i hq
          refine castSpec_bestEffort hsc h1 signed hv fun hin => hq ?_
          rw [(quotient_eq_zero_iff h1).2 (hin a (hr.lower_mem fun c hc => hl.le hr.pos rfl hc)),
            (quotient_eq_zero_iff h1).2 (hin b (hr.upper_mem fun c hc => hl.le hr.pos hc rfl))]

theorem castIntToInt_sound (hsc : 2 ≤ sc) (hv : Wf sc v) (h1 : 1 ≤ size) (h2 : size ≤ 1024 ∨ v = top ∧ size < 2 ^ 62)
    (signed : Bool) : ∃ w, castIntToInt sc size signed v = .ok w ∧ CastSpec size signed v w := by
  unfold castIntToInt
  split
  · rename_i htop
    have htop : top = v := equal_iff.mp htop
    subst htop
    obtain ⟨w,hw,_,hmem⟩ := createAllValues_spec hsc h1 signed
    rw [toInt_ok ⟨by omega,by omega⟩,Res.ok_bind]
    refine ⟨w,hw,fun a _ => (hmem _).2 (wrap_range h1 signed a),fun c hc => (hmem c).1 hc,?_⟩
    intro hin
    have := (hin (typeMax size signed + 1) ⟨Int.emod_one _,by simp,by simp⟩).2
    omega
  · rename_i htop
    have h2 : size ≤ 1024 := h2.resolve_right fun h => htop (equal_iff.mpr h.1.symm)
    obtain ⟨w,hw,hspec⟩ := castResult_sound hsc hv h1 h2 signed
    rw [hw,Res.ok_bind]
    split
    · rename_i heq
      have heq : w = v := equal_iff.mp heq
      subst heq
      exact ⟨w,rfl,hspec⟩
    · exact ⟨w,rfl,hspec⟩

theorem extractBits_sound (hsc : 2 ≤ sc) (hv : Wf sc v) {start stop : ℤ} (h0 : 0 ≤ start) (h1 : start ≤ stop)
    (h2 : (∀ s, v ≠ .set s) ∨ start < 2 ^ 62 ∧ stop - start + 1 < 2 ^ 62) :
    ∃ w, extractBits sc start stop v = .ok w ∧
      ∀ a ∈ concr v, a / 2 ^ start.toNat % 2 ^ (stop - start + 1).toNat ∈ concr w := by
  have hlen : Integer.length start stop = stop - start + 1 := rfl
  cases v with
  | set s =>
    obtain ⟨h2,h3⟩ := h2.resolve_left fun h => h s rfl
    have hstep : ∀ x ∈ s, Integer.extractBits start stop x = .ok (x / 2 ^ start.toNat % 2 ^ (stop - start + 1).toNat) := by
      intro x _
      rw [Integer.extractBits,decide_eq_true ⟨h0,h1⟩,assertion_true,Res.ok_bind,hlen,toInt_ok ⟨by omega,h2⟩,Res.ok_bind,
        toInt_ok ⟨by omega,h3⟩,Res.ok_bind,Integer.extract,if_neg (by omega)]
    refine ⟨mapSetExnsafe sc (fun x => x / 2 ^ start.toNat % 2 ^ (stop - start + 1).toNat) s,?_,?_⟩
    · rw [extractBits,foldlM_addPs_eq hstep]
      rfl
    · exact (mapSetExnsafe_spec hsc _ s).2
  | topItv mn mx r m =>
    refine catchOverflow_sound (fun a _ => ⟨Int.emod_one _,by simp,by simp⟩) ?_
    rcases twoPower_nonneg h0 with hp | hp
    · have hpos : (0 : ℤ) < 2 ^ start.toNat := by positivity
      obtain ⟨q,hq,hqw⟩ := scaleDiv_wf hsc hv true hpos.ne'
      rw [hp,Res.ok_bind,hq,Res.ok_bind,hlen]
      rcases twoPower_nonneg (by omega : 0 ≤ stop - start + 1) with hp' | hp'
      · have hpos' : (0 : ℤ) < 2 ^ (stop - start + 1).toNat := by positivity
        obtain ⟨w,hw,_⟩ := scaleRem_wf hsc hqw true (2 ^ (stop - start + 1).toNat)
        rw [hp',Res.ok_bind,hw]
        intro a ha
        have hmem := scaleRem_sound hsc hqw hpos'.ne' hw (scaleDiv_sound hsc hv hpos.ne' hq ha)
        rwa [abs_of_pos hpos'] at hmem
      · rw [hp']
        rfl
    · rw [hp]
      rfl

end Casts

/-- Casts and extractions of bits contain the results of every member, as long as the powers of two they need are
computed. -/
theorem cast_extract_sound {sc : ℕ} (hsc : 2 ≤ sc) {v : Ival} (hv : Wf sc v) :
    (∀ size signed, 1 ≤ size → (size ≤ 1024 ∨ v = top ∧ size < 2 ^ 62) →
      ∃ w, castIntToInt sc size signed v = .ok w ∧ (∀ a ∈ concr v, wrap size signed a ∈ concr w) ∧
        (∀ c ∈ concr w, typeMin size signed ≤ c ∧ c ≤ typeMax size signed) ∧
        ((∀ a ∈ concr v, typeMin size signed ≤ a ∧ a ≤ typeMax size signed) → w = v)) ∧
    ∀ start stop, 0 ≤ start → start ≤ stop →
      ((∀ s, v ≠ .set s) ∨ start < 2 ^ 62 ∧ stop - start + 1 < 2 ^ 62) →
      ∃ w, extractBits sc start stop v = .ok w ∧
        ∀ a ∈ concr v, a / 2 ^ start.toNat % 2 ^ (stop - start + 1).toNat ∈ concr w := by
  refine ⟨?_,?_⟩
  · intro size signed h1 h2
    exact castIntToInt_sound hsc hv h1 h2 signed
  · intro start stop h0 h1 h2
    exact extractBits_sound hsc hv h0 h1 h2

theorem cast_extract_sound_byte :
    ∃ w, castIntToInt 8 8 true (.topItv none (some 199) 1 3) = .ok w ∧ wrap 8 true 199 ∈ concr w := by
  have hv : Wf 8 (.topItv none (some 199) 1 3) := ⟨by decide,by decide,by decide,by simp,by simp,by simp⟩
  obtain ⟨w,hw,hmem,_⟩ := (cast_extract_sound (by decide) hv).1 8 true (by decide) (Or.inl (by decide))
  exact ⟨w,hw,hmem 199 ⟨by decide,by simp,by simp⟩⟩

theorem castIntToInt_refuses_wide_type :
    Wf 8 (.set [3]) ∧ 3 ∈ concr (.set [3]) ∧ castIntToInt 8 1025 false (.set [3]) = .error .overflow :=
  ⟨⟨by simp,by decide⟩,by simp,by decide⟩

end FramaC.Ival
