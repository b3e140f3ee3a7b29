import FramaC.Integer

/-! # Overlays of memory regions

An overlay is a sorted list of ranges of bits. Overlapping ranges of two overlays are fused into their hull, with the dimensions
that fit it.
-/
namespace FramaC.Layout

variable {R : Type}

namespace Matrix

def div (a b : ℤ) : Res ℤ := if b = 0 then .error .divisionByZero else .ok (a.tdiv b)

def mod (a b : ℤ) : Res ℤ := if b = 0 then .error .divisionByZero else .ok (a.tmod b)

def sizeof (n : ℤ) : List ℤ → ℤ
  | [] => n
  | d :: ds => sizeof (n * d) ds

def array (ds : List ℤ) (n : ℤ) : List ℤ := if n = 1 then ds else ds ++ [n]

/-- Assumes that `s` divides `len`. -/
def joinArray (s len : ℤ) : Res (List ℤ) := do
  let n ← div len s
  return if n = 1 then [] else [n]

/-- Assumes that `s` divides `len`, and keeps a common prefix of the dimensions. -/
def join (s : ℤ) : List ℤ → List ℤ → ℤ → Res (List ℤ)
  | d :: da,d' :: db,len =>
    if d = d' then do
      let s' := s * d
      if (← mod len s') = 0 then return d :: (← join s' da db len) else joinArray s len
    else joinArray s len
  | _,_,len => joinArray s len

end Matrix

inductive Dim
  | raw (len : ℤ)
  | dim (s : ℤ) (ds : List ℤ)
  deriving DecidableEq

structure Range (R : Type) where
  ofs : ℤ
  len : ℤ
  reg : R
  dim : Dim
  deriving DecidableEq

namespace Range

def aligned (mu : Bool → R → R → R) (ra rb : Range R) (ofs len : ℤ) : Res (Option (Range R)) :=
  match ra.dim,rb.dim with
  | .dim s da,.dim s' db =>
    if s = s' then do
      if (← Matrix.mod len s) = 0 then
        let ta := |ra.ofs - rb.ofs|
        let tb := |ra.ofs + ra.len - rb.ofs - rb.len|
        if (← Matrix.mod ta s) = 0 ∧ (← Matrix.mod tb s) = 0 then
          let ds ← Matrix.join s da db len
          return some ⟨ofs,len,mu false ra.reg rb.reg,.dim s ds⟩
        else return none
      else return none
    else .ok none
  | _,_ => .ok none

def overlap (mu : Bool → R → R → R) (ra rb : Range R) : Res (Range R) := do
  let ofs := min ra.ofs rb.ofs
  let len := max (ra.ofs + ra.len) (rb.ofs + rb.len) - ofs
  match ← aligned mu ra rb ofs len with
  | some rg => return rg
  | none => return ⟨ofs,len,mu true ra.reg rb.reg,.raw len⟩

def flatten (rg : Range R) : Range R :=
  match rg.dim with
  | .dim s ds => if ds ≠ [] then { rg with dim := .dim s (Matrix.array [] (Matrix.sizeof 1 ds)) } else rg
  | _ => rg

def included (p n : ℤ) (rg : Range R) : Bool := rg.ofs ≤ p ∧ p + n ≤ rg.ofs + rg.len

end Range

abbrev Overlay (R : Type) := List (Range R)

namespace Overlay

def merge (mu : Bool → R → R → R) : Overlay R → Overlay R → Res (Overlay R)
  | [],ovc => .ok ovc
  | ovc,[] => .ok ovc
  | ra :: wa,rb :: wb =>
    let sa := ra.ofs + ra.len
    let sb := rb.ofs + rb.len
    if sa ≤ rb.ofs then do return ra :: (← merge mu wa (rb :: wb))
    else if sb ≤ ra.ofs then do return rb :: (← merge mu (ra :: wa) wb)
    else if sa < sb then do
      let rg ← Range.overlap mu ra rb
      merge mu wa (rg :: wb)
    else do
      let rg ← Range.overlap mu ra rb
      merge mu (rg :: wa) wb
termination_by ova ovb => ova.length + ovb.length

def pack (eq : R → R → Bool) : Overlay R → Res (Overlay R)
  | [] => .ok []
  | [rg] => .ok [rg]
  | ra :: rb :: ovl =>
    match ra.dim,rb.dim with
    | .dim s da,.dim s' db =>
      if eq ra.reg rb.reg ∧ s = s' ∧ ra.ofs + ra.len = rb.ofs then do
        let len := ra.len + rb.len
        let ds ← Matrix.join s da db len
        pack eq (⟨ra.ofs,len,ra.reg,.dim s ds⟩ :: ovl)
      else do return ra :: (← pack eq (rb :: ovl))
    | _,_ => do return ra :: (← pack eq (rb :: ovl))
termination_by ovl => ovl.length

def flatten (ovl : Overlay R) : Overlay R := ovl.map Range.flatten

end Overlay
end FramaC.Layout

/-! ## Well-formed overlays

Fusing and packing keep the order of the ranges and the divisibility of their lengths, and fuse only what overlaps.
-/
namespace FramaC.Layout
variable {R : Type}

namespace Matrix

theorem div_ok {s n : ℤ} (hs : s ≠ 0) : div (s * n) s = .ok n := by
  rw [div,if_neg hs,Int.mul_tdiv_cancel_left n hs]

theorem mod_eq_zero_iff {s : ℤ} (len : ℤ) (hs : s ≠ 0) : ∃ r, mod len s = .ok r ∧ (r = 0 ↔ s ∣ len) :=
  ⟨len.tmod s,by rw [mod,if_neg hs],(Int.dvd_iff_tmod_eq_zero ..).symm⟩

theorem sizeof_eq (n : ℤ) (ds : List ℤ) : sizeof n ds = n * ds.prod := by
  induction ds generalizing n with
  | nil => simp [sizeof]
  | cons d ds ih => rw [sizeof,ih,List.prod_cons,mul_assoc]

theorem prod_array (ds : List ℤ) (n : ℤ) : (array ds n).prod = ds.prod * n := by
  unfold array
  split
  · next h => rw [h,mul_one]
  · simp

theorem joinArray_prod {s len : ℤ} (hs : s ≠ 0) (h : s ∣ len) : ∃ ds, joinArray s len = .ok ds ∧ s * ds.prod = len := by
  obtain ⟨n,rfl⟩ := h
  refine ⟨array [] n,?_,by rw [prod_array,List.prod_nil,one_mul]⟩
  rw [joinArray,div_ok hs]
  rfl

theorem join_prod {s len : ℤ} {da : List ℤ} (db : List ℤ) (hs : s ≠ 0) (hda : da.prod ≠ 0) (h : s ∣ len) :
    ∃ ds, join s da db len = .ok ds ∧ s * ds.prod = len := by
  induction da generalizing s db with
  | nil =>
    rw [join]
    · exact joinArray_prod hs h
    · simp
  | cons d da ih =>
    cases db with
    | nil =>
      rw [join]
      · exact joinArray_prod hs h
      · simp
    | cons d' db =>
      rw [join]
      rw [List.prod_cons] at hda
      split
      · have hs' : s * d ≠ 0 := mul_ne_zero hs (left_ne_zero_of_mul hda)
        obtain ⟨r,hr,hr0⟩ := mod_eq_zero_iff len hs'
        simp only [hr,Res.ok_bind]
        split
        · next h0 =>
          obtain ⟨ds,hds,hlen⟩ := ih db hs' (right_ne_zero_of_mul hda) (hr0.mp h0)
          refine ⟨d :: ds,?_,by rw [List.prod_cons,← mul_assoc,hlen]⟩
          rw [hds]
          rfl
        · exact joinArray_prod hs h
      · exact joinArray_prod hs h

end Matrix

namespace Range

def stop (rg : Range R) : ℤ := rg.ofs + rg.len

def Fits (rg : Range R) : Prop :=
  match rg.dim with
  | .raw _ => True
  | .dim s ds => s * ds.prod = rg.len

structure Wf (rg : Range R) : Prop where
  pos : 0 < rg.len
  fits : rg.Fits

def Covers (rg : Range R) (p : ℤ) : Prop := rg.ofs ≤ p ∧ p < rg.stop

theorem Wf.ofs_lt_stop {rg : Range R} (h : rg.Wf) : rg.ofs < rg.stop := by
  have hpos := h.pos
  unfold stop
  omega

theorem included_iff {rg : Range R} {p n : ℤ} : rg.included p n = true ↔ rg.ofs ≤ p ∧ p + n ≤ rg.stop := by
  simp [included,stop]

theorem Wf.dim {rg : Range R} (h : rg.Wf) {s : ℤ} {ds : List ℤ} (hdim : rg.dim = .dim s ds) :
    s ≠ 0 ∧ ds.prod ≠ 0 ∧ s ∣ rg.len := by
  have hfits := h.fits
  rw [Fits,hdim] at hfits
  have hne : s * ds.prod ≠ 0 := by
    rw [hfits]
    exact h.pos.ne'
  exact ⟨left_ne_zero_of_mul hne,right_ne_zero_of_mul hne,⟨_,hfits.symm⟩⟩

theorem aligned_wf (mu : Bool → R → R → R) {ra : Range R} (rb : Range R) (ha : ra.Wf) (ofs : ℤ) {len : ℤ} (hlen : 0 < len) :
    ∃ o, aligned mu ra rb ofs len = .ok o ∧ ∀ rg ∈ o, rg.ofs = ofs ∧ rg.len = len ∧ rg.Wf := by
  unfold aligned
  split
  · next s da s' db hda hdb =>
    split
    · obtain ⟨hs,hprod,_⟩ := ha.dim hda
      obtain ⟨r,hr,hr0⟩ := Matrix.mod_eq_zero_iff len hs
      rw [hr,Res.ok_bind]
      split
      · next h0 =>
        obtain ⟨ta,hta,_⟩ := Matrix.mod_eq_zero_iff |ra.ofs - rb.ofs| hs
        obtain ⟨tb,htb,_⟩ := Matrix.mod_eq_zero_iff |ra.ofs + ra.len - rb.ofs - rb.len| hs
        obtain ⟨ds,hds,heq⟩ := Matrix.join_prod db hs hprod (hr0.mp h0)
        simp only [hta,htb,hds,Res.ok_bind]
        split
        · exact ⟨_,rfl,by simpa using ⟨hlen,heq⟩⟩
        · exact ⟨none,rfl,by simp⟩
      · exact ⟨none,rfl,by simp⟩
    · exact ⟨none,rfl,by simp⟩
  · exact ⟨none,rfl,by simp⟩

theorem overlap_hull (mu : Bool → R → R → R) {ra rb : Range R} (ha : ra.Wf) (hb : rb.Wf) :
    ∃ rg, overlap mu ra rb = .ok rg ∧ rg.ofs = min ra.ofs rb.ofs ∧ rg.stop = max ra.stop rb.stop ∧ rg.Wf := by
  have hpos : 0 < max (ra.ofs + ra.len) (rb.ofs + rb.len) - min ra.ofs rb.ofs := by
    have := ha.pos
    have := hb.pos
    omega
  obtain ⟨o,ho,hwf⟩ := aligned_wf mu rb ha (min ra.ofs rb.ofs) hpos
  unfold overlap
  simp only [ho,Res.ok_bind]
  cases o with
  | some rg =>
    obtain ⟨hofs,hlen,hrg⟩ := hwf rg rfl
    refine ⟨rg,rfl,hofs,?_,hrg⟩
    rw [stop,hofs,hlen,stop,stop]
    omega
  | none =>
    refine ⟨_,rfl,rfl,?_,hpos,trivial⟩
    simp only [stop]
    omega

theorem flatten_wf {rg : Range R} (h : rg.Wf) : rg.flatten.ofs = rg.ofs ∧ rg.flatten.len = rg.len ∧ rg.flatten.Wf := by
  unfold flatten
  split
  · next s ds hdim =>
    split
    · refine ⟨rfl,rfl,h.pos,?_⟩
      have hfits := h.fits
      rw [Fits,hdim] at hfits
      change s * (Matrix.array [] (Matrix.sizeof 1 ds)).prod = rg.len
      rw [Matrix.prod_array,Matrix.sizeof_eq,List.prod_nil,one_mul,one_mul]
      exact hfits
    · exact ⟨rfl,rfl,h⟩
  · exact ⟨rfl,rfl,h⟩

end Range
namespace Overlay

/-- Sorted by offset and disjoint, every range filled by its cells. -/
structure Wf (rs : Overlay R) : Prop where
  sorted : rs.Pairwise fun r r' => r.ofs ≤ r'.ofs
  disjoint : rs.Pairwise fun r r' => ∀ p, ¬ (r.Covers p ∧ r'.Covers p)
  ranges : ∀ r ∈ rs, r.Wf

def Covers (rs : Overlay R) (p : ℤ) : Prop := ∃ r ∈ rs, r.Covers p

theorem covers_cons {r : Range R} {rs : Overlay R} {p : ℤ} : Covers (r :: rs) p ↔ r.Covers p ∨ Covers rs p := by
  simp [Covers]

theorem wf_iff {rs : Overlay R} : Wf rs ↔ (rs.Pairwise fun r r' => r.stop ≤ r'.ofs) ∧ ∀ r ∈ rs, r.Wf := by
  constructor
  · intro h
    refine ⟨(h.sorted.and h.disjoint).imp_of_mem ?_,h.ranges⟩
    rintro r r' hr hr' ⟨hle,hdis⟩
    by_contra hlt
    have := (h.ranges r' hr').ofs_lt_stop
    exact hdis r'.ofs ⟨⟨hle,by omega⟩,⟨le_rfl,this⟩⟩
  · rintro ⟨hapart,hranges⟩
    refine ⟨hapart.imp_of_mem ?_,hapart.imp ?_,hranges⟩
    · intro r r' hr _ hle
      exact (hranges r hr).ofs_lt_stop.le.trans hle
    · rintro r r' hle p ⟨hp,hp'⟩
      exact absurd hp.2 (by have := hp'.1; omega)

theorem wf_cons {r : Range R} {rs : Overlay R} : Wf (r :: rs) ↔ r.Wf ∧ Wf rs ∧ ∀ r' ∈ rs, r.stop ≤ r'.ofs := by
  simp only [wf_iff,List.pairwise_cons,List.forall_mem_cons]
  tauto

theorem ofs_le_of_covers {rs : Overlay R} {k p : ℤ} (h : ∀ r ∈ rs, k ≤ r.ofs) (hp : Covers rs p) : k ≤ p := by
  obtain ⟨r,hr,hrp⟩ := hp
  exact (h r hr).trans hrp.1

theorem included_unique {rs : Overlay R} (h : Wf rs) {r r' x : Range R} (hx : x.Wf) (hr : r ∈ rs) (hr' : r' ∈ rs)
    (hxr : r.included x.ofs x.len) (hxr' : r'.included x.ofs x.len) : r = r' := by
  rw [Range.included_iff] at hxr hxr'
  have hpos := hx.pos
  by_contra hne
  have hsymm : Std.Symm fun r r' : Range R => ∀ p, ¬ (r.Covers p ∧ r'.Covers p) := ⟨fun r r' h p hp => h p hp.symm⟩
  exact h.disjoint.forall hr hr' hne x.ofs ⟨⟨hxr.1,by omega⟩,⟨hxr'.1,by omega⟩⟩

theorem le_of_head {r : Range R} {rs : Overlay R} {k : ℤ} (h : Wf (r :: rs)) (hk : k ≤ r.ofs) : ∀ r' ∈ r :: rs, k ≤ r'.ofs :=
  List.forall_mem_cons.mpr ⟨hk,fun r' hr' => hk.trans ((List.pairwise_cons.mp h.sorted).1 r' hr')⟩

structure Merged (ova ovb out : Overlay R) : Prop where
  wf : Wf out
  covers : ∀ p, Covers out p ↔ Covers ova p ∨ Covers ovb p
  included : ∀ x, x ∈ ova ∨ x ∈ ovb → ∃ r ∈ out, r.included x.ofs x.len

theorem Merged.symm {ova ovb out : Overlay R} (h : Merged ova ovb out) : Merged ovb ova out :=
  ⟨h.wf,fun p => (h.covers p).trans or_comm,fun x hx => h.included x hx.symm⟩

theorem Merged.le_ofs {ova ovb out : Overlay R} (h : Merged ova ovb out) {k : ℤ} (ha : ∀ r ∈ ova, k ≤ r.ofs)
    (hb : ∀ r ∈ ovb, k ≤ r.ofs) : ∀ r ∈ out, k ≤ r.ofs := by
  intro r hr
  have hcov : Covers out r.ofs := ⟨r,hr,le_rfl,(h.wf.ranges r hr).ofs_lt_stop⟩
  rcases (h.covers _).mp hcov with hp | hp
  · exact ofs_le_of_covers ha hp
  · exact ofs_le_of_covers hb hp

theorem included_self (r : Range R) : r.included r.ofs r.len = true := by simp [Range.included]

theorem Merged.cons {ra : Range R} {wa ovb out : Overlay R} (h : Merged wa ovb out) (ha : ra.Wf)
    (hwa : ∀ r ∈ wa, ra.stop ≤ r.ofs) (hovb : ∀ r ∈ ovb, ra.stop ≤ r.ofs) : Merged (ra :: wa) ovb (ra :: out) := by
  refine ⟨(wf_cons).mpr ⟨ha,h.wf,h.le_ofs hwa hovb⟩,?_,?_⟩
  · intro p
    rw [covers_cons,covers_cons,h.covers,or_assoc]
  · rintro x (hx | hx)
    · rcases List.mem_cons.mp hx with rfl | hx
      · exact ⟨x,List.mem_cons_self ..,included_self x⟩
      · obtain ⟨r,hr,hxr⟩ := h.included x (.inl hx)
        exact ⟨r,List.mem_cons_of_mem _ hr,hxr⟩
    · obtain ⟨r,hr,hxr⟩ := h.included x (.inr hx)
      exact ⟨r,List.mem_cons_of_mem _ hr,hxr⟩

theorem Merged.hull {ra rb rg : Range R} {wa wb out : Overlay R} (h : Merged wa (rg :: wb) out)
    (hofs : rg.ofs = min ra.ofs rb.ofs) (hstop : rg.stop = max ra.stop rb.stop) (hab : rb.ofs < ra.stop)
    (hba : ra.ofs < rb.stop) (ha : ra.Wf) (hb : rb.Wf) : Merged (ra :: wa) (rb :: wb) out := by
  refine ⟨h.wf,?_,?_⟩
  · intro p
    have hhull : rg.Covers p ↔ ra.Covers p ∨ rb.Covers p := by
      unfold Range.Covers
      rw [hofs,hstop]
      have := ha.ofs_lt_stop
      have := hb.ofs_lt_stop
      omega
    rw [h.covers,covers_cons,covers_cons,covers_cons,hhull]
    tauto
  · have hrg : ∀ x : Range R, rg.ofs ≤ x.ofs → x.stop ≤ rg.stop → ∃ r ∈ out, r.included x.ofs x.len := by
      intro x hx hx'
      obtain ⟨r,hr,hrr⟩ := h.included rg (.inr (List.mem_cons_self ..))
      rw [Range.included_iff] at hrr
      unfold Range.stop at hx' hrr
      exact ⟨r,hr,Range.included_iff.mpr (by unfold Range.stop; omega)⟩
    rintro x (hx | hx)
    · rcases List.mem_cons.mp hx with rfl | hx
      · exact hrg x (by omega) (by omega)
      · exact h.included x (.inl hx)
    · rcases List.mem_cons.mp hx with rfl | hx
      · exact hrg x (by omega) (by omega)
      · exact h.included x (.inr (List.mem_cons_of_mem _ hx))

theorem merge_merged (mu : Bool → R → R → R) (ova ovb : Overlay R) (ha : Wf ova) (hb : Wf ovb) :
    ∃ out, merge mu ova ovb = .ok out ∧ Merged ova ovb out := by
  induction ova,ovb using merge.induct with
  | case1 ovc =>
    refine ⟨ovc,by rw [merge],hb,?_,?_⟩
    · simp [Covers]
    · rintro x (hx | hx)
      · cases hx
      · exact ⟨x,hx,included_self x⟩
  | case2 ovc hne =>
    refine ⟨ovc,?_,ha,?_,?_⟩
    · rw [merge]
      exact hne
    · simp [Covers]
    · rintro x (hx | hx)
      · exact ⟨x,hx,included_self x⟩
      · cases hx
  | case3 ra wa rb wb sa hle ih =>
    obtain ⟨hra,hwa,hapart⟩ := (wf_cons).mp ha
    obtain ⟨out,hout,hmerged⟩ := ih hwa hb
    refine ⟨ra :: out,?_,hmerged.cons hra hapart (le_of_head hb hle)⟩
    rw [merge]
    simp only [hle,sa,if_true,hout]
    rfl
  | case4 ra wa rb wb sa sb hle hle' ih =>
    obtain ⟨hrb,hwb,hapart⟩ := (wf_cons).mp hb
    obtain ⟨out,hout,hmerged⟩ := ih ha hwb
    refine ⟨rb :: out,?_,(hmerged.symm.cons hrb hapart (le_of_head ha hle')).symm⟩
    rw [merge]
    simp only [hle,hle',sa,sb,if_true,if_false,hout]
    rfl
  | case5 ra wa rb wb sa sb hle hle' hlt ih =>
    obtain ⟨hra,hwa,_⟩ := (wf_cons).mp ha
    obtain ⟨hrb,hwb,hapart⟩ := (wf_cons).mp hb
    obtain ⟨rg,hrg,hofs,hstop,hwf⟩ := Range.overlap_hull mu hra hrb
    have hmax : rg.stop = rb.stop := hstop.trans (max_eq_right hlt.le)
    obtain ⟨out,hout,hmerged⟩ := ih rg hwa (wf_cons.mpr ⟨hwf,hwb,by rwa [hmax]⟩)
    refine ⟨out,?_,hmerged.hull hofs hstop (not_le.mp hle) (not_le.mp hle') hra hrb⟩
    rw [merge]
    simp only [hle,hle',hlt,sa,sb,if_true,if_false,hrg,Res.ok_bind,hout]
  | case6 ra wa rb wb sa sb hle hle' hlt ih =>
    obtain ⟨hra,hwa,hapart⟩ := (wf_cons).mp ha
    obtain ⟨hrb,hwb,_⟩ := (wf_cons).mp hb
    obtain ⟨rg,hrg,hofs,hstop,hwf⟩ := Range.overlap_hull mu hra hrb
    have hmax : rg.stop = ra.stop := hstop.trans (max_eq_left (not_lt.mp hlt))
    obtain ⟨out,hout,hmerged⟩ := ih rg (wf_cons.mpr ⟨hwf,hwa,by rwa [hmax]⟩) hwb
    refine ⟨out,?_,?_⟩
    · rw [merge]
      simp only [hle,hle',hlt,sa,sb,if_false,hrg,Res.ok_bind,hout]
    · rw [min_comm] at hofs
      rw [max_comm] at hstop
      exact (hmerged.symm.hull hofs hstop (not_le.mp hle') (not_le.mp hle) hrb hra).symm

theorem pack_wf (eq : R → R → Bool) (ovl : Overlay R) (h : Wf ovl) :
    ∃ out, pack eq ovl = .ok out ∧ Wf out ∧ ∀ k, (∀ r ∈ ovl, k ≤ r.ofs) → ∀ r ∈ out, k ≤ r.ofs := by
  induction ovl using pack.induct eq with
  | case1 => exact ⟨[],by rw [pack],h,fun k hk => hk⟩
  | case2 rg => exact ⟨[rg],by rw [pack],h,fun k hk => hk⟩
  | case3 ra rb ovl s da s' db hdb hda heq len ih =>
    obtain ⟨hreg,rfl,hadj⟩ := heq
    obtain ⟨hra,hwf,_⟩ := (wf_cons).mp h
    obtain ⟨hrb,hovl,hapart⟩ := (wf_cons).mp hwf
    obtain ⟨hs,hprod,hdvd⟩ := hra.dim hda
    obtain ⟨ds,hds,hlen⟩ := Matrix.join_prod db hs hprod (hdvd.add (hrb.dim hdb).2.2)
    have hfused : Range.Wf ⟨ra.ofs,len,ra.reg,.dim s ds⟩ := ⟨add_pos hra.pos hrb.pos,hlen⟩
    have hstop : Range.stop ⟨ra.ofs,len,ra.reg,.dim s ds⟩ = rb.stop := by
      unfold Range.stop
      simp only [len]
      omega
    obtain ⟨out,hout,hwf',hle⟩ := ih ds (wf_cons.mpr ⟨hfused,hovl,by rwa [hstop]⟩)
    refine ⟨out,?_,hwf',fun k hk => hle k ?_⟩
    · rw [pack]
      simp only [hda,hdb,hreg,hadj,and_self,if_true,hds,Res.ok_bind]
      exact hout
    · rw [List.forall_mem_cons] at hk ⊢
      exact ⟨hk.1,(List.forall_mem_cons.mp hk.2).2⟩
  | case4 ra rb ovl s da s' db hdb hda hne ih =>
    obtain ⟨hra,hwf,hapart⟩ := (wf_cons).mp h
    obtain ⟨out,hout,hwf',hle⟩ := ih hwf
    refine ⟨ra :: out,?_,(wf_cons).mpr ⟨hra,hwf',hle _ hapart⟩,fun k hk => ?_⟩
    · rw [pack]
      simp only [hda,hdb,hne,if_false,hout]
      rfl
    · rw [List.forall_mem_cons] at hk ⊢
      exact ⟨hk.1,hle k hk.2⟩
  | case5 ra rb ovl hne ih =>
    obtain ⟨hra,hwf,hapart⟩ := (wf_cons).mp h
    obtain ⟨out,hout,hwf',hle⟩ := ih hwf
    refine ⟨ra :: out,?_,(wf_cons).mpr ⟨hra,hwf',hle _ hapart⟩,fun k hk => ?_⟩
    · rw [pack]
      split
      · next hda hdb => exact absurd hdb (hne _ _ _ _ hda)
      · rw [hout]
        rfl
    · rw [List.forall_mem_cons] at hk ⊢
      exact ⟨hk.1,hle k hk.2⟩

theorem flatten_wf {ovl : Overlay R} (h : Wf ovl) : Wf (flatten ovl) := by
  induction ovl with
  | nil => exact h
  | cons r ovl ih =>
    obtain ⟨hr,hovl,hapart⟩ := (wf_cons).mp h
    obtain ⟨hofs,hlen,hwf⟩ := Range.flatten_wf hr
    refine (wf_cons).mpr ⟨hwf,ih hovl,?_⟩
    intro r' hr'
    obtain ⟨r₀,hr₀,rfl⟩ := List.mem_map.mp hr'
    rw [Range.stop,hofs,hlen,(Range.flatten_wf (hovl.ranges r₀ hr₀)).1]
    exact hapart r₀ hr₀

def twoCells : Overlay Unit := [⟨0,64,(),.dim 32 [2]⟩]

/-- A cell of 64 bits that begins in the middle of `twoCells`. -/
def oneCell : Overlay Unit := [⟨32,64,(),.dim 64 []⟩]

end Overlay
end FramaC.Layout
