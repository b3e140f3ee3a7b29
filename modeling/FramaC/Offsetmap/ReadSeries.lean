import FramaC.Offsetmap.Find

/-! # Periodic reads

A periodic read jumps to the end of a node once it has seen all the alignments of the node. What it skips has already been
read, so that the join of the values is that of all the reads of the series.
-/
namespace FramaC.Offsetmap
open OffsetmapLattice Integer Progression
variable {V : Type}

section Positions
variable {lo hi o o' i j : ℤ} {z z' : Zipper V} {c : Cell V} {t : Offsetmap V}

theorem findBitOffset_mem (h : Shape lo hi o t) (he : findBitOffset i z o t = some (z',o',c)) :
    lo ≤ o' ∧ o' + c.max ≤ hi ∧ o' ≤ i ∧ i ≤ o' + c.max := by
  induction t generalizing lo hi o z with
  | empty => cases he
  | node max offl subl offr subr rem modu v ihl ihr =>
    have hroot := h.root_le
    obtain ⟨hmax,hl,hr,_⟩ := h
    rw [findBitOffset] at he
    split at he
    · rename_i hin
      cases he
      exact ⟨hroot.1,hroot.2.2,hin.1,hin.2⟩
    · split at he
      · have := ihl hl he
        omega
      · have := ihr hr he
        omega

theorem findBitOffset_same (h : Shape lo hi o t) (he : findBitOffset i z o t = some (z',o',c)) (h1 : o' ≤ j)
    (h2 : j ≤ o' + c.max) : findBitOffset j z o t = some (z',o',c) := by
  induction t generalizing lo hi o z with
  | empty => cases he
  | node max offl subl offr subr rem modu v ihl ihr =>
    have hroot := h.root_le
    obtain ⟨hmax,hl,hr,_⟩ := h
    rw [findBitOffset] at he ⊢
    split at he
    · cases he
      rw [if_pos ⟨h1,h2⟩]
    · rename_i hout
      split at he
      · rename_i hlt
        have hmem := findBitOffset_mem hl he
        rw [if_neg (by omega),if_pos (by omega)]
        exact ihl hl he
      · rename_i hge
        have hmem := findBitOffset_mem hr he
        rw [if_neg (by omega),if_neg (by omega)]
        exact ihr hr he

end Positions

section OneRead
variable [OffsetmapLattice V] {α : Type} {start size : ℤ} {t : Offsetmap V} {readValue : V → ℤ → α}
  {readNodes : ℤ → Cell V → Zipper V → ℤ → ℤ → Option α}

/-- The reader of nodes sees only the alignment of a slice inside a node. -/
def Positional (size : ℤ) (readNodes : ℤ → Cell V → Zipper V → ℤ → ℤ → Option α) : Prop :=
  ∀ o c z s s', o ≤ s → s + size - 1 ≤ o + c.max → o ≤ s' → s' + size - 1 ≤ o + c.max → s % c.modu = s' % c.modu →
    readNodes o c z s size = readNodes o c z s' size

def readAheadOf (since period start size o : ℤ) (c : Cell V) : Option ℤ :=
  if start + size - 1 + size > o + c.max then none
  else if isIsotropic c.v || decide (period % c.modu = 0) then some (o + c.max)
  else if start - max since o ≥ ppcm period c.modu then some (o + c.max) else none

theorem readOneItv_eq {z : Zipper V} {o : ℤ} {c : Cell V} (he : findBitOffset start .endZ 0 t = some (z,o,c)) :
    readOneItv start size t readValue readNodes =
      if (decide (start + size - 1 ≤ o + c.max) && (isIsotropic c.v || (decide (c.modu = size) &&
        decide (start % c.modu = (o + c.rem) % c.modu)))) = true then some (readValue c.v size)
      else readNodes o c z start size := by
  simp only [readOneItv,readItv,he,Option.bind_eq_bind,Option.bind_some]
  split
  · rfl
  · cases readNodes o c z start size <;> rfl

theorem readItv_eq {z : Zipper V} {o : ℤ} {c : Cell V} (he : findBitOffset start .endZ 0 t = some (z,o,c))
    (since period : ℤ) : readItv (some (since,period)) start size t readValue readNodes =
      (fun v => (readAheadOf since period start size o c,v)) <$> readOneItv start size t readValue readNodes := by
  rw [readOneItv_eq he]
  simp only [readItv,he,Option.bind_eq_bind,Option.bind_some,readAheadOf]
  split
  · rfl
  · cases readNodes o c z start size <;> rfl

theorem readOneItv_same {lo hi : ℤ} (h : Shape lo hi 0 t) (hreaders : Positional size readNodes) {s s' o : ℤ} {z : Zipper V}
    {c : Cell V} (hsize : 1 ≤ size) (he : findBitOffset start .endZ 0 t = some (z,o,c)) (h1 : o ≤ s)
    (h2 : s + size - 1 ≤ o + c.max) (h1' : o ≤ s') (h2' : s' + size - 1 ≤ o + c.max)
    (hsame : isIsotropic c.v = true ∨ s % c.modu = s' % c.modu) :
    readOneItv s size t readValue readNodes = readOneItv s' size t readValue readNodes := by
  rw [readOneItv_eq (findBitOffset_same h he h1 (by omega)),readOneItv_eq (findBitOffset_same h he h1' (by omega))]
  rcases hsame with hiso | hmod
  · simp [hiso,h2,h2']
  · simp only [h2,h2',hmod]
    split
    · rfl
    · exact hreaders o c z s s' h1 h2 h1' h2' hmod

end OneRead

section Absorption
variable {α : Type} {joinA : α → α → α} {read : ℤ → Option α} {acc v w : α} {l : List ℤ}

def readStep (joinA : α → α → α) (read : ℤ → Option α) (acc : α) (s : ℤ) : Option α := (fun v => joinA v acc) <$> read s

def Absorbed (joinA : α → α → α) (read : ℤ → Option α) (acc : α) (s : ℤ) : Prop := ∃ v, read s = some v ∧ joinA v acc = acc

theorem foldlM_absorbed (h : ∀ s ∈ l, Absorbed joinA read acc s) : l.foldlM (readStep joinA read) acc = some acc := by
  induction l with
  | nil => rfl
  | cons s l ih =>
    obtain ⟨⟨v,hv,hacc⟩,hl⟩ := List.forall_mem_cons.mp h
    rw [List.foldlM_cons,readStep,hv]
    simp only [Option.map_eq_map,Option.map_some,Option.bind_eq_bind,Option.bind_some,hacc]
    exact ih hl

variable (hassoc : ∀ a b c, joinA (joinA a b) c = joinA a (joinA b c)) (hcomm : ∀ a b, joinA a b = joinA b a)
include hassoc hcomm

theorem Absorbed.join {s : ℤ} (h : Absorbed joinA read acc s) (w : α) : Absorbed joinA read (joinA w acc) s := by
  obtain ⟨v,hv,hacc⟩ := h
  refine ⟨v,hv,?_⟩
  rw [← hassoc,hcomm v w,hassoc,hacc]

omit hcomm in
theorem absorbed_self (hidem : ∀ a, joinA a a = a) {s : ℤ} (hv : read s = some v) (acc : α) :
    Absorbed joinA read (joinA v acc) s := ⟨v,hv,by rw [← hassoc,hidem]⟩

end Absorption

section Series
variable [DecidableEq V] [OffsetmapLattice V] {α : Type} {min max period size lo hi : ℤ} {t : Offsetmap V}
  {readValue : V → ℤ → α} {readNodes : ℤ → Cell V → Zipper V → ℤ → ℤ → Option α} {joinA : α → α → α}

omit [DecidableEq V] in
theorem readAheadOf_room {start e o : ℤ} {c : Cell V} (ha : readAheadOf min period start size o c = some e) :
    start + size - 1 + size ≤ e := by
  rw [readAheadOf] at ha
  split at ha
  · cases ha
  · split at ha
    · cases ha
      omega
    · split at ha
      · cases ha
        omega
      · cases ha

omit [DecidableEq V] in
theorem readAheadOf_covers (readValue : V → ℤ → α) (h : Shape lo hi 0 t) (hreaders : Positional size readNodes) (hsize : 1 ≤ size)
    (hperiod : 1 ≤ period) {start e o : ℤ} {z : Zipper V} {c : Cell V} (hm : 1 ≤ c.modu)
    (he : findBitOffset start .endZ 0 t = some (z,o,c)) (hmin : min ≤ start) (hr : start % period = min % period)
    (ha : readAheadOf min period start size o c = some e) {s : ℤ} (hs : start < s) (hfit : s + size - 1 ≤ e)
    (hsr : s % period = min % period) : ∃ s', min ≤ s' ∧ s' ≤ start ∧ s' % period = min % period ∧
      readOneItv s size t readValue readNodes = readOneItv s' size t readValue readNodes := by
  obtain ⟨_,_,ho1,ho2⟩ := findBitOffset_mem h he
  rw [readAheadOf] at ha
  split at ha
  · cases ha
  rename_i hroom
  split at ha
  · rename_i hiso
    cases ha
    refine ⟨start,hmin,le_rfl,hr,readOneItv_same h hreaders hsize he (by omega) hfit ho1 (by omega) ?_⟩
    simp only [Bool.or_eq_true,decide_eq_true_eq] at hiso
    refine hiso.imp_right fun hdvd => ?_
    have hps : period ∣ s - start := dvd_sub_of_emod_eq (hsr.trans hr.symm)
    rw [Int.emod_eq_emod_iff_emod_sub_eq_zero,← Int.dvd_iff_emod_eq_zero]
    exact (Int.dvd_of_emod_eq_zero hdvd).trans hps
  · split at ha
    · rename_i hlcm
      cases ha
      rw [ppcm_eq (by omega) (by omega)] at hlcm
      -- go back by multiples of the lcm, to the last period that has been read
      set L : ℤ := ((Int.lcm period c.modu : ℕ) : ℤ) with hL
      have hLpos : 0 < L := by
        have := Int.lcm_pos (by omega : period ≠ 0) (by omega : c.modu ≠ 0)
        omega
      have hpL : period ∣ L := Int.dvd_lcm_left _ _
      have hmL : c.modu ∣ L := Int.dvd_lcm_right _ _
      have hdiv := Int.emod_add_mul_ediv (s - start - 1) L
      have h0 := Int.emod_nonneg (s - start - 1) hLpos.ne'
      have h1 := Int.emod_lt_of_pos (s - start - 1) hLpos
      set q := (s - start - 1) / L with hq
      have hback : s - L * (q + 1) = start + 1 + (s - start - 1) % L - L := by
        rw [mul_add]
        omega
      have hcong : ∀ k, k ∣ L → (s - L * (q + 1)) % k = s % k := by
        intro k hk
        rw [Int.emod_eq_emod_iff_emod_sub_eq_zero,← Int.dvd_iff_emod_eq_zero]
        have : s - L * (q + 1) - s = -(L * (q + 1)) := by ring
        rw [this]
        exact (hk.mul_right _).neg_right
      refine ⟨s - L * (q + 1),by omega,by omega,by rw [hcong _ hpL,hsr],?_⟩
      exact readOneItv_same h hreaders hsize he (by omega) hfit (by omega) (by omega) (Or.inr (hcong _ hmL).symm)
    · cases ha

omit [DecidableEq V] [OffsetmapLattice V] in
theorem steps_of_le {start : ℤ} (hperiod : 1 ≤ period) (hle : start ≤ max) :
    steps period ((max - start) / period + 1).toNat start =
      start :: steps period ((max - (start + period)) / period + 1).toNat (start + period) := by
  have hq : 0 ≤ (max - start) / period := Int.ediv_nonneg (by omega) (by omega)
  have hsub : (max - (start + period)) / period = (max - start) / period - 1 := by
    rw [show max - (start + period) = max - start + period * (-1) by ring,Int.add_mul_ediv_left _ _ (by omega)]
    ring
  rw [hsub,show (max - start) / period + 1 = (max - start) / period - 1 + 1 + 1 by ring]
  obtain ⟨n,hn⟩ : ∃ n : ℕ, (max - start) / period - 1 + 1 = n := ⟨((max - start) / period).toNat,by omega⟩
  rw [hn,show ((n : ℤ) + 1).toNat = n + 1 by omega,Int.toNat_natCast,steps]

omit [DecidableEq V] [OffsetmapLattice V] in
theorem steps_skip {start next : ℤ} (max : ℤ) (hperiod : 1 ≤ period) (hr : next % period = start % period) (hle : start ≤ next)
    (hnext : next ≤ max + period) : ∃ k : ℕ, next = start + period * k ∧
      steps period ((max - start) / period + 1).toNat start =
        steps period k start ++ steps period ((max - next) / period + 1).toNat next := by
  obtain ⟨q,hq⟩ := dvd_sub_of_emod_eq hr
  have hq0 : 0 ≤ q := by
    by_contra hneg
    have := Int.mul_neg_of_pos_of_neg (by omega : 0 < period) (by omega : q < 0)
    omega
  obtain ⟨k,rfl⟩ := Int.eq_ofNat_of_zero_le hq0
  refine ⟨k,by omega,?_⟩
  have hdiv : (max - start) / period = (max - next) / period + k := by
    rw [show max - start = max - next + period * k by omega,Int.add_mul_ediv_left _ _ (by omega)]
  have hnn : -1 ≤ (max - next) / period := by
    rw [Int.le_ediv_iff_mul_le (by omega)]
    omega
  rw [show ((max - start) / period + 1).toNat = k + ((max - next) / period + 1).toNat by omega,steps_append]
  congr 2
  omega

omit [DecidableEq V] [OffsetmapLattice V] in
theorem le_of_mem_steps {start s : ℤ} (hperiod : 1 ≤ period)
    (hs : s ∈ steps period ((max - start) / period + 1).toNat start) :
    start ≤ s ∧ s ≤ max ∧ s % period = start % period := by
  obtain ⟨k,hk,rfl⟩ := mem_steps.mp hs
  have hkq : (k : ℤ) ≤ (max - start) / period := by omega
  have hmul := (Int.le_ediv_iff_mul_le (by omega)).mp hkq
  have hnn : 0 ≤ period * k := Int.mul_nonneg (by omega) (by omega)
  rw [mul_comm] at hmul
  exact ⟨by omega,by omega,by rw [Int.add_mul_emod_self_left]⟩

omit [DecidableEq V] [OffsetmapLattice V] in
theorem foldlM_steps_skip {read : ℤ → Option α} {acc : α} {start next : ℤ} (hperiod : 1 ≤ period)
    (hr : next % period = start % period) (hle : start ≤ next)
    (habs : ∀ s, start ≤ s → s < next → s % period = start % period → Absorbed joinA read acc s) :
    (steps period ((max - start) / period + 1).toNat start).foldlM (readStep joinA read) acc =
      if next ≤ max then (steps period ((max - next) / period + 1).toNat next).foldlM (readStep joinA read) acc
      else some acc := by
  split
  · obtain ⟨k,hk,hsteps⟩ := steps_skip max hperiod hr hle (by omega)
    have hskipped : ∀ s ∈ steps period k start, Absorbed joinA read acc s := by
      intro s hs
      obtain ⟨j,hj,rfl⟩ := mem_steps.mp hs
      have hjk := Int.mul_lt_mul_of_pos_left (by omega : (j : ℤ) < k) (by omega : 0 < period)
      have hj0 : 0 ≤ period * j := Int.mul_nonneg (by omega) (by omega)
      exact habs _ (by omega) (by omega) (Int.add_mul_emod_self_left ..)
    rw [hsteps,List.foldlM_append,foldlM_absorbed hskipped]
    rfl
  · refine foldlM_absorbed fun s hs => ?_
    obtain ⟨h1,h2,h3⟩ := le_of_mem_steps hperiod hs
    exact habs s h1 (by omega) h3

theorem readSeries_eq (hassoc : ∀ a b c, joinA (joinA a b) c = joinA a (joinA b c)) (hcomm : ∀ a b, joinA a b = joinA b a)
    (hidem : ∀ a, joinA a a = a) (h : Canon lo hi 0 t) (hreaders : Positional size readNodes) (hsize : 1 ≤ size)
    (hperiod : 1 ≤ period) (hlo : lo ≤ min) (hhi : max + size - 1 ≤ hi) {fuel : ℕ} {start : ℤ} {acc : α}
    (hmin : min ≤ start) (hmax : start ≤ max) (hr : start % period = min % period)
    (hfuel : (max - start).toNat + 1 ≤ fuel) (hinv : ∀ s, min ≤ s → s < start → s % period = min % period →
      Absorbed joinA (fun s => readOneItv s size t readValue readNodes) acc s) :
    readSeries min max period size t readValue readNodes joinA fuel start acc =
      (steps period ((max - start) / period + 1).toNat start).foldlM
        (readStep joinA (fun s => readOneItv s size t readValue readNodes)) acc := by
  induction fuel generalizing start acc with
  | zero => omega
  | succ fuel ih =>
    obtain ⟨z,o,c,l,he,ho1,ho2,hseg,-⟩ := findBitOffset_spec h.1 (by omega : lo ≤ start) (by omega : start ≤ hi) .endZ
    have hm : 1 ≤ c.modu := by
      rw [Zipper.after,List.append_nil] at hseg
      have hok := h.2.1 (c.seg o) (hseg ▸ by simp)
      exact Int.lt_of_le_of_lt hok.1 hok.2.1
    rw [readSeries,readItv_eq he,steps_of_le hperiod hmax,List.foldlM_cons,readStep]
    cases hv : readOneItv start size t readValue readNodes with
    | none => rfl
    | some v =>
      simp only [Option.map_eq_map,Option.map_some,Option.bind_eq_bind,Option.bind_some]
      -- the read at `start` is absorbed as soon as it is done
      have hdone : ∀ s, min ≤ s → s ≤ start → s % period = min % period →
          Absorbed joinA (fun s => readOneItv s size t readValue readNodes) (joinA v acc) s := by
        intro s h1 h2 h3
        rcases h2.lt_or_eq with hlt | rfl
        · exact (hinv s h1 hlt h3).join hassoc hcomm v
        · exact absorbed_self hassoc hidem hv acc
      have hfar : ∀ s, start < s → s % period = min % period → start + period ≤ s := fun s h1 h2 =>
        add_le_of_emod_eq hr h2 h1
      have hjump : ∀ next, start + period ≤ next → next % period = min % period →
          (∀ s, start < s → s < next → s % period = min % period →
            Absorbed joinA (fun s => readOneItv s size t readValue readNodes) (joinA v acc) s) →
          (if next ≤ max then readSeries min max period size t readValue readNodes joinA fuel next (joinA v acc)
            else some (joinA v acc)) = (steps period ((max - (start + period)) / period + 1).toNat (start + period)).foldlM
              (readStep joinA (fun s => readOneItv s size t readValue readNodes)) (joinA v acc) := by
        intro next h1 h2 hskip
        have hr' : (start + period) % period = min % period := by rw [Int.add_emod_right,hr]
        rw [foldlM_steps_skip hperiod (h2.trans hr'.symm) h1 fun s h3 h4 h5 => hskip s (by omega) h4 (h5.trans hr')]
        split
        · rename_i hnext
          refine ih (by omega) hnext h2 (by omega) ?_
          intro s h3 h4 h5
          rcases lt_or_ge start s with hlt | hle
          · exact hskip s hlt h4 h5
          · exact hdone s h3 hle h5
        · rfl
      cases ha : readAheadOf min period start size o c with
      | none =>
        refine hjump (start + period) le_rfl (by rw [Int.add_emod_right,hr]) ?_
        intro s h1 h2 h3
        have := hfar s h1 h3
        omega
      | some e =>
        have hroom := readAheadOf_room ha
        have hr0 := Int.emod_nonneg min (by omega : period ≠ 0)
        have hr1 := Int.emod_lt_of_pos min (by omega : 0 < period)
        have hmod := roundUpToR_emod (b := e + 1 - (size - 1)) hr0 hr1
        have hle := le_roundUpToR (b := e + 1 - (size - 1)) (r := min % period) (by omega : 0 < period)
        refine hjump (roundUpToR (e + 1 - (size - 1)) (min % period) period) (hfar _ (by omega) hmod) hmod ?_
        intro s h1 h2 h3
        -- a read that is not inside the node is not skipped
        have hfit : s + size - 1 ≤ e := by
          by_contra hout
          have := roundUpToR_le (b := e + 1 - (size - 1)) (by omega : 0 < period) h3 (by omega)
          omega
        obtain ⟨s',g1,g2,g3,g4⟩ := readAheadOf_covers readValue h.1 hreaders hsize hperiod hm he hmin hr ha h1 hfit h3
        obtain ⟨w,hw,hacc⟩ := hdone s' g1 g2 g3
        exact ⟨w,g4.trans hw,hacc⟩

/-- The periodic read with its jumps ends, and joins all the reads of the series. -/
theorem readSeriesItv_eq_join_reads (hassoc : ∀ a b c, joinA (joinA a b) c = joinA a (joinA b c))
    (hcomm : ∀ a b, joinA a b = joinA b a) (hidem : ∀ a, joinA a a = a) (h : WellFormed 0 t)
    (hb : boundsOffset 0 t = (lo,hi)) (hreaders : Positional size readNodes) (hsize : 1 ≤ size) (hperiod : 1 ≤ period)
    {n : ℕ} (hmax : max = min + period * n) (hlo : lo ≤ min) (hhi : max + size - 1 ≤ hi) (acc : α) :
    (∀ fuel, (max - min).toNat + 1 ≤ fuel → readSeries min max period size t readValue readNodes joinA fuel min acc =
      readSeriesItv min max period size t readValue readNodes joinA acc) ∧
    readSeriesItv min max period size t readValue readNodes joinA acc = (steps period (n + 1) min).foldlM
      (fun acc start => (fun v => joinA v acc) <$> readOneItv start size t readValue readNodes) acc := by
  have hnn : 0 ≤ period * n := Int.mul_nonneg (by omega) (by omega)
  have hcanon : Canon lo hi 0 t := spanning_iff_canon.mp ⟨h,hb⟩
  have hcount : ((max - min) / period + 1).toNat = n + 1 := by
    rw [hmax,add_sub_cancel_left,Int.mul_ediv_cancel_left _ (by omega)]
    omega
  have heq : ∀ fuel, (max - min).toNat + 1 ≤ fuel →
      readSeries min max period size t readValue readNodes joinA fuel min acc = (steps period (n + 1) min).foldlM
        (readStep joinA (fun s => readOneItv s size t readValue readNodes)) acc := by
    intro fuel hfuel
    rw [← hcount]
    exact readSeries_eq hassoc hcomm hidem hcanon hreaders hsize hperiod hlo hhi le_rfl (by omega) rfl hfuel (by omega)
  exact ⟨fun fuel hfuel => (heq fuel hfuel).trans (heq _ le_rfl).symm,heq _ le_rfl⟩

theorem readSeriesItv_eq_join_reads_bytes :
    readSeriesItv 0 24 8 8 (addNode 12 31 0 1 true 0 (intervalAux 11 0 1 false)).2 (fun v _ => v)
      (fun _ c _ _ _ => some c.v) or false = (steps 8 4 0).foldlM
        (fun acc start => (fun v => or v acc) <$> readOneItv start 8 (addNode 12 31 0 1 true 0 (intervalAux 11 0 1 false)).2
          (fun v _ => v) (fun _ c _ _ _ => some c.v)) false := by
  have hspan : Spanning 0 31 (addNode 12 31 0 1 true 0 (intervalAux 11 0 1 false)) :=
    spanning_addNode_right (spanning_iff_canon.mpr (intervalAux_spec (show (0 : ℤ) ≤ 11 by omega) (.inl rfl)).1)
      (by omega) (.inl rfl)
  exact (readSeriesItv_eq_join_reads (n := 3) Bool.or_assoc Bool.or_comm Bool.or_self hspan.1 hspan.2
    (fun _ _ _ _ _ _ _ _ _ _ => rfl) (by omega) (by omega) (by omega) (by omega) (by omega) false).2

end Series

end FramaC.Offsetmap
