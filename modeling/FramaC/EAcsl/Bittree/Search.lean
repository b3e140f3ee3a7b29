import FramaC.EAcsl.Bittree.Context

/-! # Searches in the bittree

What the four loops of the bittree return on a heap that holds a well-formed shape. Each loop goes down one level at
every turn; that of `bt_find` turns back at most once.
-/
namespace FramaC.EAcsl.Bittree

open Shape CommonPrefix

variable {h : ℕ → Option Node} {par : Option ℕ}

theorem exists_eq_succ_of_lt {n m : ℕ} (h : n < m) : ∃ k, m = k + 1 :=
  Nat.exists_eq_succ_of_ne_zero (Nat.ne_of_gt (Nat.zero_lt_of_lt h))

theorem Shape.Rep.deref_self {t : Shape} (ht : t.Rep h par) : deref h (some t.loc) = some (t.toNode par) := ht.self

theorem not_right_of_left {p a d : ℕ} {l r : Shape} (ht : (node p a d l r).Wf) {x : ℕ}
    (hx : x / 2 ^ d = 2 * (a / 2 ^ (d + 1))) : r.addr / 2 ^ r.level ≠ x / 2 ^ r.level := by
  obtain ⟨ha,hd,hdl,hdr,hql,hqr,htl,htr⟩ := ht
  intro heq
  have hcontra := div_pow_mono hdr heq
  omega

theorem getLeafLoop_spec {t : Shape} (ctx : List Frame) (hrep : t.Rep h par) (hwf : t.Wf) {b : Blk}
    (hb : b ∈ t.blocks) (hdist : ∀ c ∈ t.blocks, c.ptr = b.ptr → c = b) {fuel : ℕ} (hfuel : t.level < fuel) :
    ∃ ctx' p, plug ctx t = plug ctx' (leaf p b) ∧ getLeafLoop h b.ptr fuel (some t.loc) = some p := by
  induction t generalizing ctx par fuel with
  | leaf p c =>
    obtain ⟨fuel,rfl⟩ := exists_eq_succ_of_lt hfuel
    rw [List.mem_singleton.1 hb]
    exact ⟨ctx,p,rfl,by rw [getLeafLoop,hrep.deref_self]; rfl⟩
  | node p a d l r ihl ihr =>
    obtain ⟨fuel,rfl⟩ := exists_eq_succ_of_lt hfuel
    obtain ⟨hself,hl,hr⟩ := rep_node.1 hrep
    have hb64 := hwf.block_lt hb
    have hw := hwf
    obtain ⟨ha,hd,hdl,hdr,hql,hqr,htl,htr⟩ := hw
    have hd' : d < fuel := Nat.lt_of_succ_lt_succ hfuel
    have hunfold : getLeafLoop h b.ptr (fuel + 1) (some (node p a d l r).loc) =
        if (r.toNode (some p)).matches b.ptr then getLeafLoop h b.ptr fuel (some r.loc)
        else if (l.toNode (some p)).matches b.ptr then getLeafLoop h b.ptr fuel (some l.loc) else none := by
      rw [getLeafLoop,hrep.deref_self]
      simp [toNode_node,hl.deref_self,hr.deref_self]
    rw [hunfold]
    obtain hbl | hbr := List.mem_append.1 hb
    · have hmiss := not_right_of_left hwf (hwf.left_block_div hbl)
      rw [if_neg (fun hm => hmiss ((htr.matches_iff _ hb64).1 hm)),
        if_pos ((htl.matches_iff _ hb64).2 (htl.block_div hbl).symm)]
      exact ihl (⟨p,a,d,false,r⟩ :: ctx) hl htl hbl
        (fun c hc => hdist c (List.mem_append_left _ hc)) (Nat.lt_of_le_of_lt hdl hd')
    · rw [if_pos ((htr.matches_iff _ hb64).2 (htr.block_div hbr).symm)]
      exact ihr (⟨p,a,d,true,l⟩ :: ctx) hr htr hbr
        (fun c hc => hdist c (List.mem_append_right _ hc)) (Nat.lt_of_le_of_lt hdr hd')

theorem agreeLevel_children_eq {p a d : ℕ} {l r : Shape} (ht : (node p a d l r).Wf) (pl pr : Option ℕ) {x : ℕ}
    (hx : a / 2 ^ (d + 1) ≠ x / 2 ^ (d + 1)) :
    agreeLevel (l.toNode pl).pre x = agreeLevel (r.toNode pr).pre x := by
  have hl := ht.left_div
  have hr := ht.right_div
  obtain ⟨ha,hd,hdl,hdr,hql,hqr,htl,htr⟩ := ht
  have hiff : ∀ k, d + 1 ≤ k → (agreeLevel (l.toNode pl).pre x ≤ k ↔ agreeLevel (r.toNode pr).pre x ≤ k) := by
    intro k hk
    rw [htl.agreeLevel_le_iff pl (by omega),htr.agreeLevel_le_iff pr (by omega),div_pow_mono hk hl,div_pow_mono hk hr]
  have hlow : d + 1 < agreeLevel (l.toNode pl).pre x := by
    apply Nat.lt_of_not_le
    rw [htl.agreeLevel_le_iff pl (by omega),hl]
    exact hx
  have hlow' : d + 1 < agreeLevel (r.toNode pr).pre x := by
    apply Nat.lt_of_not_le
    rw [htr.agreeLevel_le_iff pr (by omega),hr]
    exact hx
  apply le_antisymm
  · exact (hiff _ hlow'.le).2 (le_refl _)
  · exact (hiff _ hlow.le).1 (le_refl _)

theorem mostSimilarLoop_spec {t : Shape} (ctx : List Frame) (hrep : t.Rep h par) (hwf : t.Wf) {x : ℕ}
    (hx : x < 2 ^ wordbits) (hnew : ∀ b ∈ t.blocks, b.ptr ≠ x)
    (hctx : ∀ f ∈ ctx.head?, t.addr / 2 ^ f.d = x / 2 ^ f.d) {fuel : ℕ} (hfuel : t.level < fuel) :
    ∃ ctx' s, plug ctx t = plug ctx' s ∧ mostSimilarLoop h x fuel (some t.loc) = some s.loc ∧
      (∀ f ∈ ctx'.head?, s.addr / 2 ^ f.d = x / 2 ^ f.d) ∧ s.addr / 2 ^ s.level ≠ x / 2 ^ s.level := by
  induction t generalizing ctx par fuel with
  | leaf p c =>
    obtain ⟨fuel,rfl⟩ := exists_eq_succ_of_lt hfuel
    refine ⟨ctx,leaf p c,rfl,?_,hctx,?_⟩
    · rw [mostSimilarLoop,hrep.deref_self]
      rfl
    · simpa [addr,level] using hnew c List.mem_cons_self
  | node p a d l r ihl ihr =>
    obtain ⟨fuel,rfl⟩ := exists_eq_succ_of_lt hfuel
    obtain ⟨hself,hl,hr⟩ := rep_node.1 hrep
    have hw := hwf
    obtain ⟨ha,hd,hdl,hdr,hql,hqr,htl,htr⟩ := hw
    have hd' : d < fuel := Nat.lt_of_succ_lt_succ hfuel
    have hunfold : mostSimilarLoop h x (fuel + 1) (some (node p a d l r).loc) =
        if agreeLevel (l.toNode (some p)).pre x < agreeLevel (r.toNode (some p)).pre x then
          mostSimilarLoop h x fuel (some l.loc)
        else if agreeLevel (r.toNode (some p)).pre x < agreeLevel (l.toNode (some p)).pre x then
          mostSimilarLoop h x fuel (some r.loc)
        else some p := by
      have hlevl := agreeLevel_le_wordbits (htl.pre_lt (some p)) hx
      have hlevr := agreeLevel_le_wordbits (htr.pre_lt (some p)) hx
      rw [mostSimilarLoop,hrep.deref_self]
      simp [toNode_node,hl.deref_self,hr.deref_self,htl.mask_pre _ hx,htr.mask_pre _ hx,keepFrom_lt_iff hlevl hlevr,
        keepFrom_lt_iff hlevr hlevl,loc_node]
    rw [hunfold]
    by_cases hin : a / 2 ^ (d + 1) = x / 2 ^ (d + 1)
    · -- the address is below the node, so its bit `d` chooses the child
      have hliff := htl.agreeLevel_le_iff (some p) (p := x) hdl
      have hriff := htr.agreeLevel_le_iff (some p) (p := x) hdr
      have hxd := div_succ x d
      rw [hql] at hliff
      rw [hqr] at hriff
      by_cases hbit : x / 2 ^ d = 2 * (a / 2 ^ (d + 1))
      · have hlt : agreeLevel (l.toNode (some p)).pre x ≤ d := hliff.2 hbit.symm
        have hgt : ¬ agreeLevel (r.toNode (some p)).pre x ≤ d := fun hle => by
          have := hriff.1 hle
          omega
        rw [if_pos (by omega)]
        apply ihl (⟨p,a,d,false,r⟩ :: ctx) hl htl (fun b hb => hnew b (List.mem_append_left _ hb)) _
          (Nat.lt_of_le_of_lt hdl hd')
        intro f hf
        cases hf
        exact hql.trans hbit.symm
      · have hbit' : x / 2 ^ d = 2 * (a / 2 ^ (d + 1)) + 1 := by omega
        have hlt : agreeLevel (r.toNode (some p)).pre x ≤ d := hriff.2 hbit'.symm
        have hgt : ¬ agreeLevel (l.toNode (some p)).pre x ≤ d := fun hle => hbit (hliff.1 hle).symm
        rw [if_neg (by omega),if_pos (by omega)]
        apply ihr (⟨p,a,d,true,l⟩ :: ctx) hr htr (fun b hb => hnew b (List.mem_append_right _ hb)) _
          (Nat.lt_of_le_of_lt hdr hd')
        intro f hf
        cases hf
        exact hqr.trans hbit'.symm
    · have heq := agreeLevel_children_eq hwf (some p) (some p) hin
      rw [if_neg (by omega),if_neg (by omega)]
      exact ⟨ctx,node p a d l r,rfl,rfl,hctx,hin⟩

def StartsAt (bs : List Blk) (x : ℕ) (o : Option Blk) : Prop := ∀ b, o = some b ↔ b ∈ bs ∧ b.ptr = x

theorem lookupLoop_spec {t : Shape} (hrep : t.Rep h par) (hwf : t.Wf)
    (hdist : ∀ b ∈ t.blocks, ∀ c ∈ t.blocks, b.ptr = c.ptr → b = c) {x : ℕ} (hx : x < 2 ^ wordbits) {fuel : ℕ}
    (hfuel : t.level < fuel) : ∃ o, lookupLoop h x fuel (some t.loc) = some o ∧ StartsAt t.blocks x o := by
  induction t generalizing par fuel with
  | leaf p c =>
    obtain ⟨fuel,rfl⟩ := exists_eq_succ_of_lt hfuel
    refine ⟨if c.ptr ≠ x then none else some c,?_,?_⟩
    · rw [lookupLoop,hrep.deref_self]
      rfl
    · intro b
      by_cases hc : c.ptr = x
      · rw [if_neg (not_not.2 hc)]
        simp only [blocks,List.mem_singleton,Option.some.injEq]
        exact ⟨fun heq => ⟨heq.symm,heq ▸ hc⟩,fun heq => heq.1.symm⟩
      · rw [if_pos hc]
        simp only [blocks,List.mem_singleton,reduceCtorEq,false_iff]
        rintro ⟨rfl,hb⟩
        exact hc hb
  | node p a d l r ihl ihr =>
    obtain ⟨fuel,rfl⟩ := exists_eq_succ_of_lt hfuel
    obtain ⟨hself,hl,hr⟩ := rep_node.1 hrep
    have hw := hwf
    obtain ⟨ha,hd,hdl,hdr,hql,hqr,htl,htr⟩ := hw
    have hd' : d < fuel := Nat.lt_of_succ_lt_succ hfuel
    have hunfold : lookupLoop h x (fuel + 1) (some (node p a d l r).loc) =
        if !((node p a d l r).toNode par).matches x then some none
        else if (r.toNode (some p)).matches x then lookupLoop h x fuel (some r.loc)
        else if (l.toNode (some p)).matches x then lookupLoop h x fuel (some l.loc) else some none := by
      rw [lookupLoop,hrep.deref_self]
      simp [toNode_node,hl.deref_self,hr.deref_self]
    have hmiss : ∀ s : Shape, s.Wf → (s.toNode (some p)).matches x ≠ true → ∀ b ∈ s.blocks, b.ptr ≠ x := by
      intro s hs hm b hb hbx
      apply hm
      apply (hs.matches_iff _ hx).2
      rw [← hs.block_div hb,hbx]
    rw [hunfold]
    by_cases hm : (!((node p a d l r).toNode par).matches x) = true
    · rw [if_pos hm]
      refine ⟨none,rfl,?_⟩
      intro b
      simp only [reduceCtorEq,false_iff]
      rintro ⟨hb,hbx⟩
      have hin := (hwf.matches_iff par hx).2 (hbx ▸ (hwf.block_div hb).symm)
      rw [hin] at hm
      cases hm
    · rw [if_neg hm]
      by_cases hmr : (r.toNode (some p)).matches x = true
      · rw [if_pos hmr]
        obtain ⟨o,ho,hstart⟩ := ihr hr htr (fun b hb c hc =>
          hdist b (List.mem_append_right _ hb) c (List.mem_append_right _ hc)) (Nat.lt_of_le_of_lt hdr hd')
        refine ⟨o,ho,?_⟩
        intro b
        rw [hstart b,blocks,List.mem_append]
        constructor
        · exact fun hb => ⟨Or.inr hb.1,hb.2⟩
        · rintro ⟨hb | hb,hbx⟩
          · exact absurd ((htr.matches_iff _ hx).1 hmr) (not_right_of_left hwf (hbx ▸ hwf.left_block_div hb))
          · exact ⟨hb,hbx⟩
      · rw [if_neg hmr]
        have hmr' := hmiss r htr hmr
        by_cases hml : (l.toNode (some p)).matches x = true
        · rw [if_pos hml]
          obtain ⟨o,ho,hstart⟩ := ihl hl htl (fun b hb c hc =>
            hdist b (List.mem_append_left _ hb) c (List.mem_append_left _ hc)) (Nat.lt_of_le_of_lt hdl hd')
          refine ⟨o,ho,?_⟩
          intro b
          rw [hstart b,blocks,List.mem_append]
          constructor
          · exact fun hb => ⟨Or.inl hb.1,hb.2⟩
          · rintro ⟨hb | hb,hbx⟩
            · exact ⟨hb,hbx⟩
            · exact absurd hbx (hmr' b hb)
        · rw [if_neg hml]
          refine ⟨none,rfl,?_⟩
          intro b
          simp only [reduceCtorEq,false_iff,blocks,List.mem_append]
          rintro ⟨hb | hb,hbx⟩
          · exact hmiss l htl hml b hb hbx
          · exact hmr' b hb hbx

def ifContains (x : ℕ) (b : Blk) : Option Blk :=
  if x < (b.size + b.ptr) % 2 ^ wordbits ∨ (b.size = 0 ∧ x = b.ptr) then some b else none

def Closest (bs : List Blk) (x : ℕ) : Option Blk → Prop
  | none => ∀ c ∈ bs, x < c.ptr
  | some b => b ∈ bs ∧ b.ptr ≤ x ∧ ∀ c ∈ bs, c.ptr ≤ x → c.ptr ≤ b.ptr

theorem findLoop_leaf {p : ℕ} {b : Blk} (hrep : (leaf p b).Rep h par) (x fuel : ℕ) (other : Option ℕ) :
    findLoop h x (fuel + 1) (some p) other = some (if b.ptr > x then none else ifContains x b) := by
  rw [findLoop.eq_def]
  simp only [show deref h (some p) = _ from hrep.deref_self]
  rfl

theorem findLoop_node {p a d : ℕ} {l r : Shape} (hrep : (node p a d l r).Rep h par) (hwf : (node p a d l r).Wf) {x : ℕ}
    (hx : x < 2 ^ wordbits) (fuel : ℕ) (other : Option ℕ) :
    findLoop h x (fuel + 1) (some p) other =
      if r.addr / 2 ^ r.level ≤ x / 2 ^ r.level then findLoop h x fuel (some r.loc) (some l.loc)
      else if l.addr / 2 ^ l.level ≤ x / 2 ^ l.level then findLoop h x fuel (some l.loc) other
      else other.elim (some none) fun q => findLoop h x fuel (some q) none := by
  obtain ⟨hself,hl,hr⟩ := rep_node.1 hrep
  obtain ⟨ha,hd,hdl,hdr,hql,hqr,htl,htr⟩ := hwf
  rw [findLoop.eq_def]
  simp only [show deref h (some p) = _ from hrep.deref_self]
  simp only [toNode_node,Option.bind_some,Bool.false_eq_true,if_false,hl.deref_self,hr.deref_self,
    htl.pre_le_iff _ hx,htr.pre_le_iff _ hx]
  cases other with
  | none => rfl
  | some q => rfl

theorem findLoop_all {t : Shape} (hrep : t.Rep h par) (hwf : t.Wf) {x : ℕ} (hx : x < 2 ^ wordbits)
    (hall : ∀ b ∈ t.blocks, b.ptr ≤ x) {fuel : ℕ} (hfuel : t.level < fuel) (other : Option ℕ) :
    ∃ b ∈ t.blocks, (∀ c ∈ t.blocks, c.ptr ≤ b.ptr) ∧ findLoop h x fuel (some t.loc) other = some (ifContains x b) := by
  induction t generalizing par fuel other with
  | leaf p c =>
    obtain ⟨fuel,rfl⟩ := exists_eq_succ_of_lt hfuel
    refine ⟨c,List.mem_cons_self,?_,?_⟩
    · intro b hb
      rw [List.mem_singleton.1 hb]
    · have hle : ¬ c.ptr > x := Nat.not_lt.2 (hall c List.mem_cons_self)
      exact (findLoop_leaf hrep x fuel other).trans (by rw [if_neg hle])
  | node p a d l r ihl ihr =>
    obtain ⟨fuel,rfl⟩ := exists_eq_succ_of_lt hfuel
    obtain ⟨hself,hl,hr⟩ := rep_node.1 hrep
    have hw := hwf
    obtain ⟨ha,hd,hdl,hdr,hql,hqr,htl,htr⟩ := hw
    have hd' : d < fuel := Nat.lt_of_succ_lt_succ hfuel
    obtain ⟨b0,hb0⟩ := blocks_ne_nil r
    have hpass : r.addr / 2 ^ r.level ≤ x / 2 ^ r.level := by
      rw [← htr.block_div hb0]
      exact Nat.div_le_div_right (hall b0 (List.mem_append_right _ hb0))
    obtain ⟨b,hb,hmax,hfind⟩ := ihr hr htr (fun b hb => hall b (List.mem_append_right _ hb))
      (Nat.lt_of_le_of_lt hdr hd') (some l.loc)
    refine ⟨b,List.mem_append_right _ hb,?_,?_⟩
    · intro c hc
      obtain hc | hc := List.mem_append.1 hc
      · exact (hwf.left_lt_right hc hb).le
      · exact hmax c hc
    · exact (findLoop_node hrep hwf hx fuel other).trans (by rw [if_pos hpass,hfind])

theorem Shape.Wf.lt_of_not_pass {t : Shape} (ht : t.Wf) {x : ℕ} (hn : ¬ t.addr / 2 ^ t.level ≤ x / 2 ^ t.level) {b : Blk}
    (hb : b ∈ t.blocks) : x < b.ptr := by
  apply lt_of_div_lt (k := t.level)
  rw [ht.block_div hb]
  exact Nat.lt_of_not_le hn

theorem findLoop_spec {t : Shape} (hrep : t.Rep h par) (hwf : t.Wf) {x : ℕ} (hx : x < 2 ^ wordbits) (o : Option Shape)
    (ho : ∀ s ∈ o, (∃ q, s.Rep h q) ∧ s.Wf ∧ (∀ c ∈ s.blocks, c.ptr ≤ x) ∧
      ∀ c ∈ s.blocks, ∀ b ∈ t.blocks, c.ptr ≤ b.ptr)
    (hpass : t.addr / 2 ^ t.level ≤ x / 2 ^ t.level ∨ o = none) {fuel : ℕ} (hfuel : t.level + wordbits < fuel) :
    ∃ b, Closest (t.blocks ++ o.elim [] blocks) x b ∧
      findLoop h x fuel (some t.loc) (o.map loc) = some (b.bind (ifContains x)) := by
  induction t generalizing par fuel o with
  | leaf p c =>
    obtain ⟨fuel,rfl⟩ := exists_eq_succ_of_lt hfuel
    have hloop := findLoop_leaf hrep x fuel (o.map loc)
    by_cases hc : c.ptr > x
    · rw [if_pos hc] at hloop
      have hnone : o = none := by
        apply hpass.resolve_left
        simpa [addr,level] using hc
      refine ⟨none,?_,hloop⟩
      intro b hb
      rw [hnone] at hb
      rw [List.mem_singleton.1 hb]
      exact hc
    · rw [if_neg hc] at hloop
      refine ⟨some c,⟨List.mem_cons_self,Nat.le_of_not_lt hc,?_⟩,hloop⟩
      intro b hb hbx
      obtain hb | hb := List.mem_append.1 hb
      · rw [List.mem_singleton.1 hb]
      · cases o with
        | none => cases hb
        | some s => exact (ho s rfl).2.2.2 b hb c List.mem_cons_self
  | node p a d l r ihl ihr =>
    obtain ⟨fuel,rfl⟩ := exists_eq_succ_of_lt hfuel
    obtain ⟨hself,hl,hr⟩ := rep_node.1 hrep
    have hw := hwf
    obtain ⟨ha,hd,hdl,hdr,hql,hqr,htl,htr⟩ := hw
    have hloop := findLoop_node hrep hwf hx fuel (o.map loc)
    have hd' : d + wordbits < fuel := by
      simp only [level] at hfuel
      omega
    have hother : ∀ c ∈ o.elim [] blocks, ∀ b ∈ (node p a d l r).blocks, c.ptr ≤ b.ptr := by
      intro c hc
      cases o with
      | none => cases hc
      | some s => exact (ho s rfl).2.2.2 c hc
    by_cases hpr : r.addr / 2 ^ r.level ≤ x / 2 ^ r.level
    · rw [if_pos hpr] at hloop
      -- on the right there is a start not above the address, or all of the left are below it
      have hright : ∃ b, b ∈ r.blocks ++ l.blocks ∧ b.ptr ≤ x ∧
          (∀ c ∈ r.blocks ++ l.blocks, c.ptr ≤ x → c.ptr ≤ b.ptr) ∧
          findLoop h x fuel (some r.loc) (some l.loc) = some (ifContains x b) := by
        by_cases hlt : r.addr / 2 ^ r.level < x / 2 ^ r.level
        · have hall : ∀ b ∈ r.blocks, b.ptr ≤ x := by
            intro b hb
            apply le_of_lt
            apply lt_of_div_lt (k := r.level)
            rw [htr.block_div hb]
            exact hlt
          obtain ⟨b,hb,hmax,hfind⟩ := findLoop_all hr htr hx hall (by omega : r.level < fuel) (some l.loc)
          refine ⟨b,List.mem_append_left _ hb,hall b hb,?_,hfind⟩
          intro c hc hcx
          obtain hc | hc := List.mem_append.1 hc
          · exact hmax c hc
          · exact (hwf.left_lt_right hc hb).le
        · have heq : r.addr / 2 ^ r.level = x / 2 ^ r.level := by omega
          have hxd := div_pow_mono hdr heq
          have hleft : ∀ c ∈ l.blocks, c.ptr ≤ x := by
            intro c hc
            have hcd := hwf.left_block_div hc
            apply le_of_lt
            apply lt_of_div_lt (k := d)
            omega
          obtain ⟨b,hclosest,hfind⟩ := ihr hr htr (some l)
            (fun s hs => by
              cases hs
              exact ⟨⟨_,hl⟩,htl,hleft,fun c hc b hb => (hwf.left_lt_right hc hb).le⟩)
            (Or.inl hpr) (by omega : r.level + wordbits < fuel)
          cases b with
          | none =>
            obtain ⟨c,hc⟩ := blocks_ne_nil l
            exact absurd (hclosest c (List.mem_append_right _ hc)) (Nat.not_lt.2 (hleft c hc))
          | some b => exact ⟨b,hclosest.1,hclosest.2.1,hclosest.2.2,hfind⟩
      obtain ⟨b,hb,hbx,hmax,hfind⟩ := hright
      have hmem : b ∈ (node p a d l r).blocks := List.mem_append.2 (List.mem_append.1 hb).symm
      refine ⟨some b,⟨List.mem_append_left _ hmem,hbx,?_⟩,hloop.trans hfind⟩
      intro c hc hcx
      obtain hc | hc := List.mem_append.1 hc
      · exact hmax c (List.mem_append.2 (List.mem_append.1 hc).symm) hcx
      · exact hother c hc b hmem
    · rw [if_neg hpr] at hloop
      by_cases hpl : l.addr / 2 ^ l.level ≤ x / 2 ^ l.level
      · rw [if_pos hpl] at hloop
        obtain ⟨b,hclosest,hfind⟩ := ihl hl htl o
          (fun s hs => ⟨(ho s hs).1,(ho s hs).2.1,(ho s hs).2.2.1,fun c hc b hb =>
            (ho s hs).2.2.2 c hc b (List.mem_append_left _ hb)⟩)
          (Or.inl hpl) (by omega : l.level + wordbits < fuel)
        refine ⟨b,?_,hloop.trans hfind⟩
        have hskip : ∀ c, c ∈ (node p a d l r).blocks ++ o.elim [] blocks → c.ptr ≤ x →
            c ∈ l.blocks ++ o.elim [] blocks := by
          intro c hc hcx
          simp only [blocks,List.mem_append] at hc ⊢
          obtain (hc | hc) | hc := hc
          · exact Or.inl hc
          · exact absurd hcx (Nat.not_le.2 (htr.lt_of_not_pass hpr hc))
          · exact Or.inr hc
        cases b with
        | none =>
          intro c hc
          by_contra hle
          exact hle (hclosest c (hskip c hc (Nat.le_of_not_lt hle)))
        | some b =>
          obtain ⟨hb,hbx,hmax⟩ := hclosest
          refine ⟨?_,hbx,fun c hc hcx => hmax c (hskip c hc hcx) hcx⟩
          simp only [blocks,List.mem_append] at hb ⊢
          tauto
      · rw [if_neg hpl] at hloop
        have habove : ∀ c ∈ (node p a d l r).blocks, x < c.ptr := by
          intro c hc
          obtain hc | hc := List.mem_append.1 hc
          · exact htl.lt_of_not_pass hpl hc
          · exact htr.lt_of_not_pass hpr hc
        cases o with
        | none =>
          refine ⟨none,?_,hloop⟩
          intro c hc
          obtain hc | hc := List.mem_append.1 hc
          · exact habove c hc
          · cases hc
        | some s =>
          obtain ⟨⟨q,hs⟩,hsw,hsx,hst⟩ := ho s rfl
          have hslev := hsw.level_le
          obtain ⟨b,hb,hmax,hfind⟩ := findLoop_all hs hsw hx hsx (by omega : s.level < fuel) none
          refine ⟨some b,⟨List.mem_append_right _ hb,hsx b hb,?_⟩,hloop.trans hfind⟩
          intro c hc hcx
          obtain hc | hc := List.mem_append.1 hc
          · exact absurd hcx (Nat.not_le.2 (habove c hc))
          · exact hmax c hc

end FramaC.EAcsl.Bittree
