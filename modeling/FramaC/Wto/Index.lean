import FramaC.Wto.Dataflow

/-! # Indexes of a weak topological order

The index of a vertex lists the heads of the loops around it, the innermost one first.
-/
namespace FramaC.Wto
variable {N : Type} [DecidableEq N] {succs : N → List N} {init : N} {l wto : Partition N}

def buildWtoIndexTable (index : List N) (table : N → Option (List N)) : Partition N → N → Option (List N)
  | [] => table
  | .node v :: l => buildWtoIndexTable index (Function.update table v (some index)) l
  | .component h w :: l =>
    buildWtoIndexTable index (buildWtoIndexTable (h :: index) (Function.update table h (some (h :: index))) w) l

def getWtoIndex (table : N → Option (List N)) (v : N) : List N := (table v).getD []

def isBackEdge (table : N → Option (List N)) (edge : N × N) : Bool := (getWtoIndex table edge.1).any (edge.2 = ·)

theorem buildWtoIndexTable_spec (index : List N) (table : N → Option (List N)) (hl : (flatten l).Nodup) :
    (∀ v ∉ flatten l, buildWtoIndexTable index table l v = table v) ∧
    ∀ v ∈ flatten l, ∃ heads, buildWtoIndexTable index table l v = some (heads ++ index) ∧ ∀ h, h ∈ heads ↔ HeadOf h v l := by
  fun_induction buildWtoIndexTable index table l with
  | case1 => simp
  | case2 index table v l ih =>
    simp only [flatten_node,List.nodup_cons] at hl
    obtain ⟨hout,hin⟩ := ih hl.2
    refine ⟨?_,?_⟩
    · intro x hx
      obtain ⟨hxv,hxl⟩ := not_or.mp (List.mem_cons.not.mp (flatten_node v l ▸ hx))
      rw [hout x hxl,Function.update_of_ne hxv]
    · intro x hx
      have hlater : ∀ h, HeadOf h x (.node v :: l) ↔ HeadOf h x l := by
        refine fun h => ⟨fun hh => ?_,.later _ _⟩
        cases hh with
        | later _ _ hh => exact hh
      simp only [hlater]
      rcases List.mem_cons.mp (flatten_node v l ▸ hx) with rfl | hx
      · refine ⟨[],by rw [hout x hl.1,Function.update_self]; rfl,fun h => ?_⟩
        exact iff_of_false List.not_mem_nil fun hh => hl.1 hh.mem_source
      · exact hin x hx
  | case3 index table v w l ihw ihl =>
    simp only [flatten_component,List.nodup_cons,List.mem_append,not_or,List.nodup_append] at hl
    obtain ⟨⟨hvw,hvl⟩,hnw,hnl,hdis⟩ := hl
    obtain ⟨houtw,hinw⟩ := ihw hnw
    obtain ⟨hout,hin⟩ := ihl hnl
    refine ⟨?_,?_⟩
    · intro x hx
      simp only [flatten_component,List.mem_cons,List.mem_append,not_or] at hx
      rw [hout x hx.2.2,houtw x hx.2.1,Function.update_of_ne hx.1]
    · intro x hx
      by_cases hxl : x ∈ flatten l
      · obtain ⟨heads,he,hh⟩ := hin x hxl
        refine ⟨heads,he,fun h => (hh h).trans ⟨.later _ _,fun hh => ?_⟩⟩
        cases hh with
        | here _ _ hh => exact (hh.elim (fun he => hvl (he ▸ hxl)) fun hm => hdis _ hm _ hxl rfl).elim
        | inside _ _ _ hh => exact absurd rfl (hdis _ hh.mem_source _ hxl)
        | later _ _ hh => exact hh
      · have hnl' : ∀ h, ¬ HeadOf h x l := fun h hh => hxl hh.mem_source
        by_cases hxw : x ∈ flatten w
        · obtain ⟨heads,he,hh⟩ := hinw x hxw
          refine ⟨heads ++ [v],by rw [hout x hxl,he]; simp,fun h => ?_⟩
          rw [List.mem_append,List.mem_singleton,hh]
          constructor
          · rintro (hh | rfl)
            · exact .inside _ _ _ hh
            · exact .here _ _ (.inr hxw)
          · intro hh
            cases hh with
            | here => exact .inr rfl
            | inside _ _ _ hh => exact .inl hh
            | later _ _ hh => exact absurd hh (hnl' h)
        · have hxv : x = v := by
            simp only [flatten_component,List.mem_cons,List.mem_append] at hx
            tauto
          subst hxv
          refine ⟨[x],by rw [hout x hxl,houtw x hxw,Function.update_self]; rfl,fun h => ?_⟩
          rw [List.mem_singleton]
          refine ⟨fun he => he ▸ .here _ _ (.inl rfl),fun hh => ?_⟩
          cases hh with
          | here => rfl
          | inside _ _ _ hh => exact absurd hh.mem_source hxw
          | later _ _ hh => exact absurd hh (hnl' h)

/-- Every edge that is not a back edge leads forward, so that every cycle has a back edge. -/
theorem backEdges_cut_cycles (h : IsWto succs init wto) :
    (∀ u, Reachable succs init u → ∀ v, isBackEdge (buildWtoIndexTable [] (fun _ => none) wto) (u,v) = true ↔ HeadOf v u wto) ∧
    ∀ v, Reachable succs init v → ¬ Relation.TransGen (fun a b => b ∈ succs a ∧
      isBackEdge (buildWtoIndexTable [] (fun _ => none) wto) (a,b) = false) v v := by
  have hback : ∀ u, Reachable succs init u → ∀ v,
      isBackEdge (buildWtoIndexTable [] (fun _ => none) wto) (u,v) = true ↔ HeadOf v u wto := by
    intro u hu v
    obtain ⟨heads,he,hh⟩ := (buildWtoIndexTable_spec [] (fun _ => none) h.nodup).2 u ((h.mem_iff u).mpr hu)
    simp [isBackEdge,getWtoIndex,he,hh]
  refine ⟨hback,fun v hv hcycle => ?_⟩
  have hforward : ∀ {a b}, Reachable succs init a → b ∈ succs a ∧
      isBackEdge (buildWtoIndexTable [] (fun _ => none) wto) (a,b) = false → Before a b (flatten wto) := by
    rintro a b ha ⟨hb,hnot⟩
    refine (h.edge a ha b hb).resolve_right fun hh => ?_
    rw [(hback a ha b).mpr hh] at hnot
    cases hnot
  have hrun : ∀ w, Relation.TransGen (fun a b => b ∈ succs a ∧
      isBackEdge (buildWtoIndexTable [] (fun _ => none) wto) (a,b) = false) v w → Reachable succs init w ∧ Before v w (flatten wto) := by
    intro w hw
    induction hw with
    | single hb => exact ⟨hv.tail hb.1,hforward hv hb⟩
    | tail _ hb ih => exact ⟨ih.1.tail hb.1,ih.2.trans h.nodup (hforward ih.1 hb)⟩
  exact (hrun v hcycle).2.ne h.nodup rfl

theorem backEdges_cut_cycles_flag : isBackEdge (buildWtoIndexTable [] (fun _ => none) [.component 0 []]) (0,0) = true :=
  ((backEdges_cut_cycles flagAnalysis_isWto).1 0 .refl 0).mpr (.here _ _ (.inl rfl))

end FramaC.Wto
