import Fiction.PhysicalDesign.InverseLevels
import Fiction.PhysicalDesign.Placement

/-!
# Edges that leave constants

Constants are not placed, so no constraint asks for the wires of the edges that leave them. A model
remains one without these wires, which satisfies all assumptions about edges that hold for placed
edges.
-/

namespace Fiction

/-- The same values, without wires for the edges that leave constants. -/
def Assignment.withoutConstants (v : Assignment) : Assignment :=
  { v with te := fun t ed => v.te t ed && !TechnologyNetwork.isConstant ed.source }

namespace Exact

variable {S : SpecificationNetwork} {p : ExactParams} {cp : CheckPoint} {v : Assignment}
  {e s : Bool} {t : Tile} {ed : Edge}

theorem te_withoutConstants (h : TechnologyNetwork.isConstant ed.source = false) :
    v.withoutConstants.te t ed = v.te t ed := by
  change (v.te t ed && !TechnologyNetwork.isConstant ed.source) = v.te t ed
  rw [h, Bool.not_false, Bool.and_true]

theorem te_withoutConstants_of_constant (h : TechnologyNetwork.isConstant ed.source = true) :
    v.withoutConstants.te t ed = false := by
  change (v.te t ed && !TechnologyNetwork.isConstant ed.source) = false
  rw [h, Bool.not_true, Bool.and_false]

theorem te_eq_false_of_withoutConstants (h : v.te t ed = false) :
    v.withoutConstants.te t ed = false := by
  change (v.te t ed && !TechnologyNetwork.isConstant ed.source) = false
  rw [h, Bool.false_and]

theorem isConstant_source_of_skip (h : skipConstOrIoEdge S p ed = false) :
    TechnologyNetwork.isConstant ed.source = false := by
  have hs := (skipConstOrIoEdge_eq_false.mp h).1
  rw [skipConstOrIoNode, Bool.or_eq_false_iff] at hs
  exact hs.1

theorem isConstant_source_of_mem (h : ed ∈ placedEdges S p) :
    TechnologyNetwork.isConstant ed.source = false :=
  isConstant_source_of_skip (mem_placedEdges.mp h).2

@[simp] theorem tes_withoutConstants : tes S p v.withoutConstants t = tes S p v t :=
  List.map_congr_left fun _ hed => te_withoutConstants (isConstant_source_of_mem hed)

@[simp] theorem tns_withoutConstants : tns S p v.withoutConstants t = tns S p v t := rfl

@[simp] theorem acc_withoutConstants : acc p cp v.withoutConstants t = acc p cp v t := rfl

@[simp] theorem iacc_withoutConstants : iacc p cp v.withoutConstants t = iacc p cp v t := rfl

theorem continues_withoutConstants {u : Tile}
    (h : TechnologyNetwork.isConstant ed.source = false) :
    continues p cp v.withoutConstants ed t u ↔ continues p cp v ed t u := by
  unfold continues
  rw [te_withoutConstants h]
  rfl

theorem arrives_withoutConstants {u : Tile} (h : TechnologyNetwork.isConstant ed.source = false) :
    arrives p cp v.withoutConstants ed t u ↔ arrives p cp v ed t u := by
  unfold arrives
  rw [te_withoutConstants h]
  rfl

theorem pathLength_withoutConstants {n longest : ℕ} {path : List Edge}
    (h : path ∈ S.allIncomingEdgePaths n) :
    pathLength S p cp v.withoutConstants longest path = pathLength S p cp v longest path := by
  have hlen : path.map (edgeLength S p cp v.withoutConstants) = path.map (edgeLength S p cp v) :=
    List.map_congr_left fun ed hed => by
      have hc := SpecificationNetwork.isConstant_source_of_mem_paths h hed
      unfold edgeLength tileIteCounters
      simp only [te_withoutConstants hc]
      rfl
  rw [pathLength, pathLength, hlen]

theorem defineLength_withoutConstants {n : ℕ} (h : defineLength S p cp v e s n) :
    defineLength S p cp v.withoutConstants e s n := fun hes => by
  rw [List.map_congr_left fun path hp => pathLength_withoutConstants hp]
  exact h hes

theorem globalSynchronization_withoutConstants (h : globalSynchronization S p cp v e s) :
    globalSynchronization S p cp v.withoutConstants e s := by
  unfold globalSynchronization at h ⊢
  split_ifs at h ⊢
  · exact h
  · exact h
  · exact fun po hpo => defineLength_withoutConstants (h po hpo)
  · exact fun po hpo fi hfi => defineLength_withoutConstants (h po hpo fi hfi)

theorem prohibit_withoutConstants {n : ℕ} {es : List Edge} (h : prohibit v t n es) :
    prohibit v.withoutConstants t n es :=
  ⟨h.1, fun ed hed => te_eq_false_of_withoutConstants (h.2 ed hed)⟩

theorem keepDistance_withoutConstants {along across : ℕ} {tile : ℕ → ℕ → Tile} {sink : Sink}
    (h : keepDistance S p cp v along across tile sink) :
    keepDistance S p cp v.withoutConstants along across tile sink := fun hio hb n hn => by
  have h := h hio hb n hn
  cases sink with
  | solver => exact fun i hi j hj ht => prohibit_withoutConstants (h i hi j hj ht)
  | assumptions => exact fun i hi hfar j hj => prohibit_withoutConstants (h i hi hfar j hj)

theorem technologySpecificConstraints_withoutConstants {sink : Sink}
    (h : technologySpecificConstraints S p cp v sink) :
    technologySpecificConstraints S p cp v.withoutConstants sink := by
  cases sink with
  | solver =>
    unfold technologySpecificConstraints restrictFanout restrictGate at h ⊢
    simp only [tes_withoutConstants]
    exact h
  | assumptions => exact h

/-- What the generators add holds without the wires of constants. -/
theorem Generated.withoutConstants (h : Generated S p cp v e s) :
    Generated S p cp v.withoutConstants e s where
  restrictTileElements := by
    have h := h.restrictTileElements
    unfold Exact.restrictTileElements at h ⊢
    simp only [tes_withoutConstants]
    exact h
  restrictVertices := h.restrictVertices
  defineGateFanoutTiles t ht n hn he hs hv ae hae hskip hne := by
    obtain ⟨u, hu, hc⟩ := h.defineGateFanoutTiles t ht n hn he hs hv ae hae hskip hne
    exact ⟨u, hu, (continues_withoutConstants (isConstant_source_of_skip hskip)).mpr hc⟩
  defineGateFaninTiles t ht n hn he hs hv ae hae hskip hne := by
    obtain ⟨u, hu, hc⟩ := h.defineGateFaninTiles t ht n hn he hs hv ae hae hskip hne
    exact ⟨u, hu, (arrives_withoutConstants (isConstant_source_of_skip hskip)).mpr hc⟩
  defineWireFanoutTiles t ht ed hed he hs hv hne := by
    have hc := isConstant_source_of_mem hed
    rw [te_withoutConstants hc] at hv
    obtain ⟨u, hu, hcont⟩ := h.defineWireFanoutTiles t ht ed hed he hs hv hne
    exact ⟨u, hu, (continues_withoutConstants hc).mpr hcont⟩
  defineWireFaninTiles t ht ed hed he hs hv hne := by
    have hc := isConstant_source_of_mem hed
    rw [te_withoutConstants hc] at hv
    obtain ⟨u, hu, harr⟩ := h.defineWireFaninTiles t ht ed hed he hs hv hne
    exact ⟨u, hu, (arrives_withoutConstants hc).mpr harr⟩
  assignPiClockings := h.assignPiClockings
  globalSynchronization hd := globalSynchronization_withoutConstants (h.globalSynchronization hd)
  restrictClocks := h.restrictClocks
  establishSubPaths := h.establishSubPaths
  establishTransitivePaths := h.establishTransitivePaths
  eliminateCycles := h.eliminateCycles
  enforceBorderIo := h.enforceBorderIo
  enforceStraightInverters := h.enforceStraightInverters
  restrictSynchronizationElements hse hd := by
    have h := h.restrictSynchronizationElements hse hd
    unfold Exact.restrictSynchronizationElements at h ⊢
    simp only [tes_withoutConstants]
    exact h
  technologySpecificConstraints :=
    technologySpecificConstraints_withoutConstants h.technologySpecificConstraints
  preventInsufficiencies t ht hb hsink := by
    obtain ⟨hnode, hedge⟩ := h.preventInsufficiencies t ht hb hsink
    exact ⟨hnode, fun hr ed hed hz => te_eq_false_of_withoutConstants (hedge hr ed hed hz)⟩
  defineNumberOfConnections := by
    have h := h.defineNumberOfConnections
    unfold Exact.defineNumberOfConnections nodeConnections edgeConnections emptyConnections
      crossingConnections matchEdges at h ⊢
    simp only [tes_withoutConstants, tns_withoutConstants, acc_withoutConstants,
      iacc_withoutConstants]
    exact h
  utilizeHierarchicalInformation :=
    ⟨fun hc => keepDistance_withoutConstants (h.utilizeHierarchicalInformation.1 hc),
      fun hc => keepDistance_withoutConstants (h.utilizeHierarchicalInformation.2.1 hc),
      fun hc hio hb n hn t ht hlt =>
        prohibit_withoutConstants (h.utilizeHierarchicalInformation.2.2 hc hio hb n hn t ht hlt)⟩

end Exact
end Fiction
