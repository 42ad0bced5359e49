import Fiction.Library.Counting
import Fiction.PhysicalDesign.Growth

/-!
# Placement in a model

In a model from scratch every placed node has exactly one tile and no tile hosts two elements,
except for two edges that cross. So there are at least as many tiles as placed nodes, and as the
lower bound counts if primary inputs and outputs get tiles.
-/

namespace Fiction.Exact

variable {S : SpecificationNetwork} {p : ExactParams} {ar : AspectRatio} {v : Assignment}
  {t : Tile} {n : ℕ}

theorem mem_placedNodes :
    n ∈ placedNodes S p ↔ n ∈ S.foreachNode ∧ skipConstOrIoNode S p n = false := by
  rw [placedNodes, List.mem_filter, Bool.not_eq_true']

theorem placedNodes_nodup : (placedNodes S p).Nodup := S.nodup_foreachNode.filter _

theorem mem_placedEdges {ed : Edge} :
    ed ∈ placedEdges S p ↔ ed ∈ S.foreachEdge ∧ skipConstOrIoEdge S p ed = false := by
  rw [placedEdges, List.mem_filter, Bool.not_eq_true']

theorem skipConstOrIoEdge_eq_false {ed : Edge} : skipConstOrIoEdge S p ed = false ↔
    skipConstOrIoNode S p ed.source = false ∧ skipConstOrIoNode S p ed.target = false := by
  rw [skipConstOrIoEdge, Bool.or_eq_false_iff]

theorem mem_placedNodes_of_mem_placedEdges {ed : Edge} (h : ed ∈ placedEdges S p) :
    ed.source ∈ placedNodes S p ∧ ed.target ∈ placedNodes S p := by
  obtain ⟨hed, hskip⟩ := mem_placedEdges.mp h
  obtain ⟨htgt, hsrc⟩ := SpecificationNetwork.mem_foreachEdge.mp hed
  obtain ⟨hs, ht⟩ := skipConstOrIoEdge_eq_false.mp hskip
  exact ⟨mem_placedNodes.mpr ⟨S.mem_foreachNode_of_mem_foreachFanin htgt hsrc, hs⟩,
    mem_placedNodes.mpr ⟨htgt, ht⟩⟩

namespace CoreModel

section

variable (h : CoreModel S p ar v)
include h

theorem exists_tile (hn : n ∈ placedNodes S p) : ∃ t ∈ allTiles ar, v.tn t n = true :=
  Counting.exists_of_count_pos ((h.generated.restrictVertices n hn).1 ⟨rfl, rfl⟩)

theorem tile_unique (hn : n ∈ placedNodes S p) {t t' : Tile} (ht : t ∈ allTiles ar)
    (ht' : t' ∈ allTiles ar) (hv : v.tn t n = true) (hv' : v.tn t' n = true) : t = t' :=
  Counting.eq_of_count_le_one (h.generated.restrictVertices n hn).2 ht ht' hv hv'

theorem count_tns_le (ht : t ∈ allTiles ar) : (tns S p v t).count true ≤ 1 := by
  have hr := h.generated.restrictTileElements t ht
  split_ifs at hr
  · exact hr.1
  · unfold atmost at hr
    rw [List.count_append] at hr
    omega

/-- A tile with a node hosts no edge. -/
theorem count_tes_eq_zero (ht : t ∈ allTiles ar) (hn : n ∈ placedNodes S p)
    (hv : v.tn t n = true) : (tes S p v t).count true = 0 := by
  have hpos : 1 ≤ (tns S p v t).count true :=
    List.count_pos_iff.mpr (List.mem_map.mpr ⟨n, hn, hv⟩)
  have hr := h.generated.restrictTileElements t ht
  split_ifs at hr
  · exact Nat.le_zero.mp (hr.2.2.1 hpos)
  · unfold atmost at hr
    rw [List.count_append] at hr
    omega

theorem count_tes_le (ht : t ∈ allTiles ar) :
    (tes S p v t).count true ≤ if p.crossings then 2 else 1 := by
  have hr := h.generated.restrictTileElements t ht
  split_ifs at hr ⊢
  · exact hr.2.1
  · unfold atmost at hr
    rw [List.count_append] at hr
    omega

theorem node_unique (ht : t ∈ allTiles ar) {n n' : ℕ} (hn : n ∈ placedNodes S p)
    (hn' : n' ∈ placedNodes S p) (hv : v.tn t n = true) (hv' : v.tn t n' = true) : n = n' :=
  Counting.eq_of_count_le_one (h.count_tns_le ht) hn hn' hv hv'

/-- Distinct placed nodes that lie on certain tiles are no more than these tiles. -/
theorem length_le_of_tiles {places : List Tile} {nodes : List ℕ} (hd : nodes.Nodup)
    (hp : ∀ t ∈ places, t ∈ allTiles ar) (hn : ∀ n ∈ nodes, n ∈ placedNodes S p)
    (ht : ∀ n ∈ nodes, ∃ t ∈ places, v.tn t n = true) : nodes.length ≤ places.length :=
  Counting.length_le_of_places hd ht fun t hmem n hn₁ n' hn₂ =>
    h.node_unique (hp t hmem) (hn n hn₁) (hn n' hn₂)

theorem length_placedNodes_le : (placedNodes S p).length ≤ ar.area := by
  have hlen : (allTiles ar).length = ar.area := by
    rw [show allTiles ar = CoordinateLayout.foreachGroundTile
      ⟨.at3 ar.x ar.y 0, .cartesian⟩ from rfl, CoordinateLayout.length_foreachGroundTile]
    rfl
  rw [← hlen]
  exact h.length_le_of_tiles placedNodes_nodup (fun _ => id) (fun _ => id)
    fun n hn => h.exists_tile hn

end

end CoreModel

theorem skipConstOrIoNode_eq_false (hio : p.ioPins = true) (hn : 2 ≤ n) :
    skipConstOrIoNode S p n = false := by
  have hc : TechnologyNetwork.isConstant n = false := decide_eq_false (by omega)
  rw [skipConstOrIoNode, hc, hio]
  simp

/-- If primary inputs and outputs get tiles, the lower bound only counts placed nodes. -/
theorem lowerBound_le_length_placedNodes (hio : p.ioPins = true) :
    lowerBound S ≤ (placedNodes S p).length := by
  have hplaced : S.ntk.inputs ++ S.topo.gates ⊆ placedNodes S p := fun n hn => by
    refine mem_placedNodes.mpr ⟨SpecificationNetwork.mem_foreachNode.mpr ?_, ?_⟩
    · rcases List.mem_append.mp hn with hn | hn
      · exact .inl (.inr hn)
      · exact .inr hn
    · refine skipConstOrIoNode_eq_false hio ?_
      rcases List.mem_append.mp hn with hn | hn
      · exact (S.wellFormed.input n hn).1
      · have hs := S.topo.sorted.not_known n hn
        simp only [TechnologyNetwork.IsSource, not_or] at hs
        omega
  have hnodup : (S.ntk.inputs ++ S.topo.gates).Nodup := by
    have hn := S.nodup_foreachNode
    rw [SpecificationNetwork.foreachNode, List.append_assoc] at hn
    exact hn.of_append_right
  have hlen := (List.subperm_of_subset hnodup hplaced).length_le
  have hpis : S.numPis ≤ S.ntk.inputs.length := S.wellFormed.numPis_le
  rw [List.length_append] at hlen
  calc lowerBound S ≤ S.numGates + S.numPis := Nat.mod_le _ _
    _ ≤ S.ntk.inputs.length + S.topo.gates.length := by
        have hg : S.numGates = S.topo.gates.length := rfl
        omega
    _ ≤ (placedNodes S p).length := hlen

end Fiction.Exact
