import Fiction.Layouts.DataFlow
import Fiction.Layouts.ReferenceCounts
import Fiction.Library.DagEvaluation

/-!
# Functions of layouts

A simulator takes a layout for a network: the fan-ins of a tile are those that `incomingDataFlow`
finds, and `compute` evaluates the function of its node. The order in which the fan-ins are found is
that of the tiles, not that of the operands.
-/

namespace Fiction.GateLevelLayout

variable (lyt : GateLevelLayout)

/-- The network that a simulator sees. -/
def flowGraph : Graph Tile Bool where
  deps := lyt.incomingDataFlow
  rule t := lyt.compute (lyt.getNode t)

def IsPiTile (t : Tile) : Prop := lyt.isPi (lyt.getNode t) = true

/-- A topological order of the tiles on which the outputs depend. -/
structure FlowView where
  tiles : List Tile
  sorted : lyt.flowGraph.Sorted lyt.IsPiTile tiles
  outputs_mem : ∀ o ∈ lyt.foreachPo, lyt.IsPiTile o ∨ o ∈ tiles

def inputValues (a : ℕ → Bool) (t : Tile) : Bool := a (lyt.foreachPi.idxOf (lyt.getNode t))

/-- The values of all outputs in order. -/
def outputValues (tiles : List Tile) (a : ℕ → Bool) : List Bool :=
  lyt.foreachPo.map (lyt.flowGraph.evaluate tiles (lyt.inputValues a))

variable {lyt} {t : Tile}

theorem FlowView.outputValues_eq (L : lyt.FlowView) {a : ℕ → Bool} {tiles : List Tile}
    {v : Tile → Bool} (hs : lyt.flowGraph.Sorted lyt.IsPiTile tiles)
    (hv : lyt.flowGraph.Solves lyt.IsPiTile tiles (lyt.inputValues a) v)
    (hout : ∀ o ∈ lyt.foreachPo, lyt.IsPiTile o ∨ o ∈ tiles) :
    lyt.outputValues L.tiles a = lyt.foreachPo.map v := by
  apply List.map_congr_left
  intro o ho
  exact Graph.Solves.eq_of_mem L.sorted hs (Graph.evaluate_solves L.sorted _) hv
    (L.outputs_mem o ho) (hout o ho)

theorem nodup_incomingDataFlow (t : Tile) : (lyt.incomingDataFlow t).Nodup := by
  have htrans : ∀ a b c : Tile, Ucoord.lt a b = true → Ucoord.lt b c = true →
      Ucoord.lt a c = true := fun _ _ _ => Ucoord.lt_trans
  have hpairwise : (lyt.incomingDataFlow t).Pairwise fun b c => Ucoord.lt b c = true :=
    OrderedSet.pairwise_ofList htrans _
  apply hpairwise.imp
  rintro a _ hab rfl
  rw [Ucoord.lt_irrefl] at hab
  cases hab

theorem mem_children_of_mem {s : Tile} (hs : s ∈ lyt.incomingDataFlow t) :
    s ∈ (lyt.node (lyt.getNode t)).children := by
  obtain ⟨_, -, hs⟩ := List.mem_flatMap.mp (OrderedSet.mem_of_mem_ofList hs)
  exact List.contains_iff_mem.mp (List.mem_filter.mp hs).2

theorem perm_incomingDataFlow (ht : lyt.clocked.Inside t)
    (hnodup : (lyt.node (lyt.getNode t)).children.Nodup)
    (hc : ∀ c ∈ (lyt.node (lyt.getNode t)).children,
      lyt.clocked.Inside c ∧ lyt.Linked t c ∧ lyt.FeedsInLayer c t t.z) :
    (lyt.incomingDataFlow t).Perm (lyt.node (lyt.getNode t)).children := by
  apply (List.perm_ext_iff_of_nodup (nodup_incomingDataFlow t) hnodup).mpr
  intro c
  constructor
  · exact mem_children_of_mem
  · intro hmem
    obtain ⟨hin, hlinked, hfeeds⟩ := hc c hmem
    exact (mem_incomingDataFlow_iff ht hin).mpr ⟨hlinked, hfeeds⟩

theorem compute_incomingDataFlow (ht : lyt.getTile (lyt.getNode t) = t) (v : Tile → Bool) :
    lyt.compute (lyt.getNode t) ((lyt.incomingDataFlow t).map v) =
      (lyt.node (lyt.getNode t)).function.eval ((lyt.incomingDataFlow t).map v) := by
  rw [compute, faninSize, ht, List.take_of_length_le (List.length_map v).le, TruthTable.eval]

end Fiction.GateLevelLayout
