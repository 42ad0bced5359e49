import Fiction.Technology.QcaOneLibrary

/-!
# The borders of QCA ONE gates

Neighbouring tiles touch in the middle cells of their common side. `Fills` tells from the data flow
which of these four cells the gate of a tile has. A gate that has such a cell continues it towards
the centre of the tile and not along the border.
-/

namespace Fiction

namespace QcaOneLibrary

/-- The gate has a cell at the position `p`. -/
def filled (g : Gate) (p : PortPosition) : Bool := g.cell p.x p.y ≠ .empty

def inner : Side → PortPosition
  | .north => ⟨2, 1⟩
  | .east => ⟨3, 2⟩
  | .south => ⟨2, 3⟩
  | .west => ⟨1, 2⟩

def flanks : Side → List PortPosition
  | .north => [⟨1, 0⟩, ⟨3, 0⟩]
  | .east => [⟨4, 1⟩, ⟨4, 3⟩]
  | .south => [⟨1, 4⟩, ⟨3, 4⟩]
  | .west => [⟨0, 1⟩, ⟨0, 3⟩]

/-- A gate fits into a tile and only touches the borders at right angles in their middles. -/
structure Pinned (g : Gate) : Prop where
  rows : g.length ≤ gateSizeY
  columns : ∀ row ∈ g, row.length ≤ gateSizeX
  inner : ∀ d, filled g (port d) = true → filled g (inner d) = true
  flanks : ∀ d, filled g (port d) = true → ∀ p ∈ flanks d, filled g p = false

instance (g : Gate) : Decidable (Pinned g) :=
  decidable_of_iff
    (g.length ≤ gateSizeY ∧ (∀ row ∈ g, row.length ≤ gateSizeX) ∧
      (∀ d, filled g (port d) = true → filled g (inner d) = true) ∧
      ∀ d, filled g (port d) = true → ∀ p ∈ flanks d, filled g p = false)
    ⟨fun h => ⟨h.1, h.2.1, h.2.2.1, h.2.2.2⟩, fun h => ⟨h.rows, h.columns, h.inner, h.flanks⟩⟩

def hasPort (p : PortList) (d : Side) : Bool := port d ∈ p.inp ∪ p.out

def Central (p : PortList) : Prop := ∀ pos ∈ p.inp ∪ p.out, ∃ d, port d = pos

instance (p : PortList) : Decidable (Central p) :=
  inferInstanceAs (Decidable (∀ pos ∈ p.inp ∪ p.out, ∃ d, port d = pos))

/-- The entries of a table for central ports touch the sides that `fills` names. -/
def Touches (map : PortGateMap) (fills : PortList → Side → Bool) : Prop :=
  ∀ entry ∈ map, Central entry.1 →
    Pinned entry.2 ∧ ∀ d, filled entry.2 (port d) = fills entry.1 d

instance (map : PortGateMap) (fills : PortList → Side → Bool) : Decidable (Touches map fills) :=
  inferInstanceAs (Decidable (∀ entry ∈ map, Central entry.1 →
    Pinned entry.2 ∧ ∀ d, filled entry.2 (port d) = fills entry.1 d))

theorem wireMap_touches : Touches wireMap hasPort := by
  decide +kernel

theorem fanoutMap_touches : Touches fanoutMap hasPort := by
  decide +kernel

theorem inverterMap_touches : Touches inverterMap fun p d =>
    hasPort p d || (hasPort p d.opposite && !hasPort p d.clockwise &&
      !hasPort p d.clockwise.opposite) := by
  decide +kernel

theorem conjunctionMap_touches : Touches conjunctionMap fun _ _ => true := by
  decide +kernel

theorem disjunctionMap_touches : Touches disjunctionMap fun _ _ => true := by
  decide +kernel

theorem fanOut13_touches : Pinned fanOut13 ∧ ∀ d, filled fanOut13 (port d) = true := by
  decide +kernel

theorem majority_touches : Pinned majority ∧ ∀ d, filled majority (port d) = true := by
  decide +kernel

/-- The gate of the node on `t` has a cell in the middle of side `d`. Wires and inverters reach the
sides where their tile has signals, a straight inverter with a single signal also the side opposite
to it; all other gates reach all sides. -/
def fills (lyt : GateLevelLayout) (t : Tile) (d : Side) : Bool :=
  let n := lyt.getNode t
  if lyt.isWire n then lyt.fanoutSize n = 3 || lyt.hasSignal t d
  else if lyt.isInv n then
    lyt.hasSignal t d || (lyt.hasSignal t d.opposite && !lyt.hasSignal t d.clockwise &&
      !lyt.hasSignal t d.clockwise.opposite)
  else true

section Routing

variable {lyt : GateLevelLayout} {t : Tile}

theorem mem_emplaceIf {b : Bool} {pos q : PortPosition} {ports : Finset PortPosition} :
    q ∈ emplaceIf b pos ports ↔ b = true ∧ q = pos ∨ q ∈ ports := by
  unfold emplaceIf
  split_ifs with h
  · simp [h]
  · simp [h]

theorem central_determinePortRouting : Central (determinePortRouting lyt t) := by
  intro pos hpos
  have hmid : pos = port .north ∨ pos = port .east ∨ pos = port .south ∨ pos = port .west := by
    unfold determinePortRouting at hpos
    simp only at hpos
    split_ifs at hpos <;>
      simp only [Finset.mem_union, mem_emplaceIf, Finset.notMem_empty] at hpos <;>
      simp only [port] <;> tauto
  rcases hmid with rfl | rfl | rfl | rfl
  all_goals exact ⟨_, rfl⟩

theorem hasPort_determinePortRouting
    (hn : lyt.isWire (lyt.getNode t) = true ∨ lyt.isInv (lyt.getNode t) = true) (d : Side) :
    hasPort (determinePortRouting lyt t) d = lyt.hasSignal t d := by
  have hcon : (!lyt.isWire (lyt.getNode t) && !lyt.isInv (lyt.getNode t)) = false := by
    rcases hn with h | h <;> simp [h]
  rw [Bool.eq_iff_iff]
  simp only [hasPort, determinePortRouting, hcon, Bool.false_eq_true, if_false, decide_eq_true_eq,
    Finset.mem_union, mem_emplaceIf, Finset.notMem_empty, or_false, GateLevelLayout.hasSignal,
    Bool.or_eq_true]
  cases d <;>
    simp [port, GateLevelLayout.hasNorthernIncomingSignal, GateLevelLayout.hasEasternIncomingSignal,
      GateLevelLayout.hasSouthernIncomingSignal, GateLevelLayout.hasWesternIncomingSignal,
      GateLevelLayout.hasNorthernOutgoingSignal, GateLevelLayout.hasEasternOutgoingSignal,
      GateLevelLayout.hasSouthernOutgoingSignal, GateLevelLayout.hasWesternOutgoingSignal]

theorem PortGateMap.lookup_touches {map : PortGateMap} {fills : PortList → Side → Bool}
    (hm : Touches map fills) {p : PortList} (hp : Central p) {g : Gate}
    (h : map.lookup t p = .ok g) : Pinned g ∧ ∀ d, filled g (port d) = fills p d := by
  unfold lookup at h
  split at h
  · rename_i entry hfind
    have hkey : entry.1 = p := by simpa using List.find?_some hfind
    cases h
    rw [← hkey]
    exact hm entry (List.mem_of_find?_eq_some hfind) (hkey ▸ hp)
  · contradiction

theorem setUpGate_touches {g : Gate} (h : setUpGate lyt t = .ok g) :
    Pinned g ∧ ∀ d, filled g (port d) = fills lyt t d := by
  have hcentral : Central (determinePortRouting lyt t) := central_determinePortRouting
  have hfan : ∀ m, (lyt.isFanout (lyt.getNode t) && decide (lyt.fanoutSize (lyt.getNode t) = m)) =
      true → lyt.isWire (lyt.getNode t) = true ∧ lyt.fanoutSize (lyt.getNode t) = m := by
    intro m hm
    simp only [GateLevelLayout.isFanout, Bool.and_eq_true, decide_eq_true_eq] at hm
    exact ⟨hm.1.1, hm.2⟩
  unfold setUpGate at h
  simp only at h
  split_ifs at h with h2 h3 hwire hinv hand hor hmaj
  · obtain ⟨hw, hsize⟩ := hfan 2 h2
    obtain ⟨hpin, hfill⟩ := PortGateMap.lookup_touches fanoutMap_touches hcentral h
    refine ⟨hpin, fun d => ?_⟩
    rw [hfill, hasPort_determinePortRouting (.inl hw)]
    simp [fills, hw, hsize]
  · obtain ⟨hw, hsize⟩ := hfan 3 h3
    cases h
    refine ⟨fanOut13_touches.1, fun d => ?_⟩
    rw [fanOut13_touches.2]
    simp [fills, hw, hsize]
  · obtain ⟨hpin, hfill⟩ := PortGateMap.lookup_touches wireMap_touches hcentral h
    refine ⟨hpin, fun d => ?_⟩
    have hsize : lyt.fanoutSize (lyt.getNode t) ≠ 3 := by
      intro hs
      simp [GateLevelLayout.isFanout, hwire, hs] at h3
    rw [hfill, hasPort_determinePortRouting (.inl hwire)]
    simp [fills, hwire, hsize]
  · obtain ⟨hpin, hfill⟩ := PortGateMap.lookup_touches inverterMap_touches hcentral h
    refine ⟨hpin, fun d => ?_⟩
    rw [hfill]
    simp only [hasPort_determinePortRouting (.inr hinv)]
    simp [fills, hwire, hinv]
  · obtain ⟨hpin, hfill⟩ := PortGateMap.lookup_touches conjunctionMap_touches hcentral h
    refine ⟨hpin, fun d => ?_⟩
    rw [hfill]
    simp [fills, hwire, hinv]
  · obtain ⟨hpin, hfill⟩ := PortGateMap.lookup_touches disjunctionMap_touches hcentral h
    refine ⟨hpin, fun d => ?_⟩
    rw [hfill]
    simp [fills, hwire, hinv]
  · cases h
    refine ⟨majority_touches.1, fun d => ?_⟩
    rw [majority_touches.2]
    simp [fills, hwire, hinv]

end Routing

end QcaOneLibrary
end Fiction
