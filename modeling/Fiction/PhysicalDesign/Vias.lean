import Fiction.PhysicalDesign.GateCells

/-!
# Vias

The optimization turns each cell of the crossing layer with at most one neighbour into a via. It
only changes cells of the ground layer and modes, so that the vias can be read off the layout before.
At the border of a tile they are the cells that no gate faces on the other side.
-/

namespace Fiction

namespace CellLevelLayout

variable (lyt : CellLevelLayout) (c : Cell)

/-- A filled cell of the crossing layer that has at most one filled neighbour. -/
def isVia : Bool :=
  isCrossingLayer c && !lyt.isEmptyCell c &&
    ((lyt.adjacentCoordinates c).filter (!lyt.isEmptyCell ·)).length ≤ 1

/-- The position of the ground layer below a cell. -/
def groundBelow : Cell := ⟨c.x, c.y, 0⟩

/-- The neighbour of a cell at side `d`, which is the cell itself at the border. -/
def cellNeighbour : Side → Cell
  | .north => if c.y = 0 then c else { c with y := c.y - 1 }
  | .east => if c.x < lyt.aspectRatio.x then { c with x := c.x + 1 } else c
  | .south => if c.y < lyt.aspectRatio.y then { c with y := c.y + 1 } else c
  | .west => if c.x = 0 then c else { c with x := c.x - 1 }

/-- The layouts have the same dimensions and the same filled cells in the crossing layer. -/
structure SameCrossings (lyt lyt' : CellLevelLayout) : Prop where
  aspectRatio : lyt'.aspectRatio = lyt.aspectRatio
  isEmptyCell : ∀ c, isCrossingLayer c = true → lyt'.isEmptyCell c = lyt.isEmptyCell c

variable {lyt lyt' : CellLevelLayout} {c}

theorem SameCrossings.refl : SameCrossings lyt lyt := ⟨rfl, fun _ _ => rfl⟩

theorem SameCrossings.trans {lyt'' : CellLevelLayout} (h : SameCrossings lyt lyt')
    (h' : SameCrossings lyt' lyt'') : SameCrossings lyt lyt'' where
  aspectRatio := h'.aspectRatio.trans h.aspectRatio
  isEmptyCell c hc := (h'.isEmptyCell c hc).trans (h.isEmptyCell c hc)

theorem cellNeighbour_z (d : Side) : (lyt.cellNeighbour c d).z = c.z := by
  cases d <;> unfold cellNeighbour <;> split_ifs <;> rfl

theorem adjacentCoordinates_eq : lyt.adjacentCoordinates c =
    ([Side.north, .east, .south, .west].map (lyt.cellNeighbour c)).filter (· ≠ c) := rfl

theorem SameCrossings.isVia (h : SameCrossings lyt lyt') : lyt'.isVia c = lyt.isVia c := by
  by_cases hc : isCrossingLayer c = true
  · have hadj : lyt'.adjacentCoordinates c = lyt.adjacentCoordinates c := by
      simp only [CellLevelLayout.adjacentCoordinates, h.aspectRatio]
    have hfilter : ((lyt.adjacentCoordinates c).filter (!lyt'.isEmptyCell ·)) =
        (lyt.adjacentCoordinates c).filter (!lyt.isEmptyCell ·) := by
      apply List.filter_congr
      intro k hk
      rw [adjacentCoordinates_eq] at hk
      obtain ⟨d, -, rfl⟩ := List.mem_map.mp (List.mem_filter.mp hk).1
      rw [h.isEmptyCell]
      simpa only [isCrossingLayer, cellNeighbour_z] using hc
    simp only [CellLevelLayout.isVia, hadj, hfilter, h.isEmptyCell c hc]
  · simp [CellLevelLayout.isVia, hc]

theorem mem_foreachCellPosition : c ∈ lyt.foreachCellPosition ↔
    c.x ≤ lyt.aspectRatio.x ∧ c.y ≤ lyt.aspectRatio.y ∧ 0 ≤ c.z ∧
      c.z.toNat ≤ lyt.aspectRatio.z.toNat := by
  obtain ⟨x, y, z⟩ := c
  simp only [foreachCellPosition, List.mem_flatMap, List.mem_map, List.mem_range, Cell.mk.injEq]
  constructor
  · rintro ⟨z', hz, y', hy, x', hx, rfl, rfl, rfl⟩
    exact ⟨by omega, by omega, by omega, by omega⟩
  · rintro ⟨hx, hy, hz, hz'⟩
    exact ⟨z.toNat, by omega, y, by omega, x, by omega, rfl, rfl, by omega⟩

end CellLevelLayout

namespace QcaOneLibrary

open CellLevelLayout

variable {lyt pre : CellLevelLayout} {c v : Cell}

theorem assignVia_eq : assignVia lyt v =
    if lyt.isVia v = true then
      ((lyt.assignCellMode v .vertical).assignCellType (groundBelow v) .normal).assignCellMode
        (groundBelow v) .vertical
    else lyt := by
  unfold assignVia isVia
  by_cases h : (isCrossingLayer v && !lyt.isEmptyCell v) = true
  · simp only [h, if_true, Bool.true_and, decide_eq_true_eq]
    rfl
  · simp only [h, Bool.false_eq_true, if_false, Bool.false_and]

theorem assignVia_sameCrossings : SameCrossings lyt (assignVia lyt v) := by
  rw [assignVia_eq]
  split_ifs with h
  · refine ⟨rfl, fun k hk => ?_⟩
    have hne : k ≠ groundBelow v := by
      rintro rfl
      simp [isCrossingLayer, groundBelow] at hk
    simp [isEmptyCell_eq, hne]
  · exact SameCrossings.refl

theorem isEmptyCell_assignVia : (assignVia lyt v).isEmptyCell c = false ↔
    lyt.isEmptyCell c = false ∨ lyt.isVia v = true ∧ c = groundBelow v := by
  rw [assignVia_eq]
  split_ifs with h
  · by_cases hc : c = groundBelow v
    · simp [isEmptyCell_eq, hc, h]
    · simp [isEmptyCell_eq, hc]
  · simp [h]

theorem cellMode_assignVia : (assignVia lyt v).getCellMode c = .vertical ↔
    lyt.getCellMode c = .vertical ∨ lyt.isVia v = true ∧ (c = v ∨ c = groundBelow v) := by
  rw [assignVia_eq]
  split_ifs with h
  · by_cases hc : c = groundBelow v
    · simp [hc, h]
    · by_cases hv : c = v
      · subst hv
        simp [hc, h]
      · simp [hc, hv]
  · simp [h]

/-- The optimization fills the cells below the vias. -/
theorem isEmptyCell_postLayoutOptimization :
    (postLayoutOptimization pre).isEmptyCell c = false ↔ pre.isEmptyCell c = false ∨
      ∃ v ∈ pre.foreachCellPosition, pre.isVia v = true ∧ c = groundBelow v := by
  apply RegionWrites.marked_foldl_iff_of_invariant
    (fun (l : CellLevelLayout) c => l.isEmptyCell c = false)
    (fun v c => pre.isVia v = true ∧ c = groundBelow v) (SameCrossings pre)
  · exact fun l v h => h.trans assignVia_sameCrossings
  · intro l v k h
    rw [isEmptyCell_assignVia, h.isVia]
  · exact SameCrossings.refl

/-- The optimization changes the modes of the vias and of the cells below them. -/
theorem cellMode_postLayoutOptimization :
    (postLayoutOptimization pre).getCellMode c = .vertical ↔ pre.getCellMode c = .vertical ∨
      ∃ v ∈ pre.foreachCellPosition, pre.isVia v = true ∧ (c = v ∨ c = groundBelow v) := by
  apply RegionWrites.marked_foldl_iff_of_invariant
    (fun (l : CellLevelLayout) c => l.getCellMode c = .vertical)
    (fun v c => pre.isVia v = true ∧ (c = v ∨ c = groundBelow v)) (SameCrossings pre)
  · exact fun l v h => h.trans assignVia_sameCrossings
  · intro l v k h
    rw [cellMode_assignVia, h.isVia]
  · exact SameCrossings.refl

end QcaOneLibrary

namespace ApplyGateLibrary

open QcaOneLibrary CellLevelLayout

variable {gateLyt : GateLevelLayout} {t : Tile} {d : Side}

section Frames

variable {cellLyt : CellLevelLayout} {n : ℕ}

theorem aspectRatio_assignCell (c : Cell) (g : Gate) (name : List Char) (offset : ℕ × ℕ) :
    (assignCell c g name cellLyt offset).aspectRatio = cellLyt.aspectRatio := by
  dsimp only [assignCell]
  split_ifs <;> rfl

theorem aspectRatio_assignGate (c : Cell) (g : Gate) (name : List Char) :
    (assignGate cellLyt c g name).aspectRatio = cellLyt.aspectRatio := by
  unfold assignGate
  induction gatePositions g generalizing cellLyt with
  | nil => rfl
  | cons offset l ih => rw [List.foldl_cons, ih, aspectRatio_assignCell]

theorem gatesAssigned_frame : (gatesAssigned gateLyt).aspectRatio =
    (initialLayout gateLyt).aspectRatio ∧ ∀ c, (gatesAssigned gateLyt).getCellMode c = .normal := by
  have hfold : ∀ (ns : List ℕ) (l : CellLevelLayout),
      (ns.foldl (assignOf gateLyt) l).aspectRatio = l.aspectRatio ∧
        (ns.foldl (assignOf gateLyt) l).getCellMode = l.getCellMode := by
    intro ns
    induction ns with
    | nil => exact fun l => ⟨rfl, rfl⟩
    | cons n ns ih =>
      intro l
      obtain ⟨hr, hm⟩ := ih (assignOf gateLyt l n)
      exact ⟨hr.trans (aspectRatio_assignGate _ _ _), hm.trans cellMode_assignGate⟩
  obtain ⟨hr, hm⟩ := hfold gateLyt.checkedNodes (initialLayout gateLyt)
  exact ⟨hr, fun c => congrFun hm c⟩

end Frames

section Borders

/-- The middle cell of a side of a tile. -/
def borderCell (t : Tile) (d : Side) : Cell := cellAt t (port d)

theorem aspectRatio_gatesAssigned : (gatesAssigned gateLyt).aspectRatio =
    ⟨(gateLyt.clocked.x + 1) * gateSizeX - 1, (gateLyt.clocked.y + 1) * gateSizeY - 1,
      gateLyt.clocked.z⟩ := gatesAssigned_frame.1

/-- Side `d` of the position `p` is the position `q`. -/
def Step (p : PortPosition) (d : Side) (q : PortPosition) : Prop :=
  match d with
  | .north => q.x = p.x ∧ q.y + 1 = p.y
  | .east => q.x = p.x + 1 ∧ q.y = p.y
  | .south => q.x = p.x ∧ q.y = p.y + 1
  | .west => q.x + 1 = p.x ∧ q.y = p.y

instance (p : PortPosition) (d : Side) (q : PortPosition) : Decidable (Step p d q) := by
  cases d <;> unfold Step <;> infer_instance

variable (ht : gateLyt.clocked.Inside t)
include ht

theorem cellNeighbour_cellAt {p q : PortPosition} (hx : q.x < gateSizeX) (hy : q.y < gateSizeY)
    (h : Step p d q) : (gatesAssigned gateLyt).cellNeighbour (cellAt t p) d = cellAt t q := by
  have hcol := ht.x_le
  have hrow := ht.y_le
  simp only [gateSizeX, gateSizeY] at hx hy
  cases d with
  | north =>
    obtain ⟨h₁, h₂⟩ := h
    have hin : ¬ (cellAt t p).y = 0 := by
      simp only [cellAt, gateSizeX, gateSizeY]
      omega
    rw [cellNeighbour, if_neg hin, cellAt, cellAt, Cell.mk.injEq]
    exact ⟨by simp only; omega, by simp only; omega, rfl⟩
  | east =>
    obtain ⟨h₁, h₂⟩ := h
    have hin : (cellAt t p).x < (gatesAssigned gateLyt).aspectRatio.x := by
      simp only [cellAt, aspectRatio_gatesAssigned, gateSizeX, gateSizeY]
      omega
    rw [cellNeighbour, if_pos hin, cellAt, cellAt, Cell.mk.injEq]
    exact ⟨by simp only; omega, by simp only; omega, rfl⟩
  | south =>
    obtain ⟨h₁, h₂⟩ := h
    have hin : (cellAt t p).y < (gatesAssigned gateLyt).aspectRatio.y := by
      simp only [cellAt, aspectRatio_gatesAssigned, gateSizeX, gateSizeY]
      omega
    rw [cellNeighbour, if_pos hin, cellAt, cellAt, Cell.mk.injEq]
    exact ⟨by simp only; omega, by simp only; omega, rfl⟩
  | west =>
    obtain ⟨h₁, h₂⟩ := h
    have hin : ¬ (cellAt t p).x = 0 := by
      simp only [cellAt, gateSizeX, gateSizeY]
      omega
    rw [cellNeighbour, if_neg hin, cellAt, cellAt, Cell.mk.injEq]
    exact ⟨by simp only; omega, by simp only; omega, rfl⟩

theorem cellNeighbour_borderCell (d : Side) :
    (gatesAssigned gateLyt).cellNeighbour (borderCell t d) d =
      if gateLyt.clocked.neighbour t d = t then borderCell t d
      else borderCell (gateLyt.clocked.neighbour t d) d.opposite := by
  obtain ⟨-, hx, hy, -⟩ := ht
  obtain ⟨dt, zt, yt, xt⟩ := t
  simp only at hx hy
  cases d with
  | north =>
    by_cases h : yt = 0
    · simp [cellNeighbour, borderCell, cellAt, port, CoordinateLayout.neighbour,
        CoordinateLayout.north, h]
    · have hne : yt - 1 ≠ yt := by omega
      have hrow : yt * 5 - 1 = (yt - 1) * 5 + 4 := by omega
      simp [cellNeighbour, borderCell, cellAt, port, CoordinateLayout.neighbour,
        CoordinateLayout.north, Side.opposite, gateSizeX, gateSizeY, h, hne, hrow]
  | east =>
    by_cases h : xt = gateLyt.clocked.x
    · simp [cellNeighbour, borderCell, cellAt, port, CoordinateLayout.neighbour,
        CoordinateLayout.east, aspectRatio_gatesAssigned, gateSizeX, h]
      omega
    · have hlt : xt < gateLyt.clocked.x := by omega
      have hge : ¬ xt > gateLyt.clocked.x := by omega
      have hcol : xt * 5 + 4 < (gateLyt.clocked.x + 1) * 5 - 1 := by omega
      have hnext : xt * 5 + 4 + 1 = (xt + 1) * 5 := by omega
      simp [cellNeighbour, borderCell, cellAt, port, CoordinateLayout.neighbour,
        CoordinateLayout.east, Side.opposite, aspectRatio_gatesAssigned, gateSizeX, gateSizeY,
        hlt, hge, hcol, hnext]
  | south =>
    by_cases h : yt = gateLyt.clocked.y
    · simp [cellNeighbour, borderCell, cellAt, port, CoordinateLayout.neighbour,
        CoordinateLayout.south, aspectRatio_gatesAssigned, gateSizeY, h]
      omega
    · have hlt : yt < gateLyt.clocked.y := by omega
      have hge : ¬ yt > gateLyt.clocked.y := by omega
      have hrow : yt * 5 + 4 < (gateLyt.clocked.y + 1) * 5 - 1 := by omega
      have hnext : yt * 5 + 4 + 1 = (yt + 1) * 5 := by omega
      simp [cellNeighbour, borderCell, cellAt, port, CoordinateLayout.neighbour,
        CoordinateLayout.south, Side.opposite, aspectRatio_gatesAssigned, gateSizeX, gateSizeY,
        hlt, hge, hrow, hnext]
  | west =>
    by_cases h : xt = 0
    · simp [cellNeighbour, borderCell, cellAt, port, CoordinateLayout.neighbour,
        CoordinateLayout.west, h]
    · have hne : xt - 1 ≠ xt := by omega
      have hcol : xt * 5 - 1 = (xt - 1) * 5 + 4 := by omega
      simp [cellNeighbour, borderCell, cellAt, port, CoordinateLayout.neighbour,
        CoordinateLayout.west, Side.opposite, gateSizeX, gateSizeY, h, hne, hcol]

theorem neighbour_live (d : Side) : (gateLyt.clocked.neighbour t d).isDead = false := by
  have hd : t.d = false := ht.live
  have hx := ht.x_le
  have hy := ht.y_le
  cases d <;> unfold CoordinateLayout.neighbour <;> simp only
  · unfold CoordinateLayout.north
    split_ifs <;> exact hd
  · unfold CoordinateLayout.east
    split_ifs
    · omega
    · exact hd
    · exact hd
  · unfold CoordinateLayout.south
    split_ifs
    · omega
    · exact hd
    · exact hd
  · unfold CoordinateLayout.west
    split_ifs <;> exact hd

omit ht

theorem port_lt (d : Side) : (port d).x < gateSizeX ∧ (port d).y < gateSizeY := by
  cases d <;> decide

theorem inner_lt (d : Side) : (inner d).x < gateSizeX ∧ (inner d).y < gateSizeY := by
  cases d <;> decide

theorem flanks_lt {p : PortPosition} (hp : p ∈ flanks d) : p.x < gateSizeX ∧ p.y < gateSizeY := by
  revert p
  cases d <;> decide

theorem filled_port (ha : Assignable gateLyt) (h : hostsLiving gateLyt t = true) (d : Side) :
    filled (gateOf gateLyt t) (port d) = fills gateLyt t d := by
  have hn : gateLyt.getNode t ∈ gateLyt.checkedNodes := by simpa [hostsLiving] using h
  have hok := ha.gates _ hn
  rw [ha.getTile_getNode h] at hok
  exact (setUpGate_touches hok).2 d

theorem isEmptyCell_borderCell (ha : Assignable gateLyt) (hl : t.isDead = false) (d : Side) :
    (gatesAssigned gateLyt).isEmptyCell (borderCell t d) = !occupies gateLyt t d := by
  rw [borderCell, ha.isEmptyCell_cellAt hl (port_lt d).1 (port_lt d).2, occupies]
  cases h : hostsLiving gateLyt t with
  | true => rw [filled_port ha h]
  | false => rfl

/-- The gate on `t` ends in the crossing layer in the middle of side `d`: it reaches this side, but
no gate faces it there. -/
def endsInCrossingLayer (gateLyt : GateLevelLayout) (t : Tile) (d : Side) : Bool :=
  0 < t.z && occupies gateLyt t d &&
    !(gateLyt.clocked.neighbour t d ≠ t &&
      occupies gateLyt (gateLyt.clocked.neighbour t d) d.opposite)

theorem isVia_borderCell (ha : Assignable gateLyt) (ht : gateLyt.clocked.Inside t) (d : Side) :
    (gatesAssigned gateLyt).isVia (borderCell t d) = endsInCrossingLayer gateLyt t d := by
  have hborder := isEmptyCell_borderCell ha ht.live d
  have hz : isCrossingLayer (borderCell t d) = decide (0 < t.z) := by
    simp [isCrossingLayer, borderCell, cellAt]
  cases ho : occupies gateLyt t d with
  | false =>
    rw [CellLevelLayout.isVia, hborder, endsInCrossingLayer, ho]
    simp
  | true =>
    have hliving : hostsLiving gateLyt t = true := by
      rw [occupies, Bool.and_eq_true] at ho
      exact ho.1
    have hport : filled (gateOf gateLyt t) (port d) = true := by
      rw [occupies, Bool.and_eq_true] at ho
      rw [filled_port ha hliving, ho.2]
    have hflank : ∀ e, (∃ p ∈ flanks d, Step (port d) e p) →
        (gatesAssigned gateLyt).isEmptyCell
          ((gatesAssigned gateLyt).cellNeighbour (borderCell t d) e) = true := by
      rintro e ⟨p, hp, hstep⟩
      obtain ⟨hx, hy⟩ := flanks_lt hp
      rw [borderCell, cellNeighbour_cellAt ht hx hy hstep, ha.isEmptyCell_cellAt ht.live hx hy,
        (pinned_gateOf t).flanks d hport p hp]
      simp
    have hinner : (gatesAssigned gateLyt).cellNeighbour (borderCell t d) d.opposite =
        cellAt t (inner d) :=
      cellNeighbour_cellAt ht (inner_lt d).1 (inner_lt d).2 (by cases d <;> decide)
    have hfilled : (gatesAssigned gateLyt).isEmptyCell (cellAt t (inner d)) = false := by
      rw [ha.isEmptyCell_cellAt ht.live (inner_lt d).1 (inner_lt d).2,
        (pinned_gateOf t).inner d hport, hliving]
      rfl
    have hne : cellAt t (inner d) ≠ borderCell t d := by
      cases d <;> simp [borderCell, cellAt, QcaOneLibrary.inner, port]
    have hperm : ([Side.north, .east, .south, .west]).Perm
        [d, d.opposite, d.clockwise, d.clockwise.opposite] := by
      cases d <;> decide
    have hcount : (((gatesAssigned gateLyt).adjacentCoordinates (borderCell t d)).filter
        (!(gatesAssigned gateLyt).isEmptyCell ·)).length =
          if gateLyt.clocked.neighbour t d ≠ t ∧
            occupies gateLyt (gateLyt.clocked.neighbour t d) d.opposite = true then 2 else 1 := by
      rw [adjacentCoordinates_eq, List.filter_filter, ← List.countP_eq_length_filter,
        (hperm.map _).countP_eq]
      have hcw := hflank d.clockwise (by cases d <;> decide)
      have hccw := hflank d.clockwise.opposite (by cases d <;> decide)
      simp only [List.map_cons, List.map_nil, List.countP_cons, List.countP_nil, hinner, hfilled,
        cellNeighbour_borderCell ht d, hcw, hccw]
      by_cases hn : gateLyt.clocked.neighbour t d = t
      · simp [hn, hne]
      · have hout : borderCell (gateLyt.clocked.neighbour t d) d.opposite ≠ borderCell t d := by
          intro h
          have hmem := cellAt_mem_block (t := gateLyt.clocked.neighbour t d)
            (port_lt d.opposite).1 (port_lt d.opposite).2
          rw [← borderCell, h] at hmem
          exact Set.disjoint_left.mp (block_disjoint (neighbour_live ht d) ht.live hn) hmem
            (cellAt_mem_block (port_lt d).1 (port_lt d).2)
        cases ho' : occupies gateLyt (gateLyt.clocked.neighbour t d) d.opposite <;>
          simp [hn, hne, hout, isEmptyCell_borderCell ha (neighbour_live ht d), ho']
    rw [CellLevelLayout.isVia, hcount, hborder, hz, endsInCrossingLayer, ho]
    by_cases hn : gateLyt.clocked.neighbour t d = t
    · simp [hn]
    · cases occupies gateLyt (gateLyt.clocked.neighbour t d) d.opposite <;> simp [hn]

end Borders

end ApplyGateLibrary
end Fiction
