import Fiction.Layouts.Liveness
import Fiction.Library.RegionWrites
import Fiction.Technology.QcaOneLibrary

/-!
# Applying a gate library

`applyGateLibrary` replaces the node of each tile of a Cartesian layout by the gate that QCA ONE has
for it and optimizes the resulting cell-level layout. Positions of cells are natural numbers, like
those of tiles.
-/

namespace Fiction

namespace QcaOneLibrary

/-- The part of `post_layout_optimization` that deals with one position. -/
def assignVia (lyt : CellLevelLayout) (c : Cell) : CellLevelLayout :=
  if CellLevelLayout.isCrossingLayer c && !lyt.isEmptyCell c then
    let adjacentCells := (lyt.adjacentCoordinates c).filter (!lyt.isEmptyCell ·)
    if adjacentCells.length ≤ 1 then
      let lyt := lyt.assignCellMode c .vertical
      let groundViaCell : Cell := ⟨c.x, c.y, 0⟩
      let lyt := lyt.assignCellType groundViaCell .normal
      lyt.assignCellMode groundViaCell .vertical
    else lyt
  else lyt

def postLayoutOptimization (lyt : CellLevelLayout) : CellLevelLayout :=
  lyt.foreachCellPosition.foldl assignVia lyt

end QcaOneLibrary

namespace ApplyGateLibrary

open QcaOneLibrary (Gate gateSizeX gateSizeY)

def initialLayout (gateLyt : GateLevelLayout) : CellLevelLayout where
  toCellStorage := .new
  layoutName := []
  aspectRatio :=
    ⟨(gateLyt.clocked.x + 1) * gateSizeX - 1, (gateLyt.clocked.y + 1) * gateSizeY - 1,
      gateLyt.clocked.z⟩
  clockNumber c :=
    gateLyt.clocked.getClockNumber (.at3 (c.x / gateSizeX) (c.y / gateSizeY) c.z.toNat)
  numClocks := gateLyt.clocked.clocking.numClocks

def gatePositions (g : Gate) : List (ℕ × ℕ) :=
  (List.range g.length).flatMap fun y => (List.range (g.getD y []).length).map fun x => (x, y)

/-- The body of the loops of `assign_gate`. -/
def assignCell (c : Cell) (g : Gate) (name : List Char) (cellLyt : CellLevelLayout)
    (offset : ℕ × ℕ) : CellLevelLayout :=
  let pos : Cell := ⟨c.x + offset.1, c.y + offset.2, c.z⟩
  let type := g.cell offset.1 offset.2
  let cellLyt := if type ≠ .empty then cellLyt.assignCellType pos type else cellLyt
  if type = .input ∨ type = .output then cellLyt.assignCellName pos name else cellLyt

def assignGate (cellLyt : CellLevelLayout) (c : Cell) (g : Gate) (name : List Char) :
    CellLevelLayout :=
  (gatePositions g).foldl (assignCell c g name) cellLyt

def origin (t : Tile) : Cell := ⟨t.x * gateSizeX, t.y * gateSizeY, t.z⟩

def assignNodeGate (gateLyt : GateLevelLayout) (cellLyt : CellLevelLayout) (n : ℕ) :
    Except UnsupportedGateException CellLevelLayout :=
  if GateLevelLayout.isConstant n then .ok cellLyt
  else do
    let t := gateLyt.getTile n
    let g ← QcaOneLibrary.setUpGate gateLyt t
    return assignGate cellLyt (origin t) g (gateLyt.getName n).toList

end ApplyGateLibrary

open ApplyGateLibrary in
def applyGateLibrary (gateLyt : GateLevelLayout) :
    Except UnsupportedGateException CellLevelLayout := do
  let cellLyt ← gateLyt.foreachNode.foldlM (assignNodeGate gateLyt) (initialLayout gateLyt)
  let cellLyt := QcaOneLibrary.postLayoutOptimization cellLyt
  return { cellLyt with layoutName := gateLyt.layoutName.toList }

end Fiction
