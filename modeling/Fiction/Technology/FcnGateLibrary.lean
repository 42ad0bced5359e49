import Fiction.Layouts.CellLevelLayout
import Mathlib.Data.Finset.Basic
import Mathlib.Data.List.Range

/-!
# Gate libraries

A gate of a library is a rectangular array of cells, given by its rows. Positions within a gate are
pairs of a column and a row. The library looks its gates up by the positions of their ports.
-/

namespace Fiction

/-- `cell_list`: the rows of a gate, from north to south. -/
abbrev FcnGate (CellType : Type) := List (List CellType)

namespace FcnGate

variable {CellType : Type} [Inhabited CellType]

/-- `g[y][x]` -/
def cell (g : FcnGate CellType) (x y : ℕ) : CellType := (g.getD y []).getD x default

/-- The gate of the given size whose cell in column `x` and row `y` is `f x y`. -/
def ofFn (gateSizeX gateSizeY : ℕ) (f : ℕ → ℕ → CellType) : FcnGate CellType :=
  (List.range gateSizeY).map fun y => (List.range gateSizeX).map fun x => f x y

/-- `trans[y][x] = g[x][y]` -/
def transpose (gateSizeX gateSizeY : ℕ) (g : FcnGate CellType) : FcnGate CellType :=
  ofFn gateSizeX gateSizeY fun x y => g.cell y x

def reverseColumns (g : FcnGate CellType) : FcnGate CellType := g.map List.reverse

def reverseRows (g : FcnGate CellType) : FcnGate CellType := List.reverse g

end FcnGate

structure PortPosition where
  x : ℕ
  y : ℕ
  deriving DecidableEq

structure PortList where
  inp : Finset PortPosition
  out : Finset PortPosition
  deriving DecidableEq

def QcaCellType.ofChar : Char → QcaCellType
  | 'x' => .normal
  | 'i' => .input
  | 'o' => .output
  | '0' => .const0
  | '1' => .const1
  | _ => .empty

instance : Inhabited QcaCellType := ⟨.empty⟩

def cellListToGate (c : List (List Char)) : FcnGate QcaCellType :=
  c.map fun row => row.map QcaCellType.ofChar

end Fiction
