import Fiction.Layouts.DataFlow
import Mathlib.Data.Fintype.Defs

/-!
# Signals in the cardinal directions

A tile has a signal in a cardinal direction if a tile of its data flow lies there, in the same layer
or in one of the layers around it.
-/

namespace Fiction

inductive Side
  | north
  | east
  | south
  | west
  deriving DecidableEq

namespace Side

instance : Fintype Side := ⟨{north, east, south, west}, fun d => by cases d <;> decide⟩

def opposite : Side → Side
  | north => south
  | east => west
  | south => north
  | west => east

def clockwise : Side → Side
  | north => east
  | east => south
  | south => west
  | west => north

end Side

/-- The coordinate next to `c` at side `d`, which is `c` itself at the border. -/
def CoordinateLayout.neighbour (lyt : CoordinateLayout) (c : Ucoord) : Side → Ucoord
  | .north => north c
  | .east => lyt.east c
  | .south => lyt.south c
  | .west => west c

namespace GateLevelLayout

section Queries

variable (lyt : GateLevelLayout) (t : Tile)

def isIncomingSignal (s : Signal) : Bool :=
  (lyt.incomingDataFlow t).any fun i =>
    i = s || lyt.clocked.above i = s || CoordinateLayout.below i = s

def isOutgoingSignal (s : Signal) : Bool :=
  (lyt.outgoingDataFlow t).any fun o =>
    o = s || lyt.clocked.above o = s || CoordinateLayout.below o = s

def hasIncomingSignal (d : Side) : Bool := lyt.isIncomingSignal t (lyt.clocked.neighbour t d)

def hasOutgoingSignal (d : Side) : Bool := lyt.isOutgoingSignal t (lyt.clocked.neighbour t d)

def hasNorthernIncomingSignal : Bool := lyt.hasIncomingSignal t .north
def hasEasternIncomingSignal : Bool := lyt.hasIncomingSignal t .east
def hasSouthernIncomingSignal : Bool := lyt.hasIncomingSignal t .south
def hasWesternIncomingSignal : Bool := lyt.hasIncomingSignal t .west
def hasNorthernOutgoingSignal : Bool := lyt.hasOutgoingSignal t .north
def hasEasternOutgoingSignal : Bool := lyt.hasOutgoingSignal t .east
def hasSouthernOutgoingSignal : Bool := lyt.hasOutgoingSignal t .south
def hasWesternOutgoingSignal : Bool := lyt.hasOutgoingSignal t .west

def hasNoIncomingSignal : Bool := (lyt.incomingDataFlow t).isEmpty

def hasNoOutgoingSignal : Bool := (lyt.outgoingDataFlow t).isEmpty

/-- The number of outgoing tiles of the tile of `n`. -/
def fanoutSize (n : ℕ) : ℕ := (lyt.outgoingDataFlow (lyt.getTile n)).length

def isInv (n : ℕ) : Bool := (lyt.node n).function = TruthTable.not

def isAnd (n : ℕ) : Bool := (lyt.node n).function = TruthTable.and

def isOr (n : ℕ) : Bool := (lyt.node n).function = TruthTable.or

def isMaj (n : ℕ) : Bool := (lyt.node n).function = TruthTable.maj

def isFanout (n : ℕ) : Bool := lyt.isWire n && lyt.fanoutSize n > 1

/-- The data flow of the tile enters or leaves at side `d`. -/
def hasSignal (d : Side) : Bool := lyt.hasIncomingSignal t d || lyt.hasOutgoingSignal t d

def getName (n : ℕ) : String := (lyt.nodeNames n).getD ""

end Queries

end GateLevelLayout
end Fiction
