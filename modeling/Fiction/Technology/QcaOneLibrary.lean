import Fiction.Layouts.CardinalSignals
import Fiction.Technology.FcnGateLibrary
import Mathlib.Data.Fintype.Prod

/-!
# The gate library QCA ONE

`setUpGate` chooses the gate of a tile by its node and by the ports that follow from the data flow.
Majority gates and fan-outs to three tiles have a single layout each, all others are looked up.
`postLayoutOptimization` turns the ends of wires in the crossing layer into vias.
-/

namespace Fiction

inductive UnsupportedGateException
  | orientation (coord : Tile) (ports : PortList)
  | type (coord : Tile)
  deriving DecidableEq

namespace QcaOneLibrary

abbrev Gate := FcnGate QcaCellType

def gateSizeX : ℕ := 5
def gateSizeY : ℕ := 5

def rotate90 (g : Gate) : Gate := (g.transpose gateSizeX gateSizeY).reverseColumns

def rotate180 (g : Gate) : Gate := g.reverseRows.reverseColumns

def rotate270 (g : Gate) : Gate := g.reverseColumns.transpose gateSizeX gateSizeY

section Gates

def straightInverter : Gate := cellListToGate
  [[' ', ' ', 'x', ' ', ' '],
   [' ', 'x', 'x', 'x', ' '],
   [' ', 'x', ' ', 'x', ' '],
   [' ', ' ', 'x', ' ', ' '],
   [' ', ' ', 'x', ' ', ' ']]

def bentInverter : Gate := cellListToGate
  [[' ', ' ', 'x', ' ', ' '],
   [' ', ' ', 'x', ' ', ' '],
   [' ', ' ', ' ', 'x', 'x'],
   [' ', ' ', ' ', ' ', ' '],
   [' ', ' ', ' ', ' ', ' ']]

def conjunction : Gate := cellListToGate
  [[' ', ' ', '0', ' ', ' '],
   [' ', ' ', 'x', ' ', ' '],
   ['x', 'x', 'x', 'x', 'x'],
   [' ', ' ', 'x', ' ', ' '],
   [' ', ' ', 'x', ' ', ' ']]

def disjunction : Gate := cellListToGate
  [[' ', ' ', '1', ' ', ' '],
   [' ', ' ', 'x', ' ', ' '],
   ['x', 'x', 'x', 'x', 'x'],
   [' ', ' ', 'x', ' ', ' '],
   [' ', ' ', 'x', ' ', ' ']]

def majority : Gate := cellListToGate
  [[' ', ' ', 'x', ' ', ' '],
   [' ', ' ', 'x', ' ', ' '],
   ['x', 'x', 'x', 'x', 'x'],
   [' ', ' ', 'x', ' ', ' '],
   [' ', ' ', 'x', ' ', ' ']]

def fanOut12 : Gate := cellListToGate
  [[' ', ' ', ' ', ' ', ' '],
   [' ', ' ', ' ', ' ', ' '],
   ['x', 'x', 'x', 'x', 'x'],
   [' ', ' ', 'x', ' ', ' '],
   [' ', ' ', 'x', ' ', ' ']]

def fanOut13 : Gate := cellListToGate
  [[' ', ' ', 'x', ' ', ' '],
   [' ', ' ', 'x', ' ', ' '],
   ['x', 'x', 'x', 'x', 'x'],
   [' ', ' ', 'x', ' ', ' '],
   [' ', ' ', 'x', ' ', ' ']]

def primaryInputPort : Gate := cellListToGate
  [[' ', ' ', 'x', ' ', ' '],
   [' ', ' ', 'x', ' ', ' '],
   [' ', ' ', 'i', ' ', ' '],
   [' ', ' ', ' ', ' ', ' '],
   [' ', ' ', ' ', ' ', ' ']]

def primaryOutputPort : Gate := cellListToGate
  [[' ', ' ', 'x', ' ', ' '],
   [' ', ' ', 'x', ' ', ' '],
   [' ', ' ', 'o', ' ', ' '],
   [' ', ' ', ' ', ' ', ' '],
   [' ', ' ', ' ', ' ', ' ']]

def centerWire : Gate := cellListToGate
  [[' ', ' ', 'x', ' ', ' '],
   [' ', ' ', 'x', ' ', ' '],
   [' ', ' ', 'x', ' ', ' '],
   [' ', ' ', 'x', ' ', ' '],
   [' ', ' ', 'x', ' ', ' ']]

def innerSideWire : Gate := cellListToGate
  [[' ', ' ', ' ', 'x', ' '],
   [' ', ' ', ' ', 'x', ' '],
   [' ', ' ', ' ', 'x', ' '],
   [' ', ' ', ' ', 'x', ' '],
   [' ', ' ', ' ', 'x', ' ']]

def outerSideWire : Gate := cellListToGate
  [[' ', ' ', ' ', ' ', 'x'],
   [' ', ' ', ' ', ' ', 'x'],
   [' ', ' ', ' ', ' ', 'x'],
   [' ', ' ', ' ', ' ', 'x'],
   [' ', ' ', ' ', ' ', 'x']]

def centerBentWire : Gate := cellListToGate
  [[' ', ' ', 'x', ' ', ' '],
   [' ', ' ', 'x', ' ', ' '],
   [' ', ' ', 'x', 'x', 'x'],
   [' ', ' ', ' ', ' ', ' '],
   [' ', ' ', ' ', ' ', ' ']]

end Gates

section Tables

abbrev PortGateMap := List (PortList × Gate)

def wireMap : PortGateMap :=
  [ (⟨∅, {⟨2, 0⟩}⟩, primaryInputPort),
    (⟨∅, {⟨4, 2⟩}⟩, rotate90 primaryInputPort),
    (⟨∅, {⟨2, 4⟩}⟩, rotate180 primaryInputPort),
    (⟨∅, {⟨0, 2⟩}⟩, rotate270 primaryInputPort),
    (⟨{⟨2, 0⟩}, ∅⟩, primaryOutputPort),
    (⟨{⟨4, 2⟩}, ∅⟩, rotate90 primaryOutputPort),
    (⟨{⟨2, 4⟩}, ∅⟩, rotate180 primaryOutputPort),
    (⟨{⟨0, 2⟩}, ∅⟩, rotate270 primaryOutputPort),
    (⟨{⟨2, 0⟩}, {⟨2, 4⟩}⟩, centerWire),
    (⟨{⟨2, 4⟩}, {⟨2, 0⟩}⟩, centerWire),
    (⟨{⟨0, 2⟩}, {⟨4, 2⟩}⟩, rotate90 centerWire),
    (⟨{⟨4, 2⟩}, {⟨0, 2⟩}⟩, rotate90 centerWire),
    (⟨{⟨3, 0⟩}, {⟨3, 4⟩}⟩, innerSideWire),
    (⟨{⟨3, 4⟩}, {⟨3, 0⟩}⟩, innerSideWire),
    (⟨{⟨0, 3⟩}, {⟨4, 3⟩}⟩, rotate90 innerSideWire),
    (⟨{⟨4, 3⟩}, {⟨0, 3⟩}⟩, rotate90 innerSideWire),
    (⟨{⟨1, 0⟩}, {⟨1, 4⟩}⟩, rotate180 innerSideWire),
    (⟨{⟨1, 4⟩}, {⟨1, 0⟩}⟩, rotate180 innerSideWire),
    (⟨{⟨0, 1⟩}, {⟨4, 1⟩}⟩, rotate270 innerSideWire),
    (⟨{⟨4, 1⟩}, {⟨0, 1⟩}⟩, rotate270 innerSideWire),
    (⟨{⟨4, 0⟩}, {⟨4, 4⟩}⟩, outerSideWire),
    (⟨{⟨4, 4⟩}, {⟨4, 0⟩}⟩, outerSideWire),
    (⟨{⟨0, 4⟩}, {⟨4, 4⟩}⟩, rotate90 outerSideWire),
    (⟨{⟨4, 4⟩}, {⟨0, 4⟩}⟩, rotate90 outerSideWire),
    (⟨{⟨0, 0⟩}, {⟨0, 4⟩}⟩, rotate180 outerSideWire),
    (⟨{⟨0, 4⟩}, {⟨0, 0⟩}⟩, rotate180 outerSideWire),
    (⟨{⟨0, 0⟩}, {⟨4, 0⟩}⟩, rotate270 outerSideWire),
    (⟨{⟨4, 0⟩}, {⟨0, 0⟩}⟩, rotate270 outerSideWire),
    (⟨{⟨2, 0⟩}, {⟨4, 2⟩}⟩, centerBentWire),
    (⟨{⟨4, 2⟩}, {⟨2, 0⟩}⟩, centerBentWire),
    (⟨{⟨4, 2⟩}, {⟨2, 4⟩}⟩, rotate90 centerBentWire),
    (⟨{⟨2, 4⟩}, {⟨4, 2⟩}⟩, rotate90 centerBentWire),
    (⟨{⟨0, 2⟩}, {⟨2, 4⟩}⟩, rotate180 centerBentWire),
    (⟨{⟨2, 4⟩}, {⟨0, 2⟩}⟩, rotate180 centerBentWire),
    (⟨{⟨2, 0⟩}, {⟨0, 2⟩}⟩, rotate270 centerBentWire),
    (⟨{⟨0, 2⟩}, {⟨2, 0⟩}⟩, rotate270 centerBentWire)]

def inverterMap : PortGateMap :=
  [ (⟨{⟨2, 0⟩}, {⟨2, 4⟩}⟩, straightInverter),
    (⟨{⟨4, 2⟩}, {⟨0, 2⟩}⟩, rotate90 straightInverter),
    (⟨{⟨2, 4⟩}, {⟨2, 0⟩}⟩, rotate180 straightInverter),
    (⟨{⟨0, 2⟩}, {⟨4, 2⟩}⟩, rotate270 straightInverter),
    (⟨{⟨2, 0⟩}, ∅⟩, straightInverter),
    (⟨{⟨4, 2⟩}, ∅⟩, rotate90 straightInverter),
    (⟨{⟨2, 4⟩}, ∅⟩, rotate180 straightInverter),
    (⟨{⟨0, 2⟩}, ∅⟩, rotate270 straightInverter),
    (⟨∅, {⟨2, 4⟩}⟩, straightInverter),
    (⟨∅, {⟨0, 2⟩}⟩, rotate90 straightInverter),
    (⟨∅, {⟨2, 0⟩}⟩, rotate180 straightInverter),
    (⟨∅, {⟨4, 2⟩}⟩, rotate270 straightInverter),
    (⟨{⟨2, 0⟩}, {⟨4, 2⟩}⟩, bentInverter),
    (⟨{⟨4, 2⟩}, {⟨2, 0⟩}⟩, bentInverter),
    (⟨{⟨4, 2⟩}, {⟨2, 4⟩}⟩, rotate90 bentInverter),
    (⟨{⟨2, 4⟩}, {⟨4, 2⟩}⟩, rotate90 bentInverter),
    (⟨{⟨0, 2⟩}, {⟨2, 4⟩}⟩, rotate180 bentInverter),
    (⟨{⟨2, 4⟩}, {⟨0, 2⟩}⟩, rotate180 bentInverter),
    (⟨{⟨2, 0⟩}, {⟨0, 2⟩}⟩, rotate270 bentInverter),
    (⟨{⟨0, 2⟩}, {⟨2, 0⟩}⟩, rotate270 bentInverter)]

/-- The conjunctions and disjunctions have the same entries. -/
def twoInputMap (g : Gate) : PortGateMap :=
  [(⟨{⟨0, 2⟩, ⟨2, 4⟩}, {⟨4, 2⟩}⟩, g),
    (⟨{⟨0, 2⟩, ⟨4, 2⟩}, {⟨2, 4⟩}⟩, g),
    (⟨{⟨2, 4⟩, ⟨4, 2⟩}, {⟨0, 2⟩}⟩, g),
    (⟨{⟨0, 2⟩, ⟨2, 4⟩}, {⟨2, 0⟩}⟩, rotate90 g),
    (⟨{⟨0, 2⟩, ⟨2, 0⟩}, {⟨2, 4⟩}⟩, rotate90 g),
    (⟨{⟨2, 4⟩, ⟨2, 0⟩}, {⟨0, 2⟩}⟩, rotate90 g),
    (⟨{⟨0, 2⟩, ⟨4, 2⟩}, {⟨2, 0⟩}⟩, rotate180 g),
    (⟨{⟨0, 2⟩, ⟨2, 0⟩}, {⟨4, 2⟩}⟩, rotate180 g),
    (⟨{⟨4, 2⟩, ⟨2, 0⟩}, {⟨0, 2⟩}⟩, rotate180 g),
    (⟨{⟨2, 4⟩, ⟨4, 2⟩}, {⟨2, 0⟩}⟩, rotate270 g),
    (⟨{⟨2, 4⟩, ⟨2, 0⟩}, {⟨4, 2⟩}⟩, rotate270 g),
    (⟨{⟨4, 2⟩, ⟨2, 0⟩}, {⟨2, 4⟩}⟩, rotate270 g)]

def conjunctionMap : PortGateMap := twoInputMap conjunction

def disjunctionMap : PortGateMap := twoInputMap disjunction

def fanoutMap : PortGateMap :=
  [(⟨{⟨4, 2⟩}, {⟨0, 2⟩, ⟨2, 4⟩}⟩, fanOut12),
    (⟨{⟨2, 4⟩}, {⟨0, 2⟩, ⟨4, 2⟩}⟩, fanOut12),
    (⟨{⟨0, 2⟩}, {⟨2, 4⟩, ⟨4, 2⟩}⟩, fanOut12),
    (⟨{⟨2, 0⟩}, {⟨0, 2⟩, ⟨2, 4⟩}⟩, rotate90 fanOut12),
    (⟨{⟨2, 4⟩}, {⟨0, 2⟩, ⟨2, 0⟩}⟩, rotate90 fanOut12),
    (⟨{⟨0, 2⟩}, {⟨2, 4⟩, ⟨2, 0⟩}⟩, rotate90 fanOut12),
    (⟨{⟨2, 0⟩}, {⟨0, 2⟩, ⟨4, 2⟩}⟩, rotate180 fanOut12),
    (⟨{⟨4, 2⟩}, {⟨0, 2⟩, ⟨2, 0⟩}⟩, rotate180 fanOut12),
    (⟨{⟨0, 2⟩}, {⟨4, 2⟩, ⟨2, 0⟩}⟩, rotate180 fanOut12),
    (⟨{⟨2, 0⟩}, {⟨2, 4⟩, ⟨4, 2⟩}⟩, rotate270 fanOut12),
    (⟨{⟨4, 2⟩}, {⟨2, 4⟩, ⟨2, 0⟩}⟩, rotate270 fanOut12),
    (⟨{⟨2, 4⟩}, {⟨4, 2⟩, ⟨2, 0⟩}⟩, rotate270 fanOut12)]

end Tables

section SetUp

variable (lyt : GateLevelLayout) (t : Tile)

/-- The middle of a side. -/
def port : Side → PortPosition
  | .north => ⟨2, 0⟩
  | .east => ⟨4, 2⟩
  | .south => ⟨2, 4⟩
  | .west => ⟨0, 2⟩

def emplaceIf (present : Bool) (pos : PortPosition) (ports : Finset PortPosition) :
    Finset PortPosition :=
  if present then insert pos ports else ports

def determinePortRouting : PortList :=
  let inp := emplaceIf (lyt.hasNorthernIncomingSignal t) ⟨2, 0⟩ ∅
  let inp := emplaceIf (lyt.hasEasternIncomingSignal t) ⟨4, 2⟩ inp
  let inp := emplaceIf (lyt.hasSouthernIncomingSignal t) ⟨2, 4⟩ inp
  let inp := emplaceIf (lyt.hasWesternIncomingSignal t) ⟨0, 2⟩ inp
  let out := emplaceIf (lyt.hasNorthernOutgoingSignal t) ⟨2, 0⟩ ∅
  let out := emplaceIf (lyt.hasEasternOutgoingSignal t) ⟨4, 2⟩ out
  let out := emplaceIf (lyt.hasSouthernOutgoingSignal t) ⟨2, 4⟩ out
  let out := emplaceIf (lyt.hasWesternOutgoingSignal t) ⟨0, 2⟩ out
  let n := lyt.getNode t
  if !lyt.isWire n && !lyt.isInv n then
    ⟨emplaceIf (lyt.hasNoIncomingSignal t) ⟨0, 2⟩ inp,
      emplaceIf (lyt.hasNoOutgoingSignal t) ⟨4, 2⟩ out⟩
  else ⟨inp, out⟩

/-- The gate for the ports `p` of tile `t`; a missing entry is reported as an exception. -/
def PortGateMap.lookup (map : PortGateMap) (t : Tile) (p : PortList) :
    Except UnsupportedGateException Gate :=
  match map.find? fun entry => entry.1 = p with
  | some entry => .ok entry.2
  | none => .error (.orientation t p)

def setUpGate : Except UnsupportedGateException Gate :=
  let n := lyt.getNode t
  let p := determinePortRouting lyt t
  if lyt.isFanout n && lyt.fanoutSize n = 2 then fanoutMap.lookup t p
  else if lyt.isFanout n && lyt.fanoutSize n = 3 then .ok fanOut13
  else if lyt.isWire n then wireMap.lookup t p
  else if lyt.isInv n then inverterMap.lookup t p
  else if lyt.isAnd n then conjunctionMap.lookup t p
  else if lyt.isOr n then disjunctionMap.lookup t p
  else if lyt.isMaj n then .ok majority
  else .error (.type t)

end SetUp

end QcaOneLibrary
end Fiction
