import Fiction.Layouts.ClockedLayout
import Fiction.Networks.TruthTable
import Mathlib.Logic.Function.Basic

/-!
# Gate-level layouts

A gate-level layout adds placed logic nodes to a clocked layout. A node is the index of its
creation; a signal is the 64-bit encoding of a tile and is modelled by that tile, the encoding
being injective. Nodes `0` and `1` are the constants and live on the two dead tiles `const0` and
`const1`; node `0` also stands for "no node" wherever a tile is looked up.

`num_pis`, `num_pos` and the number of registers split the two vectors `inputs` and `outputs`.
Counters of gates and wires are natural numbers: a layout has fewer than `2 ^ 32` nodes because
nodes are 32-bit indices.
-/

namespace Fiction

abbrev Tile := Ucoord
abbrev Signal := Tile

/-- `h1` is the internal fan-out size, whose most significant bit marks dead nodes. -/
structure LayoutNode where
  children : List Signal
  h1 : BitVec 32
  function : TruthTable
  deriving DecidableEq

instance : Inhabited LayoutNode := ⟨⟨[], 0, TruthTable.const0⟩⟩

structure GateLevelLayout where
  clocked : ClockedLayout
  layoutName : String
  nodes : List LayoutNode
  inputs : List ℕ
  outputs : List Signal
  tileNodeMap : Signal → Option ℕ
  nodeTileMap : ℕ → Option Signal
  numGates : ℕ
  numWires : ℕ
  nodeNames : ℕ → Option String
  numPis : ℕ
  numPos : ℕ
  /-- size of the vector of registers -/
  registers : ℕ

namespace GateLevelLayout

def const0 : Tile := ⟨true, 0, 0, 0⟩
def const1 : Tile := ⟨true, 1, 0, 0⟩

def empty (clocked : ClockedLayout) (name : String) : GateLevelLayout where
  clocked := clocked
  layoutName := name
  nodes := [⟨[], 0, TruthTable.const0⟩, ⟨[], 0, TruthTable.const1⟩]
  inputs := []
  outputs := []
  tileNodeMap s := if s = const0 then some 0 else if s = const1 then some 1 else none
  nodeTileMap n := if n = 0 then some const0 else if n = 1 then some const1 else none
  numGates := 0
  numWires := 0
  nodeNames _ := none
  numPis := 0
  numPos := 0
  registers := 0

section Queries

variable (lyt : GateLevelLayout)

def size : ℕ := lyt.nodes.length

def node (n : ℕ) : LayoutNode := lyt.nodes.getD n default

def getConstant (value : Bool) : Signal := if value then const1 else const0

def isConstant (n : ℕ) : Bool := n ≤ 1

def getNode (s : Signal) : ℕ := (lyt.tileNodeMap s).getD 0

def getTile (n : ℕ) : Tile := (lyt.nodeTileMap n).getD default

def isDead (n : ℕ) : Bool := (lyt.node n).h1.getLsbD 31

/-- `is_wire` and `is_buf` -/
def isWire (n : ℕ) : Bool := (lyt.node n).function = TruthTable.identity

def isEmptyTile (t : Tile) : Bool := lyt.getNode t = 0

def isWireTile (t : Tile) : Bool := lyt.isWire (lyt.getNode t)

def numRos : ℕ := lyt.registers

def numRis : ℕ := lyt.registers

def isPi (n : ℕ) : Bool := (lyt.inputs.take lyt.numPis).contains n

def isRo (n : ℕ) : Bool := ((lyt.inputs.drop lyt.numPis).take lyt.numRos).contains n

def isPo (n : ℕ) : Bool := (lyt.outputs.take lyt.numPos).any fun p => lyt.getNode p = n

def foreachPi : List ℕ := lyt.inputs.take lyt.numPis

def foreachRo : List ℕ := lyt.inputs.drop lyt.numPis

def foreachPo : List Signal := lyt.outputs.take lyt.numPos

def foreachRi : List Signal := lyt.outputs.drop lyt.numPos

def isChild (n : ℕ) (s : Signal) : Bool := (lyt.node n).children.contains s

end Queries

section Updates

variable (lyt : GateLevelLayout)

def modifyNode (n : ℕ) (f : LayoutNode → LayoutNode) : GateLevelLayout :=
  { lyt with nodes := lyt.nodes.modify n f }

def emplaceNode (data : LayoutNode) : ℕ × GateLevelLayout :=
  (lyt.nodes.length, { lyt with nodes := lyt.nodes ++ [data] })

def setName (n : ℕ) (name : String) : GateLevelLayout :=
  { lyt with nodeNames := Function.update lyt.nodeNames n (some name) }

def incrRef (s : Signal) : GateLevelLayout :=
  lyt.modifyNode (lyt.getNode s) fun data => { data with h1 := data.h1 + 1 }

def decrRef (s : Signal) : GateLevelLayout :=
  lyt.modifyNode (lyt.getNode s) fun data => { data with h1 := data.h1 - 1 }

def killNode (n : ℕ) : GateLevelLayout :=
  if isConstant n then lyt
  else lyt.modifyNode n fun data => { data with h1 := data.h1 ||| 0x80000000#32 }

def reviveNode (n : ℕ) : GateLevelLayout :=
  if isConstant n then lyt
  else lyt.modifyNode n fun data => { data with h1 := data.h1 &&& ~~~0x80000000#32 }

/-- The part of `clear_tile` that forgets the node `n` found on tile `t`. -/
def unplace (t : Tile) (n : ℕ) : GateLevelLayout :=
  { lyt with
    nodeTileMap := Function.update lyt.nodeTileMap n none
    tileNodeMap := Function.update lyt.tileNodeMap t none }

/-- Counts one wire or gate less, depending on the function of `n`. -/
def uncount (n : ℕ) : GateLevelLayout :=
  if lyt.isWire n then { lyt with numWires := lyt.numWires - 1 }
  else { lyt with numGates := lyt.numGates - 1 }

def count (n : ℕ) : GateLevelLayout :=
  if lyt.isWire n then { lyt with numWires := lyt.numWires + 1 }
  else { lyt with numGates := lyt.numGates + 1 }

def clearTile (t : Tile) : GateLevelLayout :=
  match lyt.tileNodeMap t with
  | none => lyt
  | some n =>
    let lyt := if t.isDead then lyt else lyt.uncount n
    (lyt.killNode n).unplace t n

def assignNode (t : Tile) (n : ℕ) : GateLevelLayout :=
  if t.isDead then lyt
  else
    let lyt := lyt.clearTile t
    let lyt := { lyt with
      tileNodeMap := Function.update lyt.tileNodeMap t (some n)
      nodeTileMap := Function.update lyt.nodeTileMap n (some t) }
    lyt.count n

def createPi (name : String) (t : Tile) : GateLevelLayout × Signal :=
  let (n, lyt) := lyt.emplaceNode ⟨[], 0, TruthTable.identity⟩
  let lyt := { lyt with inputs := lyt.inputs ++ [n] }
  let lyt := lyt.setName n (if name.isEmpty then s!"pi{lyt.numPis}" else name)
  let lyt := lyt.assignNode t n
  ({ lyt with numPis := lyt.numPis + 1 }, t)

def createRo (name : String) (t : Tile) : GateLevelLayout × Signal :=
  let (n, lyt) := lyt.emplaceNode ⟨[], 0, TruthTable.identity⟩
  let lyt := { lyt with inputs := lyt.inputs ++ [n] }
  let lyt := { lyt with registers := lyt.registers + 1 }
  let lyt := lyt.setName n (if name.isEmpty then s!"ro{lyt.numPis}" else name)
  (lyt.assignNode t n, t)

def pushChild (n : ℕ) (s : Signal) : GateLevelLayout :=
  (lyt.incrRef s).modifyNode n fun data => { data with children := data.children ++ [s] }

/-- The new output is inserted behind the `num_pos` primary outputs, in front of all register
inputs. The insertion position exists when `numPos` does not exceed the number of outputs. -/
def createPo (s : Signal) (name : String) (t : Tile) : GateLevelLayout × Signal :=
  let (n, lyt) := lyt.emplaceNode ⟨[], 0, TruthTable.identity⟩
  let lyt := { lyt with outputs := lyt.outputs.take lyt.numPos ++ t :: lyt.outputs.drop lyt.numPos }
  let lyt := lyt.setName n (if name.isEmpty then s!"po{lyt.numPos}" else name)
  let lyt := lyt.assignNode t n
  let lyt := { lyt with numPos := lyt.numPos + 1 }
  (lyt.pushChild n s, t)

def createRi (s : Signal) (name : String) (t : Tile) : GateLevelLayout × Signal :=
  let (n, lyt) := lyt.emplaceNode ⟨[], 0, TruthTable.identity⟩
  let lyt := { lyt with outputs := lyt.outputs ++ [t] }
  let lyt := lyt.setName n (if name.isEmpty then s!"ri{lyt.numPos}" else name)
  let lyt := lyt.assignNode t n
  (lyt.pushChild n s, t)

def createNodeFromLiteral (children : List Signal) (function : TruthTable) (t : Tile) :
    GateLevelLayout × Signal :=
  let (n, lyt) := lyt.emplaceNode ⟨children, 0, function⟩
  let lyt := children.foldl incrRef lyt
  (lyt.assignNode t n, t)

def createBuf (a : Signal) (t : Tile) := lyt.createNodeFromLiteral [a] .identity t
def createNot (a : Signal) (t : Tile) := lyt.createNodeFromLiteral [a] .not t
def createAnd (a b : Signal) (t : Tile) := lyt.createNodeFromLiteral [a, b] .and t
def createNand (a b : Signal) (t : Tile) := lyt.createNodeFromLiteral [a, b] .nand t
def createOr (a b : Signal) (t : Tile) := lyt.createNodeFromLiteral [a, b] .or t
def createNor (a b : Signal) (t : Tile) := lyt.createNodeFromLiteral [a, b] .nor t
def createXor (a b : Signal) (t : Tile) := lyt.createNodeFromLiteral [a, b] .xor t
def createXnor (a b : Signal) (t : Tile) := lyt.createNodeFromLiteral [a, b] .xnor t
def createMaj (a b c : Signal) (t : Tile) := lyt.createNodeFromLiteral [a, b, c] .maj t

def createNode (children : List Signal) (function : TruthTable) (t : Tile) :
    GateLevelLayout × Signal :=
  if children.isEmpty then (lyt, getConstant (function ≠ .const0))
  else lyt.createNodeFromLiteral children function t

/-- The first part of `move_node`: the children of `n` lose a reference and are forgotten. -/
def dropChildren (n : ℕ) : GateLevelLayout :=
  ((lyt.node n).children.foldl decrRef lyt).modifyNode n fun data => { data with children := [] }

/-- The second part of `move_node`: `clear_tile` marks `n` as dead, so it has to be revived. Nothing
happens to a node that stays on its tile. -/
def relocate (n : ℕ) (t oldT : Tile) : GateLevelLayout :=
  if t ≠ oldT then ((lyt.clearTile oldT).assignNode t n).reviveNode n else lyt

def assignChildren (n : ℕ) (newChildren : List Signal) : GateLevelLayout :=
  newChildren.foldl incrRef (lyt.modifyNode n fun data => { data with children := newChildren })

/-- The last part of `move_node`: entries of the old tile are erased or renamed. -/
def updateOutputs (t oldT : Tile) : GateLevelLayout :=
  { lyt with
    outputs :=
      if t.isDead then lyt.outputs.filter (· ≠ oldT)
      else if t ≠ oldT then lyt.outputs.map fun o => if o = oldT then t else o
      else lyt.outputs }

/-- Moves `n` to `t` and replaces its children. -/
def moveNode (n : ℕ) (t : Tile) (newChildren : List Signal) : GateLevelLayout × Signal :=
  let oldT := lyt.getTile n
  let lyt := lyt.dropChildren n
  let lyt := lyt.relocate n t oldT
  let lyt := lyt.assignChildren n newChildren
  (lyt.updateOutputs t oldT, t)

end Updates

end GateLevelLayout
end Fiction
