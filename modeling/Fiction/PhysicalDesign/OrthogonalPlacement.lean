import Fiction.Layouts.ClockingSchemes
import Fiction.Layouts.GateLevelLayout
import Fiction.PhysicalDesign.EdgeColoring

/-!
# Orthogonal placement

`orthogonal` walks over the nodes in topological order. Each node opens a new column, a new row or
both, depending on its colour, and is wired to its predecessors. The size of the layout is computed
beforehand by a walk of its own. Failed assertions and reads beyond the end of a vector are `none`.

The view of the network lists the constants, the combinational inputs and the gates. The order in
which the two wires of a gate are drawn is the evaluation order of the arguments of a call, which
the language leaves open, and a parameter here.
-/

namespace Fiction

namespace TechnologyNetwork

variable (ntk : TechnologyNetwork)

def isNand (n : ℕ) : Bool := (ntk.node n).function = .nand

def isNor (n : ℕ) : Bool := (ntk.node n).function = .nor

def isFunction (n : ℕ) : Bool := 1 < n ∧ ¬ ntk.isCi n

end TechnologyNetwork

namespace Orthogonal

open TechnologyNetwork

structure FaninContainer where
  faninNodes : List ℕ
  constantFanin : Option Bool

/-- There can only be one constant fan-in. Inputs have no fan-ins. -/
def fanins (ntk : TechnologyNetwork) (n : ℕ) : Option FaninContainer :=
  let fis := if ntk.isCi n then [] else (ntk.node n).children
  if fis.countP (isConstant ·) ≤ 1 then
    some ⟨fis.filter (!isConstant ·), (fis.find? (isConstant ·)).map (· ≠ 0)⟩
  else none

/-- A layout and the tiles that nodes have been put on. -/
structure Canvas where
  layout : GateLevelLayout
  used : List Tile

namespace Canvas

variable (cv : Canvas)

def put (t : Tile) (r : GateLevelLayout × Signal) : Canvas × Signal :=
  (⟨r.1, cv.used ++ [t]⟩, r.2)

def createBuf (a : Signal) (t : Tile) : Canvas × Signal := cv.put t (cv.layout.createBuf a t)

def extendWire (p : Canvas × Signal) (t : Tile) : Canvas × Signal :=
  p.1.createBuf p.2 (if p.1.layout.isEmptyTile t then t else p.1.layout.clocked.above t)

def wireEast (src dest : Tile) : Canvas × Signal :=
  ((List.range' (src.x + 1) (dest.x - (src.x + 1))).map fun x => Ucoord.at2 x src.y).foldl
    extendWire (cv, src)

def wireSouth (src dest : Tile) : Canvas × Signal :=
  ((List.range' (src.y + 1) (dest.y - (src.y + 1))).map fun y => Ucoord.at2 src.x y).foldl
    extendWire (cv, src)

variable (ntk : TechnologyNetwork)

def place (t : Tile) (n : ℕ) (a : Signal) : Option (Canvas × Signal) :=
  if ntk.isInv n then some (cv.put t (cv.layout.createNot a t))
  else if ntk.isBuf n then some (cv.createBuf a t)
  else none

/-- `place` for gates with two fan-ins and perhaps a constant. A constant among the children of
`create_node` is a number that is taken for a signal. -/
def placeBinary (t : Tile) (n : ℕ) (a b : Signal) (c : Option Bool) : Option (Canvas × Signal) :=
  if ntk.isAnd n then some (cv.put t (cv.layout.createAnd a b t))
  else if ntk.isOr n then some (cv.put t (cv.layout.createOr a b t))
  else if ntk.isXor n then some (cv.put t (cv.layout.createXor a b t))
  else if ntk.isNand n then some (cv.put t (cv.layout.createNand a b t))
  else if ntk.isNor n then some (cv.put t (cv.layout.createNor a b t))
  else if ntk.isMaj n then
    c.map fun c => cv.put t (if c then cv.layout.createOr a b t else cv.layout.createAnd a b t)
  else if ntk.isFunction n then
    let children := [a, b] ++ c.toList.map fun c => Ucoord.at2 (if c then 1 else 0) 0
    some (cv.put t (cv.layout.createNode children (ntk.node n).function t))
  else none

def connectAndPlace (t : Tile) (n : ℕ) (pre : Tile) : Option (Canvas × Signal) :=
  if CoordinateLayout.isWestwardsOf t pre then
    let (cv, a) := cv.wireEast pre t
    cv.place ntk t n a
  else if CoordinateLayout.isNorthwardsOf t pre then
    let (cv, a) := cv.wireSouth pre t
    cv.place ntk t n a
  else none

def wireAndPlace (eastFirst : Bool) (t : Tile) (n : ℕ) (pre₁ pre₂ : Tile) (c : Option Bool) :
    Option (Canvas × Signal) :=
  if eastFirst then
    let (cv, b) := cv.wireEast pre₂ t
    let (cv, a) := cv.wireSouth pre₁ t
    cv.placeBinary ntk t n a b c
  else
    let (cv, a) := cv.wireSouth pre₁ t
    let (cv, b) := cv.wireEast pre₂ t
    cv.placeBinary ntk t n a b c

/-- The northwards predecessor is the smaller one. -/
def connectAndPlaceBinary (eastFirst : Bool) (t : Tile) (n : ℕ) (pre₁ pre₂ : Tile)
    (c : Option Bool) : Option (Canvas × Signal) :=
  if pre₂.lt pre₁ then cv.wireAndPlace ntk eastFirst t n pre₂ pre₁ c
  else cv.wireAndPlace ntk eastFirst t n pre₁ pre₂ c

def connectToBorder (s : Signal) (poTile : Tile) : Canvas × Signal × Tile :=
  if cv.layout.clocked.isAtEasternBorder poTile then (cv, s, poTile)
  else
    let (cv, anker) := cv.createBuf s poTile
    let border := cv.layout.clocked.easternBorderOf poTile
    let (cv, a) := cv.wireEast anker border
    (cv, a, border)

end Canvas

structure PlacementState where
  canvas : Canvas
  node2pos : ℕ → Signal
  latestPos : Tile
  poCounter : ℕ

section Placement

variable (ntk : TechnologyNetwork) (V : FanoutView ntk) (T : ntk.TopoView)
  (ctn : ColoringContainer) (eastFirst : Bool)

/-- The nodes that `foreach_node` visits. -/
def nodes : List ℕ := [0, 1] ++ ntk.inputs ++ T.gates

def firstFanoutIs (c : Color) (n : ℕ) : Bool := (V.fanouts n).head?.bind ctn.color = some c

/-- Only the first fan-out counts. -/
def isEasternPoOrientationAvailable (n : ℕ) : Bool := !firstFanoutIs ntk V ctn .east n

def enlarge (size : ℕ × ℕ) (n : ℕ) : ℕ × ℕ :=
  if isConstant n then size
  else
    let (x, y) := size
    let (x, y) :=
      if ntk.isPi n then (x + (V.fanouts n).countP fun fon => ctn.color fon = some .south, y)
      else match ctn.color n with
        | some .east => (x + 1, y)
        | some .south => (x, y + 1)
        | none => (x + 1, y + 1)
    if ntk.isPo n then
      if isEasternPoOrientationAvailable ntk V ctn n then (x + 1, y) else (x, y + 1)
    else (x, y)

/-- The difference `num_pis() - 1` of 32-bit integers. -/
def lastPi : ℕ := (((ntk.numPis : ℤ) - 1) % 2 ^ 32).toNat

def determineLayoutSize : Ucoord :=
  let (x, y) := (nodes ntk T).foldl (enlarge ntk V ctn) (0, lastPi ntk)
  .at3 (CoordinateLayout.toField x) (CoordinateLayout.toField y) 1

/-- The inputs are created on one tile, from which the last one is removed again. -/
def reserveInputNodes (lyt : GateLevelLayout) : GateLevelLayout × (ℕ → ℕ) :=
  let reserve (p : GateLevelLayout × (ℕ → ℕ)) (pi : ℕ) : GateLevelLayout × (ℕ → ℕ) :=
    let (lyt, s) := p.1.createPi ((ntk.signalNames pi).getD "") (.at2 0 0)
    (lyt, Function.update p.2 pi (lyt.getNode s))
  let (lyt, piMap) := ntk.foreachPi.foldl reserve (lyt, fun _ => 0)
  ((lyt.moveNode (lyt.getNode (.at2 0 0)) default []).1, piMap)

variable (pi2node : ℕ → ℕ) (st : PlacementState)

def placePi (n : ℕ) : PlacementState :=
  let t := Ucoord.at2 0 st.latestPos.y
  let (cv, s) := st.canvas.put t (st.canvas.layout.moveNode (pi2node n) t [])
  if firstFanoutIs ntk V ctn .south n then
    let (cv, a) := cv.wireEast t st.latestPos
    let (cv, s) := cv.createBuf a st.latestPos
    { st with
      canvas := cv
      node2pos := Function.update st.node2pos n s
      latestPos := .at2 (st.latestPos.x + 1) (st.latestPos.y + 1) }
  else
    { st with
      canvas := cv
      node2pos := Function.update st.node2pos n s
      latestPos := .at2 st.latestPos.x (st.latestPos.y + 1) }

/-- Gates with a single fan-in must not be without a colour. -/
def placeUnary (n pre : ℕ) : Option PlacementState :=
  let preT := st.node2pos pre
  match ctn.color n with
  | some .east => do
    let (cv, s) ← st.canvas.connectAndPlace ntk (.at2 st.latestPos.x preT.y) n preT
    some { st with
      canvas := cv
      node2pos := Function.update st.node2pos n s
      latestPos := .at2 (st.latestPos.x + 1) st.latestPos.y }
  | some .south => do
    let (cv, s) ← st.canvas.connectAndPlace ntk (.at2 preT.x st.latestPos.y) n preT
    some { st with
      canvas := cv
      node2pos := Function.update st.node2pos n s
      latestPos := .at2 st.latestPos.x (st.latestPos.y + 1) }
  | none => none

def placeBinaryGate (n : ℕ) (fc : FaninContainer) : Option PlacementState := do
  let pre₁ ← fc.faninNodes[0]?
  let pre₂ ← fc.faninNodes[1]?
  let pre₁ := st.node2pos pre₁
  let pre₂ := st.node2pos pre₂
  let lyt := st.canvas.layout
  match ctn.color n with
  | some .east =>
    let (pre₁, pre₂) := if pre₂.y < pre₁.y then (pre₂, pre₁) else (pre₁, pre₂)
    let t := Ucoord.at2 st.latestPos.x pre₂.y
    let (cv, pre₁) := st.canvas.wireEast pre₁ (.at2 (t.x + 1) pre₁.y)
    let (cv, s) ← cv.connectAndPlaceBinary ntk eastFirst t n pre₁ pre₂ fc.constantFanin
    some { st with
      canvas := cv
      node2pos := Function.update st.node2pos n s
      latestPos := .at2 (st.latestPos.x + 1) st.latestPos.y }
  | some .south =>
    let (pre₁, pre₂) := if pre₂.x > pre₁.x then (pre₂, pre₁) else (pre₁, pre₂)
    let t := Ucoord.at2 pre₁.x st.latestPos.y
    let (cv, pre₂) := st.canvas.wireSouth pre₂ (.at2 pre₂.x (t.y + 1))
    let (cv, s) ← cv.connectAndPlaceBinary ntk eastFirst t n pre₁ pre₂ fc.constantFanin
    some { st with
      canvas := cv
      node2pos := Function.update st.node2pos n s
      latestPos := .at2 st.latestPos.x (st.latestPos.y + 1) }
  | none =>
    let (pre₁, pre₂) := if !lyt.isEmptyTile (lyt.clocked.east pre₁) ||
      !lyt.isEmptyTile (lyt.clocked.south pre₂) then (pre₂, pre₁) else (pre₁, pre₂)
    let t := st.latestPos
    let (cv, pre₁) := st.canvas.wireEast pre₁ (.at2 (t.x + 1) pre₁.y)
    let (cv, pre₂) := cv.wireSouth pre₂ (.at2 pre₂.x (t.y + 1))
    let (cv, s) ← cv.connectAndPlaceBinary ntk eastFirst t n pre₁ pre₂ fc.constantFanin
    some { st with
      canvas := cv
      node2pos := Function.update st.node2pos n s
      latestPos := .at2 (st.latestPos.x + 1) (st.latestPos.y + 1) }

def placePo (n : ℕ) : PlacementState :=
  let s := st.node2pos n
  let name := (ntk.outputNames st.poCounter).getD s!"po{st.poCounter}"
  let eastern := isEasternPoOrientationAvailable ntk V ctn n
  let poTile := if eastern then st.canvas.layout.clocked.east s else st.canvas.layout.clocked.south s
  let (cv, a, poTile) := st.canvas.connectToBorder s poTile
  { st with
    canvas := (cv.put poTile (cv.layout.createPo a name poTile)).1
    latestPos := if eastern then .at2 (st.latestPos.x + 1) st.latestPos.y
      else .at2 st.latestPos.x (st.latestPos.y + 1)
    poCounter := st.poCounter + 1 }

def placeGate (n : ℕ) : Option PlacementState := do
  let fc ← fanins ntk n
  match fc.faninNodes with
  | [pre] => placeUnary ntk ctn st n pre
  | _ => placeBinaryGate ntk ctn eastFirst st n fc

def placeNode (n : ℕ) : Option PlacementState :=
  if isConstant n then some st
  else
    (if ntk.isPi n then some (placePi ntk V ctn pi2node st n)
      else placeGate ntk ctn eastFirst st n).map fun st =>
        if ntk.isPo n then placePo ntk V ctn st n else st

def clockedLayout (clks : NumClks) (arrangement : Arrangement) : ClockedLayout :=
  ⟨⟨determineLayoutSize ntk V T ctn, arrangement⟩, (NamedScheme.twoddwaveClocking clks).clocking⟩

/-- The placement loop. -/
def run (clks : NumClks) (arrangement : Arrangement) : Option PlacementState :=
  let (lyt, pi2node) :=
    reserveInputNodes ntk (.empty (clockedLayout ntk V T ctn clks arrangement) "")
  (nodes ntk T).foldlM (placeNode ntk V ctn eastFirst pi2node)
    ⟨⟨lyt, []⟩, fun _ => .at2 0 0, .at2 1 0, 0⟩

end Placement

end Orthogonal
end Fiction
