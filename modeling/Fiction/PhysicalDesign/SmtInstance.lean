import Fiction.Layouts.ClockingSchemes
import Fiction.Layouts.GateLevelLayout
import Fiction.PhysicalDesign.AspectRatioIterator
import Fiction.PhysicalDesign.SpecificationNetwork

/-!
# SMT instances of the exact approach

Each generator is the conjunction of the constraints that it adds under a given assignment of the
variables, for the tiles that a check point names as added or updated. Generators that also add
assumptions for the single next solver call tell both sinks apart. Constraints over a border that
may still move are tracked by the literals `e` and `s`.
-/

namespace Fiction

inductive TechnologyConstraints
  | none
  | topolinano
  deriving DecidableEq, Repr

/-- The parameters of `exact`. The layout type fixes the arrangement and whether there are
synchronization elements. -/
structure ExactParams where
  arrangement : Arrangement
  hasSynchronizationElements : Bool
  scheme : NamedScheme
  upperBound : ℕ
  upperBound_lt : upperBound < 2 ^ 16
  crossings : Bool
  ioPins : Bool
  borderIo : Bool
  synchronizationElements : Bool
  straightInverters : Bool
  desynchronize : Bool
  technologySpecifics : TechnologyConstraints

namespace ExactParams

theorem hundred_lt : 100 < 2 ^ 16 := by decide

def layout (p : ExactParams) (ar : AspectRatio) : ClockedLayout :=
  ⟨⟨.at3 ar.x ar.y (if p.crossings then 1 else 0), p.arrangement⟩, p.scheme.clocking⟩

def isClockingScheme (p : ExactParams) (name : ClockName) : Bool := p.scheme.name = name

def isRegularlyClocked (p : ExactParams) : Bool := p.scheme.clocking.regular

end ExactParams

/-- Values of the variables. The clock number of a node is one-hot encoded, as is that of a tile. -/
structure Assignment where
  tn : Tile → ℕ → Bool
  te : Tile → Edge → Bool
  tc : Tile → Tile → Bool
  tp : Tile → Tile → Bool
  ncl : ℕ → ℕ → Bool
  tcl : Tile → ℕ → Bool
  tse : Tile → ℤ

structure CheckPoint where
  ar : AspectRatio
  addedTiles : List Tile
  updatedTiles : List Tile

/-- Constraints are asserted for good, or assumed for one solver call. -/
inductive Sink
  | solver
  | assumptions
  deriving DecidableEq, Repr

def atleast (bs : List Bool) (k : ℕ) : Prop := k ≤ bs.count true
  deriving Decidable

def atmost (bs : List Bool) (k : ℕ) : Prop := bs.count true ≤ k
  deriving Decidable

def exactly (bs : List Bool) (k : ℕ) : Prop := atleast bs k ∧ atmost bs k
  deriving Decidable

def someOf (ts : List Tile) (P : Tile → Prop) : Prop := ts ≠ [] → ∃ t ∈ ts, P t

instance (ts : List Tile) (P : Tile → Prop) [DecidablePred P] : Decidable (someOf ts P) :=
  inferInstanceAs (Decidable (_ → _))

namespace Exact

section Network

variable (S : SpecificationNetwork) (p : ExactParams)

def skipConstOrIoNode (n : ℕ) : Bool :=
  TechnologyNetwork.isConstant n || ((S.ntk.isPi n || S.ntk.isPo n) && !p.ioPins)

def skipConstOrIoEdge (e : Edge) : Bool :=
  skipConstOrIoNode S p e.source || skipConstOrIoNode S p e.target

def placedNodes : List ℕ := S.foreachNode.filter fun n => !skipConstOrIoNode S p n

def placedEdges : List Edge := S.foreachEdge.filter fun e => !skipConstOrIoEdge S p e

def networkInDegree (n : ℕ) : ℕ :=
  (S.foreachFanin n).countP fun fn => !skipConstOrIoNode S p fn

def networkOutDegree (n : ℕ) : ℕ := (S.fanouts n).countP fun fn => !skipConstOrIoNode S p fn

end Network

section Tiles

variable (p : ExactParams) (cp : CheckPoint)

def layout : ClockedLayout := p.layout cp.ar

def addedAndUpdatedTiles : List Tile := cp.addedTiles ++ cp.updatedTiles

/-- Where information may go from `t`. An irregular clocking admits all neighbours. -/
def fanoutTiles (t : Tile) : List Tile :=
  if p.isRegularlyClocked then (layout p cp).outgoingClockedZones t
  else (layout p cp).adjacentCoordinates t

def faninTiles (t : Tile) : List Tile :=
  if p.isRegularlyClocked then (layout p cp).incomingClockedZones t
  else (layout p cp).adjacentCoordinates t

/-- `mk_as_if_se`: the constraint is tracked by the literals of the borders at which `t` lies. -/
def mkAsIfSe (e s : Bool) (t : Tile) (constraint : Prop) : Prop :=
  ((layout p cp).isAtEasternBorder t → e) → ((layout p cp).isAtSouthernBorder t → s) → constraint

instance (e s : Bool) (t : Tile) (c : Prop) [Decidable c] : Decidable (mkAsIfSe p cp e s t c) :=
  inferInstanceAs (Decidable (_ → _))

end Tiles

variable (S : SpecificationNetwork) (p : ExactParams) (cp : CheckPoint) (v : Assignment)
  (e s : Bool)

def tns (t : Tile) : List Bool := (placedNodes S p).map (v.tn t)

def tes (t : Tile) : List Bool := (placedEdges S p).map (v.te t)

def restrictTileElements : Prop :=
  ∀ t ∈ cp.addedTiles,
    if p.crossings then
      atmost (tns S p v t) 1 ∧ atmost (tes S p v t) 2 ∧
        (atleast (tns S p v t) 1 → atmost (tes S p v t) 0) ∧
        (atleast (tes S p v t) 1 → atmost (tns S p v t) 0)
    else atmost (tns S p v t ++ tes S p v t) 1
  deriving Decidable

def restrictVertices : Prop :=
  ∀ n ∈ placedNodes S p,
    (e ∧ s → atleast ((layout p cp).foreachGroundTile.map fun t => v.tn t n) 1) ∧
      atmost ((layout p cp).foreachGroundTile.map fun t => v.tn t n) 1
  deriving Decidable

def restrictClocks : Prop :=
  ∀ t ∈ cp.addedTiles, exactly ((List.range (layout p cp).numClocks).map (v.tcl t)) 1
  deriving Decidable

/-- `mk_clk_mod`: `t2` is clocked right after `t1`. -/
def mkClkMod (t1 t2 : Tile) : Prop :=
  ∀ i ∈ List.range (layout p cp).numClocks,
    v.tcl t1 i → v.tcl t2 ((i + 1) % (layout p cp).numClocks)
  deriving Decidable

/-- Edge `ed` continues from `t` to the adjacent tile `at'` or reaches its target there. -/
def continues (ed : Edge) (t at' : Tile) : Prop :=
  (v.tn at' ed.target ∨ v.te at' ed) ∧ (p.isRegularlyClocked = false → mkClkMod p cp v t at') ∧
    v.tc t at'
  deriving Decidable

/-- Edge `ed` comes from the adjacent tile `iat` or from its source there. -/
def arrives (ed : Edge) (t iat : Tile) : Prop :=
  (v.tn iat ed.source ∨ v.te iat ed) ∧ (p.isRegularlyClocked = false → mkClkMod p cp v iat t) ∧
    v.tc iat t
  deriving Decidable

def defineGateFanoutTiles : Prop :=
  ∀ t ∈ addedAndUpdatedTiles cp, ∀ n ∈ placedNodes S p,
    mkAsIfSe p cp e s t (v.tn t n → ∀ ae ∈ S.foreachOutgoingEdge n,
      skipConstOrIoEdge S p ae = false → someOf (fanoutTiles p cp t) (continues p cp v ae t))
  deriving Decidable

def defineGateFaninTiles : Prop :=
  ∀ t ∈ addedAndUpdatedTiles cp, ∀ n ∈ placedNodes S p,
    mkAsIfSe p cp e s t (v.tn t n → ∀ iae ∈ S.foreachIncomingEdge n,
      skipConstOrIoEdge S p iae = false → someOf (faninTiles p cp t) (arrives p cp v iae t))
  deriving Decidable

def defineWireFanoutTiles : Prop :=
  ∀ t ∈ addedAndUpdatedTiles cp, ∀ ed ∈ placedEdges S p,
    mkAsIfSe p cp e s t (v.te t ed → someOf (fanoutTiles p cp t) (continues p cp v ed t))
  deriving Decidable

def defineWireFaninTiles : Prop :=
  ∀ t ∈ addedAndUpdatedTiles cp, ∀ ed ∈ placedEdges S p,
    mkAsIfSe p cp e s t (v.te t ed → someOf (faninTiles p cp t) (arrives p cp v ed t))
  deriving Decidable

def establishSubPaths : Prop :=
  ∀ t ∈ (layout p cp).foreachGroundTile, ∀ at' ∈ fanoutTiles p cp t,
    t ∈ cp.addedTiles ∨ at' ∈ cp.addedTiles → v.tc t at' → v.tp t at'
  deriving Decidable

def establishTransitivePaths : Prop :=
  ∀ t1 ∈ (layout p cp).foreachGroundTile, ∀ t2 ∈ (layout p cp).foreachGroundTile,
    t1 ≠ t2 → ∀ t3 ∈ (layout p cp).foreachGroundTile, t2 ≠ t3 →
      t1 ∈ cp.addedTiles ∨ t2 ∈ cp.addedTiles ∨ t3 ∈ cp.addedTiles →
        v.tp t1 t2 ∧ v.tp t2 t3 → v.tp t1 t3
  deriving Decidable

def eliminateCycles : Prop := ∀ t ∈ cp.addedTiles, v.tp t t = false
  deriving Decidable

def assignClocking (n : ℕ) : Prop :=
  ∀ t ∈ cp.addedTiles,
    if p.isRegularlyClocked then v.tn t n → v.ncl n ((layout p cp).getClockNumber t)
    else ∀ i ∈ List.range (layout p cp).numClocks, v.tn t n → v.ncl n i = v.tcl t i
  deriving Decidable

def assignPiClockings : Prop :=
  (p.borderIo && p.scheme.isLinearScheme) = false →
    (∀ n ∈ S.foreachNode, exactly ((List.range (layout p cp).numClocks).map (v.ncl n)) 1) ∧
      if p.ioPins then ∀ pi ∈ S.ntk.foreachPi, assignClocking p cp v pi
      else ∀ pi ∈ S.ntk.foreachPi, ∀ fn ∈ S.fanouts pi,
        skipConstOrIoNode S p fn = false → assignClocking p cp v fn
  deriving Decidable

def restrict2ddwaveEntryTiles (pi : ℕ) : Prop :=
  ∀ t ∈ cp.addedTiles,
    t.x > (layout p cp).numClocks - 1 ∨ t.y > (layout p cp).numClocks - 1 → v.tn t pi = false
  deriving Decidable

def nclToReal (n : ℕ) : ℤ :=
  (((List.range (layout p cp).numClocks).find? (v.ncl n)).getD (layout p cp).numClocks : ℕ)

def tileIteCounters (ed : Edge) : ℤ :=
  ((layout p cp).foreachGroundTile.map fun t =>
    if v.te t ed then
      if p.hasSynchronizationElements && p.synchronizationElements && !p.desynchronize then
        v.tse t * (layout p cp).numClocks + 1
      else 1
    else 0).sum

def edgeLength (ed : Edge) : ℤ :=
  (if p.ioPins && S.ntk.isPi ed.source || !p.ioPins && S.hasIncomingPrimaryInput ed.source then
    nclToReal p cp v ed.source else 0) + tileIteCounters p cp v ed

def pathLength (longest : ℕ) (path : List Edge) : ℤ :=
  ((path.length : ℤ) - longest) + (path.map (edgeLength S p cp v)).sum

/-- `mk_eq`: neighbours in the list are equal. -/
def mkEq (lengths : List ℤ) : Prop := lengths.IsChain (· = ·)

instance (lengths : List ℤ) : Decidable (mkEq lengths) :=
  inferInstanceAs (Decidable (lengths.IsChain _))

def defineLength (n : ℕ) : Prop :=
  e ∧ s → mkEq ((S.allIncomingEdgePaths n).map
    (pathLength S p cp v (((S.allIncomingEdgePaths n).map List.length).foldl max 0)))
  deriving Decidable

def globalSynchronization : Prop :=
  if p.borderIo && (p.isClockingScheme .twoddwave || p.isClockingScheme .twoddwaveHex) then
    if p.ioPins then ∀ pi ∈ S.ntk.foreachPi, restrict2ddwaveEntryTiles p cp v pi
    else ∀ pi ∈ S.ntk.foreachPi, ∀ fn ∈ S.fanouts pi, restrict2ddwaveEntryTiles p cp v fn
  else if p.borderIo && (p.isClockingScheme .columnar || p.isClockingScheme .row) then True
  else if p.ioPins then ∀ po ∈ S.ntk.foreachPo, defineLength S p cp v e s po
  else ∀ po ∈ S.ntk.foreachPo, ∀ fi ∈ S.foreachFanin po, defineLength S p cp v e s fi
  deriving Decidable

def assignBorder (n : ℕ) : Prop :=
  ∀ t ∈ addedAndUpdatedTiles cp, (layout p cp).isAtAnyBorder t = false → v.tn t n = false
  deriving Decidable

def assignNorth (n : ℕ) : Prop :=
  ∀ t ∈ cp.addedTiles, CoordinateLayout.isAtNorthernBorder t = false → v.tn t n = false
  deriving Decidable

def assignWest (n : ℕ) : Prop :=
  ∀ t ∈ cp.addedTiles, CoordinateLayout.isAtWesternBorder t = false → v.tn t n = false
  deriving Decidable

def assignEast (n : ℕ) : Prop :=
  ∀ t ∈ addedAndUpdatedTiles cp, (layout p cp).isAtEasternBorder t = false → v.tn t n = false
  deriving Decidable

def assignSouth (n : ℕ) : Prop :=
  ∀ t ∈ addedAndUpdatedTiles cp, (layout p cp).isAtSouthernBorder t = false → v.tn t n = false
  deriving Decidable

def assignInputBorder (n : ℕ) : Prop :=
  if p.isClockingScheme .columnar then assignWest cp v n
  else if p.isClockingScheme .row then assignNorth cp v n
  else assignBorder p cp v n
  deriving Decidable

def assignOutputBorder (n : ℕ) : Prop :=
  if p.isClockingScheme .columnar then assignEast p cp v n
  else if p.isClockingScheme .row then assignSouth p cp v n
  else assignBorder p cp v n
  deriving Decidable

def enforceBorderIo : Prop :=
  if p.ioPins then
    (∀ pi ∈ S.ntk.foreachPi, assignInputBorder p cp v pi) ∧
      ∀ po ∈ S.ntk.foreachPo, assignOutputBorder p cp v po
  else
    (∀ pi ∈ S.ntk.foreachPi, ∀ fon ∈ S.fanouts pi,
      skipConstOrIoNode S p fon = false → assignInputBorder p cp v fon) ∧
      ∀ po ∈ S.ntk.foreachPo, ∀ fin ∈ S.foreachFanin po,
        skipConstOrIoNode S p fin = false → assignOutputBorder p cp v fin
  deriving Decidable

def straight (t t1 t2 : Tile) : Prop :=
  ((layout p cp).isIncomingClocked t t1 ∧ (layout p cp).isOutgoingClocked t t2 ∨
    p.isRegularlyClocked = false) ∧ v.tc t1 t ∧ v.tc t t2
  deriving Decidable

def enforceStraightInverters : Prop :=
  ∀ t ∈ addedAndUpdatedTiles cp, ∀ inv ∈ S.foreachNode, S.ntk.isInv inv →
    skipConstOrIoNode S p inv = false →
      mkAsIfSe p cp e s t (v.tn t inv → ∃ c ∈ (layout p cp).adjacentOppositeCoordinates t,
        straight p cp v t c.1 c.2 ∨ straight p cp v t c.2 c.1)
  deriving Decidable

def restrictSynchronizationElements : Prop :=
  p.hasSynchronizationElements → ∀ t ∈ cp.addedTiles,
    0 ≤ v.tse t ∧ (atmost (tes S p v t) 0 → v.tse t = 0)
  deriving Decidable

def isAndOrMaj (n : ℕ) : Bool := S.ntk.isAnd n || S.ntk.isOr n || S.ntk.isMaj n

/-- No added tile hosts `n2` directly after a tile that hosts `n1`. -/
def prohibitSucceeding (n1 n2 : ℕ) : Prop :=
  ∀ t ∈ (layout p cp).foreachGroundTile, ∀ at' ∈ (layout p cp).outgoingClockedZones t,
    at' ∈ cp.addedTiles → v.tn t n1 → v.tn at' n2 = false
  deriving Decidable

def restrictFanout (fon : ℕ) : Prop :=
  (∀ afon ∈ S.fanouts fon, S.ntk.isFanout afon → prohibitSucceeding p cp v fon afon) ∧
    (networkInDegree S p fon ≠ 0 → ∀ t ∈ cp.addedTiles,
      if (layout p cp).northWest t ≠ t then
        (v.tn t fon → v.tc ((layout p cp).northWest t) t) ∧
          (v.tn t fon → atmost (tes S p v ((layout p cp).northWest t)) 1)
      else v.tn t fon = false)
  deriving Decidable

def restrictGate (n1 : ℕ) : Prop :=
  (∀ n2 ∈ S.fanouts n1,
    isAndOrMaj S n2 || S.ntk.isFanout n2 || S.ntk.isInv n2 && p.straightInverters →
      prohibitSucceeding p cp v n1 n2) ∧
    ∀ t ∈ (layout p cp).foreachGroundTile,
      ((layout p cp).northEast t ≠ t → v.tn t n1 →
        atmost (tes S p v ((layout p cp).northEast t)) 1) ∧
      ((layout p cp).southEast t ≠ t → (layout p cp).southEast t ∈ cp.addedTiles →
        v.tn t n1 → v.tc t ((layout p cp).southEast t) = false)
  deriving Decidable

def technologySpecificConstraints (sink : Sink) : Prop :=
  p.technologySpecifics = .topolinano →
    match sink with
    | .solver =>
      (∀ fon ∈ S.foreachGate, S.ntk.isFanout fon → restrictFanout S p cp v fon) ∧
        ∀ n1 ∈ S.foreachGate, isAndOrMaj S n1 → restrictGate S p cp v n1
    | .assumptions =>
      ∀ n1 ∈ S.foreachGate, isAndOrMaj S n1 → ∀ t ∈ (layout p cp).foreachGroundTile,
        (layout p cp).northEast t = t → v.tn t n1 = false

/-- `n` is not assigned to a tile with too few neighbours. -/
def insufficient (t : Tile) (n : ℕ) : Prop :=
  if p.isRegularlyClocked then
    ((layout p cp).outgoingClockedZones t).length < networkOutDegree S p n ∨
      ((layout p cp).incomingClockedZones t).length < networkInDegree S p n
  else ((layout p cp).adjacentCoordinates t).length <
    networkOutDegree S p n + networkInDegree S p n
  deriving Decidable

/-- Restrictions of tiles at a border that may still move are assumed only. -/
def preventInsufficiencies (sink : Sink) : Prop :=
  ∀ t ∈ (layout p cp).foreachGroundTile,
    (layout p cp).isAtEasternBorder t || (layout p cp).isAtSouthernBorder t ||
      cp.updatedTiles.contains t →
    (if (layout p cp).isAtEasternBorder t || (layout p cp).isAtSouthernBorder t then
      Sink.assumptions else Sink.solver) = sink →
      (∀ n ∈ placedNodes S p, insufficient S p cp t n → v.tn t n = false) ∧
        (p.isRegularlyClocked → ∀ ed ∈ placedEdges S p,
          ((layout p cp).outgoingClockedZones t).length = 0 ∨
            ((layout p cp).incomingClockedZones t).length = 0 → v.te t ed = false)
  deriving Decidable

/-- The connections that leave `t`. -/
def acc (t : Tile) : List Bool := (fanoutTiles p cp t).map (v.tc t)

/-- The connections that enter `t`. -/
def iacc (t : Tile) : List Bool := (faninTiles p cp t).map fun iat => v.tc iat t

def matchEdges (t : Tile) (cs : List Bool) (k : ℕ) : Prop :=
  mkAsIfSe p cp e s t (exactly (tes S p v t) k → exactly cs k)
  deriving Decidable

def crossingConnections (t : Tile) : Prop :=
  if (acc p cp v t).length < 2 ∨ (iacc p cp v t).length < 2 then
    mkAsIfSe p cp e s t (atmost (tes S p v t) 1)
  else (tes S p v t).length ≥ 2 →
    matchEdges S p cp v e s t (acc p cp v t) 2 ∧ matchEdges S p cp v e s t (iacc p cp v t) 2
  deriving Decidable

def edgeConnections (t : Tile) : Prop :=
  tes S p v t ≠ [] →
    (acc p cp v t ≠ [] → matchEdges S p cp v e s t (acc p cp v t) 1) ∧
    (iacc p cp v t ≠ [] → matchEdges S p cp v e s t (iacc p cp v t) 1) ∧
    (p.crossings → crossingConnections S p cp v e s t)
  deriving Decidable

def nodeConnections (t : Tile) : Prop :=
  ∀ n ∈ placedNodes S p,
    (acc p cp v t ≠ [] →
      mkAsIfSe p cp e s t (v.tn t n → exactly (acc p cp v t) (networkOutDegree S p n))) ∧
    (iacc p cp v t ≠ [] →
      mkAsIfSe p cp e s t (v.tn t n → exactly (iacc p cp v t) (networkInDegree S p n)))
  deriving Decidable

/-- Empty tiles have no connections, unless there is but one element to assign at all. -/
def emptyConnections (t : Tile) : Prop :=
  (tns S p v t ++ tes S p v t).length > 1 → acc p cp v t ++ iacc p cp v t ≠ [] →
    mkAsIfSe p cp e s t (atmost (tns S p v t ++ tes S p v t) 0 ↔
      atmost (acc p cp v t ++ iacc p cp v t) 0)
  deriving Decidable

def defineNumberOfConnections : Prop :=
  (∀ t ∈ addedAndUpdatedTiles cp, nodeConnections S p cp v e s t ∧
    edgeConnections S p cp v e s t ∧ emptyConnections S p cp v e s t) ∧
  (p.isRegularlyClocked = false → ∀ t ∈ cp.addedTiles, tns S p v t ++ tes S p v t ≠ [] →
    atmost (tns S p v t ++ tes S p v t) 0 → v.tcl t 0)
  deriving Decidable

/-- Neither `n` nor the edges `es` next to it are assigned to `t`. -/
def prohibit (t : Tile) (n : ℕ) (es : List Edge) : Prop :=
  v.tn t n = false ∧ ∀ ed ∈ es, v.te t ed = false
  deriving Decidable

def keptOutgoingEdges (n : ℕ) : List Edge :=
  (S.foreachOutgoingEdge n).filter fun ed => !skipConstOrIoEdge S p ed

def keptIncomingEdges (n : ℕ) : List Edge :=
  (S.foreachIncomingEdge n).filter fun ed => !skipConstOrIoEdge S p ed

/-- The first index of the source's loops towards the far border, in 64-bit arithmetic. -/
def farStart (bound il : ℕ) : ℕ := (bound + 1 + (2 ^ 64 - il)) % 2 ^ 64

/-- Nodes keep the distance of their level to the border at which the information enters, and that
of their inverse level to the opposite one. `tile i j` is the tile with index `i` in the direction
of the flow, which takes the values up to `along`, and index `j` across it. -/
def keepDistance (along across : ℕ) (tile : ℕ → ℕ → Tile) (sink : Sink) : Prop :=
  p.ioPins → p.borderIo → ∀ n ∈ placedNodes S p,
    match sink with
    | .solver =>
      ∀ i ∈ List.range (min (S.level n) along), ∀ j ∈ List.range (across + 1),
        tile i j ∈ cp.addedTiles → prohibit v (tile i j) n (keptOutgoingEdges S p n)
    | .assumptions =>
      ∀ i ∈ List.range along, farStart along (S.invLevels n) ≤ i →
        ∀ j ∈ List.range (across + 1), prohibit v (tile i j) n (keptIncomingEdges S p n)

def keepDistance2ddwave (sink : Sink) : Prop :=
  p.ioPins → p.borderIo → ∀ n ∈ placedNodes S p, ∀ t ∈ cp.addedTiles,
    match sink with
    | .solver => t.x + t.y < S.level n → prohibit v t n (S.foreachOutgoingEdge n)
    | .assumptions =>
      (layout p cp).x - t.x + (layout p cp).y - t.y < S.invLevels n →
        prohibit v t n (S.foreachIncomingEdge n)

def utilizeHierarchicalInformation (sink : Sink) : Prop :=
  (p.isClockingScheme .columnar →
    keepDistance S p cp v (layout p cp).x (layout p cp).y (fun i j => .at2 i j) sink) ∧
  (p.isClockingScheme .row →
    keepDistance S p cp v (layout p cp).y (layout p cp).x (fun i j => .at2 j i) sink) ∧
  (p.isClockingScheme .twoddwave → keepDistance2ddwave S p cp v sink)

/-- What `generate_smt_instance` adds to the solver. -/
structure Generated : Prop where
  restrictTileElements : restrictTileElements S p cp v
  restrictVertices : restrictVertices S p cp v e s
  defineGateFanoutTiles : defineGateFanoutTiles S p cp v e s
  defineGateFaninTiles : defineGateFaninTiles S p cp v e s
  defineWireFanoutTiles : defineWireFanoutTiles S p cp v e s
  defineWireFaninTiles : defineWireFaninTiles S p cp v e s
  assignPiClockings : p.desynchronize = false → assignPiClockings S p cp v
  globalSynchronization : p.desynchronize = false → globalSynchronization S p cp v e s
  restrictClocks : p.isRegularlyClocked = false → restrictClocks p cp v
  establishSubPaths : p.scheme.isLinearScheme = false → establishSubPaths p cp v
  establishTransitivePaths : p.scheme.isLinearScheme = false → establishTransitivePaths p cp v
  eliminateCycles : p.scheme.isLinearScheme = false → eliminateCycles cp v
  enforceBorderIo : p.borderIo → enforceBorderIo S p cp v
  enforceStraightInverters : p.straightInverters → enforceStraightInverters S p cp v e s
  restrictSynchronizationElements : p.synchronizationElements → p.desynchronize = false →
    restrictSynchronizationElements S p cp v
  technologySpecificConstraints : technologySpecificConstraints S p cp v .solver
  preventInsufficiencies : preventInsufficiencies S p cp v .solver
  defineNumberOfConnections : defineNumberOfConnections S p cp v e s
  utilizeHierarchicalInformation : utilizeHierarchicalInformation S p cp v .solver

structure Assumed : Prop where
  technologySpecificConstraints : technologySpecificConstraints S p cp v .assumptions
  preventInsufficiencies : preventInsufficiencies S p cp v .assumptions
  utilizeHierarchicalInformation : utilizeHierarchicalInformation S p cp v .assumptions

end Exact
end Fiction
