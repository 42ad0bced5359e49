import Fiction.Layouts.DataFlow
import Fiction.Layouts.GroundTiles
import Fiction.Layouts.Liveness
import Fiction.Layouts.OutputBookkeeping

/-!
# Design rule violations of gate-level layouts

`gateLevelDrvs` counts the violations and the warnings of a layout. The checks compare a node with
the tiles of the nodes that its children resolve to, whereas the data flow compares it with the
children themselves. The two agree except for children that resolve to a constant, whose dead tile
a hexagonal layout takes for one of its corners, and for crossings, whose clock numbers the data
flow reads in the layer of the node.
-/

namespace Fiction

namespace CoordinateLayout

variable (lyt : CoordinateLayout)

def isCrossingLayer (c : Ucoord) : Bool := c.z > 0

def foreachCoordinate : List Ucoord :=
  (List.range (lyt.z + 1)).flatMap fun z => (List.range (lyt.y + 1)).flatMap fun y =>
    (List.range (lyt.x + 1)).map fun x => .at3 x y z

end CoordinateLayout

namespace GateLevelLayout

section Checks

variable (lyt : GateLevelLayout)

def isRi (n : ℕ) : Bool :=
  ((lyt.outputs.drop lyt.numPos).take lyt.numRis).any fun p => lyt.getNode p = n

def checkedNodes : List ℕ := lyt.foreachNode.filter (!isConstant ·)

/-- The tiles of the nodes that the children of `n` resolve to. -/
def childTiles (n : ℕ) : List Tile := (lyt.node n).children.map fun c => lyt.getTile (lyt.getNode c)

def unplacedNodesCheck : ℕ := lyt.checkedNodes.countP fun n => (lyt.getTile n).isDead

def placedDeadNodesCheck : ℕ :=
  lyt.clocked.foreachCoordinate.countP fun t => !lyt.isEmptyTile t && lyt.isDead (lyt.getNode t)

def nonAdjacentConnectionsCheck : ℕ :=
  (lyt.checkedNodes.map fun n => (lyt.childTiles n).countP fun ct =>
    !lyt.clocked.isAdjacentElevationOf (lyt.getTile n) ct).sum

def danglingInpConnection (t : Tile) : Bool :=
  (lyt.incomingDataFlow t).isEmpty && !lyt.isPi (lyt.getNode t) && !lyt.isRo (lyt.getNode t)

def danglingOutConnection (t : Tile) : Bool :=
  (lyt.outgoingDataFlow t).isEmpty && !lyt.isPo (lyt.getNode t) && !lyt.isRi (lyt.getNode t) &&
    !lyt.isRo (lyt.getNode { t with x := t.x + 1 })

def missingConnectionsCheck : ℕ :=
  lyt.checkedNodes.countP fun n =>
    lyt.danglingOutConnection (lyt.getTile n) || lyt.danglingInpConnection (lyt.getTile n)

def crossingGatesCheck : ℕ :=
  lyt.foreachWire.countP fun w => CoordinateLayout.isCrossingLayer (lyt.getTile w) &&
    !lyt.isWireTile (CoordinateLayout.below (lyt.getTile w))

def clockedDataFlowCheck : ℕ :=
  (lyt.checkedNodes.map fun n => (lyt.childTiles n).countP fun ct =>
    !lyt.clocked.isIncomingClocked (lyt.getTile n) ct).sum

def hasIoCheck : ℕ :=
  (if lyt.numPis ≠ lyt.foreachPi.length ∨ lyt.numPis = 0 ∨ lyt.foreachPi.length = 0 then 1 else 0) +
  if lyt.numPos ≠ lyt.foreachPo.length ∨ lyt.numPos = 0 ∨ lyt.foreachPo.length = 0 then 1 else 0

def ioNodes : List ℕ := lyt.foreachPi ++ lyt.foreachPo.map lyt.getNode

def emptyIoCheck : ℕ := lyt.ioNodes.countP fun io => lyt.isEmptyTile (lyt.getTile io)

def ioPinCheck : ℕ := lyt.ioNodes.countP fun io => !lyt.isWire io

def borderIoCheck : ℕ :=
  lyt.ioNodes.countP fun io => !lyt.clocked.isAtAnyBorder (lyt.getTile io)

end Checks

/-- The checks that are to be executed. -/
structure GateLevelDrvParams where
  unplacedNodes : Bool := true
  placedDeadNodes : Bool := true
  nonAdjacentConnections : Bool := true
  missingConnections : Bool := true
  crossingGates : Bool := true
  clockedDataFlow : Bool := true
  hasIo : Bool := true
  emptyIo : Bool := true
  ioPins : Bool := true
  borderIo : Bool := true

structure GateLevelDrvStats where
  drvs : ℕ
  warnings : ℕ

/-- The result of a check that is executed only on request. -/
def onRequest (requested : Bool) (violations : ℕ) : ℕ := if requested then violations else 0

def gateLevelDrvs (lyt : GateLevelLayout) (ps : GateLevelDrvParams) : GateLevelDrvStats where
  drvs := onRequest ps.nonAdjacentConnections lyt.nonAdjacentConnectionsCheck +
    onRequest ps.missingConnections lyt.missingConnectionsCheck +
    onRequest ps.crossingGates lyt.crossingGatesCheck +
    onRequest ps.clockedDataFlow lyt.clockedDataFlowCheck +
    onRequest ps.hasIo lyt.hasIoCheck + onRequest ps.emptyIo lyt.emptyIoCheck
  warnings := onRequest ps.unplacedNodes lyt.unplacedNodesCheck +
    onRequest ps.placedDeadNodes lyt.placedDeadNodesCheck +
    onRequest ps.ioPins lyt.ioPinCheck + onRequest ps.borderIo lyt.borderIoCheck

/-- The node is placed, and its incoming data flow consists of its stored children, which lie on
adjacent occupied tiles that are clocked into its tile. -/
structure FollowsNetlist (lyt : GateLevelLayout) (n : ℕ) : Prop where
  placed : lyt.isPlaced n = true
  dataFlow : ∀ s, s ∈ lyt.incomingDataFlow (lyt.getTile n) ↔ s ∈ (lyt.node n).children
  hosts : ∀ c ∈ (lyt.node n).children, lyt.isEmptyTile c = false
  adjacent : ∀ c ∈ (lyt.node n).children,
    lyt.clocked.isAdjacentElevationOf (lyt.getTile n) c = true
  clocked : ∀ c ∈ (lyt.node n).children, lyt.clocked.isIncomingClocked (lyt.getTile n) c = true

/-- Every living node follows the stored netlist. -/
def Sound (lyt : GateLevelLayout) : Prop := ∀ n ∈ lyt.checkedNodes, lyt.FollowsNetlist n

/-- Where the tile of a living node takes the dead tile of a constant for a neighbour that is clocked
into it, no child of the node resolves to that constant. -/
def NoCornerChild (lyt : GateLevelLayout) : Prop :=
  ∀ n ∈ lyt.checkedNodes, ∀ k ≤ 1,
    lyt.clocked.isAdjacentElevationOf (lyt.getTile n) (lyt.getTile k) = true →
    lyt.clocked.isIncomingClocked (lyt.getTile n) (lyt.getTile k) = true →
    ∀ c ∈ (lyt.node n).children, lyt.getNode c ≠ k

/-- The positions of children in other layers are clocked into a living node in its own layer, too. -/
def CrossingsClocked (lyt : GateLevelLayout) : Prop :=
  ∀ n ∈ lyt.checkedNodes, ∀ c ∈ (lyt.node n).children, c.z ≠ (lyt.getTile n).z →
    lyt.FeedsInLayer c (lyt.getTile n) (lyt.getTile n).z

end GateLevelLayout

namespace CoordinateLayout

variable {lyt : CoordinateLayout}

theorem isAdjacentOf_iff {e c : Ucoord} (he : lyt.Inside e) (hc : c.isDead = false) :
    lyt.isAdjacentOf e c = true ↔ c ∈ lyt.adjacentCoordinates e := by
  by_cases ha : lyt.arrangement = .cartesian
  · simp only [isAdjacentOf, adjacentCoordinates, ha, List.any_eq_true, List.mem_filter,
      decide_eq_true_eq]
    constructor
    · rintro ⟨x, hx, hne, rfl⟩
      exact ⟨hx, fun h => hne h.symm⟩
    · rintro ⟨hx, hne⟩
      exact ⟨c, hx, fun h => hne h.symm, rfl⟩
  · rw [isAdjacentOf_hex ha, List.any_eq_true]
    constructor
    · rintro ⟨x, hx, hxc⟩
      simp only [Bool.and_eq_true, Bool.not_eq_true'] at hxc
      have hxd : x.isDead = false := (adjacentCoordinates_inside he hx).1.live
      rwa [← Ucoord.eq_of_not_lt (hxd.trans hc.symm) hxc.1 hxc.2]
    · intro h
      exact ⟨c, h, by simp [Ucoord.lt_irrefl]⟩

theorem mem_adjacentCoordinates_layer {t c : Ucoord} (ht : lyt.Inside t) (hc : lyt.Inside c)
    {z : ℕ} (hz : z ≤ lyt.z) :
    c ∈ lyt.adjacentCoordinates { t with z := z } ↔ c.z = z ∧ lyt.Beside t c := by
  have hi : lyt.Inside { t with z := z } := ⟨ht.live, ht.x_le, ht.y_le, hz⟩
  have hbeside : lyt.Beside { t with z := z } c ↔ lyt.Beside t c := by
    by_cases ha : lyt.arrangement = .cartesian
    · rw [beside_cartesian_iff ha hi hc, beside_cartesian_iff ha ht hc]
    · rw [beside_hex_iff ha hi hc, beside_hex_iff ha ht hc]
      refine exists_congr fun dir => and_congr_right fun _ => ?_
      unfold hexNeighbour toCubeCoordinate toOffsetCoordinate
      by_cases hp : isPointyTop lyt.arrangement = true <;>
        simp [hp, Ucoord.at2]
  rw [← hbeside]
  constructor
  · intro h
    have hcz : c.z = z := (adjacentCoordinates_inside hi h).2
    refine ⟨hcz, ?_⟩
    have he : ({ c with z := z } : Ucoord) = c := by rw [← hcz]
    simpa only [Beside, he] using h
  · rintro ⟨rfl, h⟩
    exact h

theorem isAdjacentElevationOf_iff {t c : Ucoord} (ht : lyt.Inside t) (hc : lyt.Inside c) :
    lyt.isAdjacentElevationOf t c = true ↔
      lyt.Beside t c ∧ c.z ≤ t.z + 1 ∧ t.z ≤ c.z + 1 := by
  have hlayer : ∀ z ≤ lyt.z, lyt.isAdjacentOf { t with z := z } c = true ↔
      c.z = z ∧ lyt.Beside t c := fun z hz => by
    have hi : lyt.Inside { t with z := z } := ⟨ht.live, ht.x_le, ht.y_le, hz⟩
    rw [isAdjacentOf_iff hi hc.live, mem_adjacentCoordinates_layer ht hc hz]
  have htz := ht.z_le
  have hcz := hc.z_le
  have hself := hlayer t.z htz
  have habove : lyt.above t = { t with z := if t.z < lyt.z then t.z + 1 else t.z } := by
    obtain ⟨dt, zt, yt, xt⟩ := t
    simp only [above] at htz ⊢
    rw [if_neg (by omega)]
    split_ifs <;> rfl
  have hbelow : below t = { t with z := t.z - 1 } := by
    obtain ⟨dt, zt, yt, xt⟩ := t
    unfold below
    split_ifs with h
    · simp only at h
      simp [h]
    · rfl
  have hup := hlayer (if t.z < lyt.z then t.z + 1 else t.z) (by split_ifs <;> omega)
  have hdown := hlayer (t.z - 1) (by omega)
  simp only [isAdjacentElevationOf, Bool.or_eq_true, habove, hbelow]
  rw [show lyt.isAdjacentOf t c = lyt.isAdjacentOf { t with z := t.z } c from rfl, hself, hup, hdown]
  constructor
  · rintro ((⟨h, hb⟩ | ⟨h, hb⟩) | ⟨h, hb⟩)
    · exact ⟨hb, by omega, by omega⟩
    · exact ⟨hb, by split_ifs at h <;> omega, by split_ifs at h <;> omega⟩
    · exact ⟨hb, by omega, by omega⟩
  · rintro ⟨hb, h₁, h₂⟩
    rcases Nat.lt_trichotomy c.z t.z with h | h | h
    · exact .inr ⟨by omega, hb⟩
    · exact .inl (.inl ⟨h, hb⟩)
    · refine .inl (.inr ⟨?_, hb⟩)
      split_ifs <;> omega

end CoordinateLayout

namespace GateLevelLayout

variable {lyt lyt' : GateLevelLayout}

section Constants

/-- The constants have no children and are no inputs. -/
structure ConstantsInv (lyt : GateLevelLayout) : Prop where
  children : ∀ k ≤ 1, (lyt.node k).children = []
  inputs : ∀ i ∈ lyt.inputs, 2 ≤ i

theorem CreateSpec.children_constant {t : Tile} {cs : List Signal} {res : Signal → ℕ}
    (hs : CreateSpec lyt t cs res lyt') (hi : MapsInv lyt) {k : ℕ} (hk : k ≤ 1) :
    (lyt'.node k).children = (lyt.node k).children := by
  have h2 := hi.two_le_size
  rw [hs.children k (by omega), if_neg (by omega)]

theorem apply_constantsInv (hc : ConstantsInv lyt) (hi : MapsInv lyt) (op : Op)
    (hd : lyt.Defined op) : ConstantsInv (lyt.apply op) := by
  have h2 := hi.two_le_size
  have happend : ∀ i ∈ lyt.inputs ++ [lyt.size], 2 ≤ i := by
    intro i hmem
    rcases List.mem_append.mp hmem with h | h
    · exact hc.inputs i h
    · rw [List.mem_singleton.mp h]
      exact h2
  cases op with
  | createPi name t =>
    refine ⟨fun k hk => ?_, ?_⟩
    · exact ((createPi_spec hi name t).children_constant hi hk).trans (hc.children k hk)
    · have h := (@createPi_sameIo lyt name t).inputs
      simpa only [apply, h] using happend
  | createRo name t =>
    refine ⟨fun k hk => ?_, ?_⟩
    · exact ((createRo_spec hi name t).children_constant hi hk).trans (hc.children k hk)
    · have h := (@createRo_sameIo lyt name t).inputs
      simpa only [apply, h] using happend
  | createPo s name t =>
    refine ⟨fun k hk => ?_, ?_⟩
    · exact ((createPo_spec hi s name t).children_constant hi hk).trans (hc.children k hk)
    · have h := (@createPo_sameIo lyt s name t).inputs
      simpa only [apply, h] using hc.inputs
  | createRi s name t =>
    refine ⟨fun k hk => ?_, ?_⟩
    · exact ((createRi_spec hi s name t).children_constant hi hk).trans (hc.children k hk)
    · have h := (@createRi_sameIo lyt s name t).inputs
      simpa only [apply, h] using hc.inputs
  | createNode children function t =>
    by_cases he : children = []
    · rw [he]
      exact hc
    · refine ⟨fun k hk => ?_, ?_⟩
      · exact ((createNode_spec hi he function t).children_constant hi hk).trans (hc.children k hk)
      · have h := (@createNode_sameIo lyt children function t).inputs
        simpa only [apply, h] using hc.inputs
  | moveNode n t newChildren =>
    refine ⟨fun k hk => ?_, ?_⟩
    · have hn : 2 ≤ n := hd.1
      exact ((moveNode_spec hi hd t newChildren).children k (by omega)).trans
        ((if_neg (by omega)).trans (hc.children k hk))
    · obtain ⟨l, hl, he⟩ := Tracked.moveNode_sameIo lyt n t newChildren
      simpa only [apply, he, updateOutputs, hl.inputs] using hc.inputs

theorem run_constantsInv {clocked : ClockedLayout} {name : String} {ops : List Op}
    (h : (system clocked name).Legal ops) : ConstantsInv ((system clocked name).run ops) := by
  have hinit : ConstantsInv (empty clocked name) := by
    refine ⟨fun k hk => ?_, by simp [empty]⟩
    obtain rfl | rfl : k = 0 ∨ k = 1 := by omega
    all_goals rfl
  exact ((system clocked name).invariant_run (I := fun l => ConstantsInv l ∧ PlacementInv l)
    ⟨hinit, empty_placementInv clocked name⟩
    (fun _ op hi ho => ⟨apply_constantsInv hi.1 hi.2.toMapsInv op ho,
      apply_placementInv hi.2 op ho⟩) h).1

end Constants

section Soundness

theorem mem_checkedNodes {n : ℕ} :
    n ∈ lyt.checkedNodes ↔ n < lyt.size ∧ lyt.isDead n = false ∧ 2 ≤ n := by
  simp only [checkedNodes, foreachNode, isConstant, List.mem_filter, List.mem_range,
    Bool.not_eq_true', decide_eq_false_iff_not, not_le, and_assoc]
  rfl

theorem sum_countP_eq_zero {α β : Type*} {l : List α} {f : α → List β} {p : α → β → Bool}
    (h : (l.map fun a => (f a).countP (p a)).sum = 0) : ∀ a ∈ l, ∀ b ∈ f a, p a b = false := by
  intro a ha b hb
  have h0 : (f a).countP (p a) = 0 :=
    Nat.eq_zero_of_le_zero (h ▸ List.le_sum_of_mem (List.mem_map_of_mem ha))
  simpa using List.countP_eq_zero.mp h0 b hb

theorem checks_of_drvs_eq_zero (h : (lyt.gateLevelDrvs {}).drvs = 0) :
    lyt.nonAdjacentConnectionsCheck = 0 ∧ lyt.missingConnectionsCheck = 0 ∧
      lyt.clockedDataFlowCheck = 0 := by
  simp only [gateLevelDrvs, onRequest, if_true] at h
  omega

theorem incomingDataFlow_live {t s : Tile} (ht : lyt.clocked.Inside t)
    (hs : s ∈ lyt.incomingDataFlow t) : s.isDead = false := by
  obtain ⟨i, hi, hs'⟩ := List.mem_flatMap.mp (OrderedSet.mem_of_mem_ofList hs)
  have hin := CoordinateLayout.adjacentCoordinates_inside ht (List.mem_filter.mp hi).1
  exact layersAround_live hin.1 (List.mem_filter.mp hs').1

theorem isChild_of_mem_incomingDataFlow {t s : Tile} (hs : s ∈ lyt.incomingDataFlow t) :
    s ∈ (lyt.node (lyt.getNode t)).children := by
  obtain ⟨i, -, hs'⟩ := List.mem_flatMap.mp (OrderedSet.mem_of_mem_ofList hs)
  simpa [isChild] using (List.mem_filter.mp hs').2

theorem MapsInv.getNode_dead_le (hi : MapsInv lyt) {t : Tile} (ht : t.isDead = true) :
    lyt.getNode t ≤ 1 := by
  unfold getNode
  cases hm : lyt.tileNodeMap t with
  | none => exact Nat.zero_le 1
  | some m => exact hi.dead_tile t m ht hm

theorem isPlaced_of_missingConnectionsCheck (hi : MapsInv lyt) (hc : ConstantsInv lyt)
    (h : lyt.missingConnectionsCheck = 0) {n : ℕ} (hn : n ∈ lyt.checkedNodes) :
    lyt.isPlaced n = true := by
  by_contra hp
  have hp' : lyt.isPlaced n = false := by simpa using hp
  have ht := hi.getTile_of_not_placed (mem_checkedNodes.mp hn).2.2 hp'
  have hk : lyt.getNode default ≤ 1 := hi.getNode_dead_le rfl
  have hin : lyt.getNode default ∉ lyt.inputs := fun hm => by
    have := hc.inputs _ hm
    omega
  have hempty : lyt.incomingDataFlow default = [] := by
    refine List.eq_nil_iff_forall_not_mem.mpr fun s hs => ?_
    have := isChild_of_mem_incomingDataFlow hs
    simp [hc.children _ hk] at this
  have hpi : lyt.isPi (lyt.getNode default) = false := by
    simpa [isPi] using fun hm => hin (List.mem_of_mem_take hm)
  have hro : lyt.isRo (lyt.getNode default) = false := by
    simpa [isRo] using fun hm => hin (List.mem_of_mem_drop (List.mem_of_mem_take hm))
  have hd : lyt.danglingInpConnection (lyt.getTile n) = true := by
    rw [ht, danglingInpConnection, hempty, hpi, hro]
    rfl
  have := List.countP_eq_zero.mp h n hn
  simp [hd] at this

theorem MapsInv.getTile_getNode (hi : MapsInv lyt) {c : Signal} (hc : 2 ≤ lyt.getNode c) :
    lyt.isPlaced (lyt.getNode c) = true ∧ lyt.getTile (lyt.getNode c) = c := by
  have hd : c.isDead = false := Bool.eq_false_iff.mpr fun hd => by
    have := hi.getNode_dead_le hd
    omega
  have he : lyt.isEmptyTile c = false := by
    simp only [isEmptyTile, decide_eq_false_iff_not]
    omega
  have ht := (hi.getTile_eq_iff hd).mp (tileNodeMap_getNode he)
  refine ⟨?_, ht⟩
  rw [isPlaced, ht, hd]
  rfl

theorem getNode_getTile (hi : MapsInv lyt) {n : ℕ} (hp : lyt.isPlaced n = true) :
    lyt.getNode (lyt.getTile n) = n :=
  getNode_eq_of_map ((hi.getTile_eq_iff (live_of_isPlaced hp)).mpr rfl)

theorem Sound.noCornerChild (hs : Sound lyt) (hi : MapsInv lyt)
    (hin : ∀ n, lyt.isPlaced n = true → lyt.clocked.Inside (lyt.getTile n)) :
    NoCornerChild lyt := by
  intro n hn k hk _ _ c hc hck
  have hf := hs n hn
  have hhost := hf.hosts c hc
  have hlive := incomingDataFlow_live (hin n hf.placed) ((hf.dataFlow c).mpr hc)
  have := (hi.live_node c _ hlive (tileNodeMap_getNode hhost)).1
  omega

theorem FollowsNetlist.two_le_getNode {n : ℕ} (hf : FollowsNetlist lyt n) (hi : MapsInv lyt)
    (hin : lyt.clocked.Inside (lyt.getTile n)) {c : Signal} (hc : c ∈ (lyt.node n).children) :
    2 ≤ lyt.getNode c :=
  (hi.live_node c _ (incomingDataFlow_live hin ((hf.dataFlow c).mpr hc))
    (tileNodeMap_getNode (hf.hosts c hc))).1

theorem Sound.crossingsClocked (hs : Sound lyt) (hi : MapsInv lyt)
    (hin : ∀ n, lyt.isPlaced n = true → lyt.clocked.Inside (lyt.getTile n)) :
    CrossingsClocked lyt := by
  intro n hn c hc _
  have hf := hs n hn
  have hn' := hin n hf.placed
  obtain ⟨hp, ht⟩ := hi.getTile_getNode (hf.two_le_getNode hi hn' hc)
  have hc' : lyt.clocked.Inside c := ht ▸ hin _ hp
  exact ((mem_incomingDataFlow_iff hn' hc').mp ((hf.dataFlow c).mpr hc)).2

theorem sound_of_checks (hi : MapsInv lyt) (hc : ConstantsInv lyt)
    (hin : ∀ n, lyt.isPlaced n = true → lyt.clocked.Inside (lyt.getTile n))
    (hd : (lyt.gateLevelDrvs {}).drvs = 0) (hcorner : NoCornerChild lyt)
    (hcross : CrossingsClocked lyt) : Sound lyt := by
  obtain ⟨hadj, hmiss, hclk⟩ := checks_of_drvs_eq_zero hd
  intro n hn
  have hp := isPlaced_of_missingConnectionsCheck hi hc hmiss hn
  have hn' := hin n hp
  have hadj' : ∀ c ∈ (lyt.node n).children, lyt.clocked.isAdjacentElevationOf (lyt.getTile n)
      (lyt.getTile (lyt.getNode c)) = true := fun c hc => by
    have := sum_countP_eq_zero hadj n hn _ (List.mem_map_of_mem hc)
    simpa using this
  have hclk' : ∀ c ∈ (lyt.node n).children, lyt.clocked.isIncomingClocked (lyt.getTile n)
      (lyt.getTile (lyt.getNode c)) = true := fun c hc => by
    have := sum_countP_eq_zero hclk n hn _ (List.mem_map_of_mem hc)
    simpa using this
  have htile : ∀ c ∈ (lyt.node n).children, 2 ≤ lyt.getNode c := fun c hc => by
    by_contra hlt
    exact hcorner n hn _ (by omega) (hadj' c hc) (hclk' c hc) c hc rfl
  have hchild : ∀ c ∈ (lyt.node n).children, lyt.clocked.Inside c ∧
      lyt.clocked.isAdjacentElevationOf (lyt.getTile n) c = true ∧
      lyt.clocked.isIncomingClocked (lyt.getTile n) c = true := fun c hc => by
    obtain ⟨hpc, htc⟩ := hi.getTile_getNode (htile c hc)
    have h₁ := hadj' c hc
    have h₂ := hclk' c hc
    have h₃ := hin _ hpc
    rw [htc] at h₁ h₂ h₃
    exact ⟨h₃, h₁, h₂⟩
  refine ⟨hp, fun s => ⟨fun hs => ?_, fun hs => ?_⟩, fun c hc => ?_, fun c hc => (hchild c hc).2.1,
    fun c hc => (hchild c hc).2.2⟩
  · have := isChild_of_mem_incomingDataFlow hs
    rwa [getNode_getTile hi hp] at this
  · obtain ⟨hsi, hsa, hsc⟩ := hchild s hs
    obtain ⟨hb, h₁, h₂⟩ := (CoordinateLayout.isAdjacentElevationOf_iff hn' hsi).mp hsa
    refine (mem_incomingDataFlow_iff hn' hsi).mpr ⟨⟨hb, h₁, h₂, ?_⟩, ?_⟩
    · rwa [getNode_getTile hi hp]
    · by_cases hz : s.z = (lyt.getTile n).z
      · rw [ClockedLayout.isIncomingClocked_eq_isOutgoingClocked] at hsc
        unfold FeedsInLayer
        rw [← hz]
        nth_rewrite 2 [hz]
        exact hsc
      · exact hcross n hn s hs hz
  · have := htile c hc
    simp only [isEmptyTile, decide_eq_false_iff_not]
    omega

theorem noCornerChild_cartesian (hi : MapsInv lyt) (ha : lyt.clocked.arrangement = .cartesian)
    (hin : ∀ n ∈ lyt.checkedNodes, lyt.clocked.Inside (lyt.getTile n)) : NoCornerChild lyt := by
  intro n hn k hk hadj
  have hkd : (lyt.getTile k).isDead = true := by
    by_contra hd
    have hp : lyt.isPlaced k = true := by simpa [isPlaced] using hd
    have := (hi.lt_size_of_placed hp).1
    omega
  have hlive : ∀ e, lyt.clocked.Inside e → lyt.clocked.isAdjacentOf e (lyt.getTile k) = false := by
    intro e he
    rw [Bool.eq_false_iff]
    simp only [CoordinateLayout.isAdjacentOf, ha, ne_eq, List.any_eq_true, decide_eq_true_eq,
      not_exists, not_and]
    rintro c hc hne rfl
    have hmem : lyt.getTile k ∈ lyt.clocked.adjacentCoordinates e := by
      simp only [CoordinateLayout.adjacentCoordinates, ha, List.mem_filter, decide_eq_true_eq]
      exact ⟨hc, fun h => hne h.symm⟩
    have := (CoordinateLayout.adjacentCoordinates_inside he hmem).1.live
    simp [hkd] at this
  have hi' := hin n hn
  have hz := hi'.z_le
  have habove : lyt.clocked.Inside (lyt.clocked.above (lyt.getTile n)) := by
    unfold CoordinateLayout.above
    split_ifs
    · omega
    · exact ⟨hi'.live, hi'.x_le, hi'.y_le, by simp only; omega⟩
    · exact hi'
  have hbelow : lyt.clocked.Inside (CoordinateLayout.below (lyt.getTile n)) := by
    unfold CoordinateLayout.below
    split_ifs
    · exact hi'
    · exact ⟨hi'.live, hi'.x_le, hi'.y_le, by simp only; omega⟩
  simp [CoordinateLayout.isAdjacentElevationOf, hlive _ hi', hlive _ habove, hlive _ hbelow] at hadj

/-- A layout without violations follows its netlist exactly if no child next to a corner resolves to
a constant that the corner is mistaken for, and if the clock numbers below and above crossings agree
with the data flow. There is no such child on Cartesian layouts. The clock numbers may have been
changed since the nodes were placed. -/
theorem sound_iff_of_drvs_eq_zero {clocked : ClockedLayout} {name : String} {ops : List Op}
    (h : (system clocked name).Legal ops) (clocked' : ClockedLayout) :
    let lyt : GateLevelLayout := { (system clocked name).run ops with clocked := clocked' }
    (∀ n < lyt.size, lyt.isPlaced n = true → clocked'.Inside (lyt.getTile n)) →
      (lyt.gateLevelDrvs {}).drvs = 0 →
        (Sound lyt ↔ NoCornerChild lyt ∧ CrossingsClocked lyt) ∧
          (clocked'.arrangement = .cartesian → NoCornerChild lyt) := by
  intro lyt hin' hd
  have hi : MapsInv lyt := (run_placementInv h).toMapsInv.reclock clocked'
  have hin : ∀ n, lyt.isPlaced n = true → clocked'.Inside (lyt.getTile n) :=
    fun n hp => hin' n (hi.lt_size_of_placed hp).2 hp
  have hc : ConstantsInv lyt := ⟨(run_constantsInv h).children, (run_constantsInv h).inputs⟩
  have hchecked : ∀ n ∈ lyt.checkedNodes, lyt.clocked.Inside (lyt.getTile n) := fun n hn =>
    hin n (isPlaced_of_missingConnectionsCheck hi hc (checks_of_drvs_eq_zero hd).2.1 hn)
  refine ⟨⟨?_, ?_⟩, ?_⟩
  · exact fun hs => ⟨hs.noCornerChild hi hin, hs.crossingsClocked hi hin⟩
  · exact fun hs => sound_of_checks hi hc hin hd hs.1 hs.2
  · exact fun ha => noCornerChild_cartesian hi ha hchecked

end Soundness

section Examples

instance (lyt : CoordinateLayout) (c : Ucoord) : Decidable (lyt.Inside c) :=
  decidable_of_iff (c.isDead = false ∧ c.x ≤ lyt.x ∧ c.y ≤ lyt.y ∧ c.z ≤ lyt.z)
    ⟨fun h => ⟨h.1, h.2.1, h.2.2.1, h.2.2.2⟩, fun h => ⟨h.live, h.x_le, h.y_le, h.z_le⟩⟩

/-- A wire that crosses over another wire, and their outputs. -/
def crossedWires : List Op :=
  [.createPi "" (.at2 1 0), .createPi "" (.at2 0 1), .createNode [.at2 0 1] .identity (.at2 1 1),
    .createNode [.at2 1 0] .identity (.at3 1 1 1), .createPo (.at2 1 1) "" (.at2 2 1),
    .createPo (.at3 1 1 1) "" (.at2 1 2)]

theorem sound_iff_of_drvs_eq_zero_crossed :
    let lyt : GateLevelLayout :=
      { (system twoLayers "").run crossedWires with clocked := twoLayers }
    (Sound lyt ↔ NoCornerChild lyt ∧ CrossingsClocked lyt) ∧
      (twoLayers.arrangement = .cartesian → NoCornerChild lyt) :=
  @sound_iff_of_drvs_eq_zero twoLayers "" crossedWires (by decide) twoLayers (by decide) (by decide)

/-- A hexagonal layout in which a gate next to the corner names an unoccupied tile. -/
def hexLayout : ClockedLayout := ⟨⟨.at2 3 3, .evenRowHex⟩, .twoddwaveClocking 4⟩

def strayChild : List Op :=
  [.createPi "" (.at2 0 0), .createNode [.at2 0 0, .at2 3 3] .and (.at2 1 0),
    .createPo (.at2 1 0) "" (.at2 2 0)]

def overriddenCrossing : List Op :=
  [.createPi "" (.at2 1 0), .createPi "" (.at2 0 1),
    .createNode [.at2 1 0, .at2 0 1] .and (.at3 1 1 1), .createPo (.at3 1 1 1) "" (.at2 2 1)]

/-- Neither an unoccupied tile among the children nor a clock number above an operand that hides it
from the data flow counts as a violation. -/
theorem drvs_not_sound :
    (let lyt := (system hexLayout "").run strayChild
     (system hexLayout "").Legal strayChild ∧ (lyt.gateLevelDrvs {}).drvs = 0 ∧ ¬ Sound lyt) ∧
    let clocked := twoLayers.assignClockNumber (.at3 1 0 1) 0
    let lyt : GateLevelLayout :=
      { (system twoLayers "").run overriddenCrossing with clocked := clocked }
    (lyt.gateLevelDrvs {}).drvs = 0 ∧ ¬ Sound lyt := by
  refine ⟨⟨by decide, by decide, fun h => ?_⟩, by decide, fun h => ?_⟩
  · exact absurd ((h 3 (by decide)).hosts (.at2 3 3) (by decide)) (by decide)
  · exact absurd (((h 4 (by decide)).dataFlow (.at2 1 0)).mpr (by decide)) (by decide)

end Examples

end GateLevelLayout

end Fiction
