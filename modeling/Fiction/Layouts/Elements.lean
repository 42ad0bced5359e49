import Fiction.Layouts.OutputBookkeeping
import Fiction.Layouts.ReferenceCounts
import Fiction.Library.DagEvaluation

/-!
# The contents of tiles

What matters about a tile for the function of a layout is which signals its node reads and which
function it computes. A creation sets this for one tile and leaves all others alone, and so does
moving a node that has not been placed yet.
-/

namespace Fiction.GateLevelLayout

variable {lyt lyt' : GateLevelLayout} {n : ℕ} {t : Tile}

/-- The children and the function of the node on `t`. Dead tiles are those of the constants. -/
def element (lyt : GateLevelLayout) (t : Tile) : Option (List Signal × TruthTable) :=
  if t.isDead || lyt.isEmptyTile t then none
  else some ((lyt.node (lyt.getNode t)).children, (lyt.node (lyt.getNode t)).function)

theorem element_dead (ht : t.isDead = true) : lyt.element t = none := by
  rw [element, ht, Bool.true_or, if_pos rfl]

theorem element_of_empty (h : lyt.isEmptyTile t = true) : lyt.element t = none := by
  rw [element, h, Bool.or_true, if_pos rfl]

theorem element_of_occupied (ht : t.isDead = false) (h : lyt.isEmptyTile t = false) :
    lyt.element t =
      some ((lyt.node (lyt.getNode t)).children, (lyt.node (lyt.getNode t)).function) := by
  rw [element, ht, h, Bool.false_or, if_neg Bool.false_ne_true]

theorem element_eq_none_iff (ht : t.isDead = false) :
    lyt.element t = none ↔ lyt.isEmptyTile t = true := by
  cases h : lyt.isEmptyTile t with
  | true => simp only [element_of_empty h]
  | false =>
    rw [element_of_occupied ht h]
    exact ⟨fun h' => absurd h' (Option.some_ne_none _), fun h' => absurd h' Bool.false_ne_true⟩

theorem element_congr {s : Tile} (hn : lyt'.getNode s = lyt.getNode s)
    (hc : (lyt'.node (lyt.getNode s)).children = (lyt.node (lyt.getNode s)).children)
    (hf : (lyt'.node (lyt.getNode s)).function = (lyt.node (lyt.getNode s)).function) :
    lyt'.element s = lyt.element s := by
  unfold element isEmptyTile
  rw [hn, hc, hf]

section Functions

/-- No operation changes the function of a node that exists. -/
theorem function_modifyNode {f : LayoutNode → LayoutNode} (hf : ∀ d, (f d).function = d.function)
    (n m : ℕ) : ((lyt.modifyNode n f).node m).function = (lyt.node m).function := by
  rw [node_modifyNode]
  split_ifs
  · exact hf _
  · rfl

theorem function_killNode (n m : ℕ) :
    ((lyt.killNode n).node m).function = (lyt.node m).function := by
  unfold killNode
  split_ifs
  · rfl
  · apply function_modifyNode
    exact fun _ => rfl

theorem function_reviveNode (n m : ℕ) :
    ((lyt.reviveNode n).node m).function = (lyt.node m).function := by
  unfold reviveNode
  split_ifs
  · rfl
  · apply function_modifyNode
    exact fun _ => rfl

theorem function_clearTile (t : Tile) (m : ℕ) :
    ((lyt.clearTile t).node m).function = (lyt.node m).function := by
  cases ht : lyt.tileNodeMap t with
  | none => rw [clearTile_none ht]
  | some n =>
    rw [clearTile_some ht]
    have hkill : ((((if t.isDead then lyt else lyt.uncount n).killNode n).unplace t n).node
        m).function = ((if t.isDead then lyt else lyt.uncount n).node m).function :=
      function_killNode n m
    rw [hkill]
    unfold uncount
    split_ifs <;> rfl

theorem function_assignNode (t : Tile) (n m : ℕ) :
    ((lyt.assignNode t n).node m).function = (lyt.node m).function := by
  cases ht : t.isDead with
  | true => rw [assignNode_dead ht]
  | false =>
    rw [assignNode_live ht]
    have hcount : (((lyt.clearTile t).place t n).count n).nodes = (lyt.clearTile t).nodes := by
      unfold count
      split_ifs <;> rfl
    rw [node, hcount]
    exact function_clearTile t m

theorem function_foldl_incrRef (ss : List Signal) (m : ℕ) :
    ((ss.foldl incrRef lyt).node m).function = (lyt.node m).function := by
  induction ss generalizing lyt with
  | nil => rfl
  | cons s ss ih =>
    rw [List.foldl_cons, ih]
    apply function_modifyNode
    exact fun _ => rfl

theorem function_foldl_decrRef (ss : List Signal) (m : ℕ) :
    ((ss.foldl decrRef lyt).node m).function = (lyt.node m).function := by
  induction ss generalizing lyt with
  | nil => rfl
  | cons s ss ih =>
    rw [List.foldl_cons, ih]
    apply function_modifyNode
    exact fun _ => rfl

theorem function_setChildren (n : ℕ) (cs : List Signal) (m : ℕ) :
    ((lyt.modifyNode n fun data => { data with children := cs }).node m).function =
      (lyt.node m).function := by
  apply function_modifyNode
  exact fun _ => rfl

theorem function_pushChild (n : ℕ) (s : Signal) (m : ℕ) :
    ((lyt.pushChild n s).node m).function = (lyt.node m).function := by
  have hincr : ((lyt.incrRef s).node m).function = (lyt.node m).function :=
    function_foldl_incrRef [s] m
  rw [← hincr]
  apply function_modifyNode
  exact fun _ => rfl

theorem function_createNodeFromLiteral (cs : List Signal) (f : TruthTable) (t : Tile) (m : ℕ) :
    ((lyt.createNodeFromLiteral cs f t).1.node m).function =
      if m = lyt.size then f else (lyt.node m).function := by
  have hres : (lyt.createNodeFromLiteral cs f t).1 =
      (cs.foldl incrRef (lyt.emplaceNode ⟨cs, 0, f⟩).2).assignNode t lyt.size := rfl
  rw [hres, function_assignNode, function_foldl_incrRef, node_emplaceNode]
  split_ifs <;> rfl

theorem function_createPi (name : String) (t : Tile) (m : ℕ) :
    ((lyt.createPi name t).1.node m).function =
      if m = lyt.size then .identity else (lyt.node m).function := by
  let l := { (lyt.emplaceNode ⟨[], 0, .identity⟩).2 with
    inputs := lyt.inputs ++ [lyt.size] }.setName lyt.size
      (if name.isEmpty then s!"pi{lyt.numPis}" else name)
  have hassign : (((lyt.createPi name t).1).node m).function = (l.node m).function :=
    function_assignNode t lyt.size m
  have hnode : l.node m = if m = lyt.size then ⟨[], 0, .identity⟩ else lyt.node m :=
    node_emplaceNode _ _ m
  rw [hassign, hnode]
  split_ifs <;> rfl

theorem function_createPo (s : Signal) (name : String) (t : Tile) (m : ℕ) :
    ((lyt.createPo s name t).1.node m).function =
      if m = lyt.size then .identity else (lyt.node m).function := by
  let l := { (lyt.emplaceNode ⟨[], 0, .identity⟩).2 with
    outputs := lyt.outputs.take lyt.numPos ++ t :: lyt.outputs.drop lyt.numPos }.setName lyt.size
      (if name.isEmpty then s!"po{lyt.numPos}" else name)
  let l' := { l.assignNode t lyt.size with numPos := (l.assignNode t lyt.size).numPos + 1 }
  have hres : (lyt.createPo s name t).1 = l'.pushChild lyt.size s := rfl
  have hassign : (l'.node m).function = (l.node m).function := function_assignNode t lyt.size m
  have hnode : l.node m = if m = lyt.size then ⟨[], 0, .identity⟩ else lyt.node m :=
    node_emplaceNode _ _ m
  rw [hres, function_pushChild, hassign, hnode]
  split_ifs <;> rfl

theorem function_moveNode (n : ℕ) (t : Tile) (newChildren : List Signal) (m : ℕ) :
    ((lyt.moveNode n t newChildren).1.node m).function = (lyt.node m).function := by
  have hrelocate : ∀ (l : GateLevelLayout) (oldT : Tile),
      ((l.relocate n t oldT).node m).function = (l.node m).function := by
    intro l oldT
    unfold relocate
    split_ifs
    · rw [function_reviveNode, function_assignNode, function_clearTile]
    · rfl
  have hres : ((lyt.moveNode n t newChildren).1.node m).function =
      ((newChildren.foldl incrRef (((lyt.dropChildren n).relocate n t (lyt.getTile n)).modifyNode n
        fun data => { data with children := newChildren })).node m).function := rfl
  rw [hres, function_foldl_incrRef, function_setChildren, hrelocate]
  exact (function_setChildren n [] m).trans (function_foldl_decrRef _ m)

end Functions

section Updates

/-- A creation sets the element of its tile. -/
theorem CreateSpec.element_eq {cs : List Signal} {res : Signal → ℕ} {f : TruthTable}
    (h : CreateSpec lyt t cs res lyt') (hi : MapsInv lyt) (ht : t.isDead = false)
    (hf : ∀ m, (lyt'.node m).function = if m = lyt.size then f else (lyt.node m).function) :
    lyt'.element = Function.update lyt.element t (some (cs, f)) := by
  funext s
  by_cases hs : s = t
  · subst hs
    have hnode : lyt'.getNode s = lyt.size := by
      rw [h.getNode, getNodeCreated, if_pos ⟨ht, rfl⟩]
    have hne : lyt'.isEmptyTile s = false := by
      have := hi.two_le_size
      rw [isEmptyTile, hnode, decide_eq_false_iff_not]
      omega
    rw [Function.update_self, element_of_occupied ht hne, hnode, h.children _ le_rfl, hf,
      if_pos rfl, if_pos rfl]
  · have hlt := hi.getNode_lt s
    rw [Function.update_of_ne hs]
    apply element_congr
    · rw [h.getNode, getNodeCreated, if_neg fun he => hs he.2]
    · rw [h.children _ hlt.le, if_neg hlt.ne]
    · rw [hf, if_neg hlt.ne]

theorem element_createNodeFromLiteral (hi : MapsInv lyt) (ht : t.isDead = false) {cs : List Signal}
    (hcs : cs ≠ []) (f : TruthTable) : (lyt.createNodeFromLiteral cs f t).1.element =
      Function.update lyt.element t (some (cs, f)) := by
  have hspec := createNode_spec hi hcs f t
  rw [createNode, if_neg (by simpa using hcs)] at hspec
  exact hspec.element_eq hi ht (function_createNodeFromLiteral cs f t)

theorem element_createPo (hi : MapsInv lyt) (ht : t.isDead = false) (s : Signal) (name : String) :
    (lyt.createPo s name t).1.element =
      Function.update lyt.element t (some ([s], .identity)) :=
  (createPo_spec hi s name t).element_eq hi ht (function_createPo s name t)

/-- A node without a tile is moved to one. -/
theorem getNode_moveNode (hi : MapsInv lyt) (hn : 2 ≤ n ∧ n < lyt.size)
    (hu : lyt.isPlaced n = false) (ht : t.isDead = false) :
    (lyt.moveNode n t []).1.getNode t = n := by
  have hne : t ≠ lyt.getTile n := by
    rw [hi.getTile_of_not_placed hn.1 hu]
    rintro rfl
    cases ht
  rw [(moveNode_spec hi hn t []).getNode, getNodeAfter, if_neg hne, if_pos ⟨ht, rfl⟩]

theorem element_moveNode (hi : MapsInv lyt) (hn : 2 ≤ n ∧ n < lyt.size)
    (hu : lyt.isPlaced n = false) (ht : t.isDead = false) :
    (lyt.moveNode n t []).1.element =
      Function.update lyt.element t (some ([], (lyt.node n).function)) := by
  have hspec := moveNode_spec hi hn t []
  have htile : lyt.getTile n = default := hi.getTile_of_not_placed hn.1 hu
  have hne : t ≠ lyt.getTile n := by
    rw [htile]
    rintro rfl
    cases ht
  funext s
  by_cases hs : s = t
  · subst hs
    have hnode := getNode_moveNode hi hn hu ht
    have hnon : (lyt.moveNode n s []).1.isEmptyTile s = false := by
      rw [isEmptyTile, hnode, decide_eq_false_iff_not]
      omega
    rw [Function.update_self, element_of_occupied ht hnon, hnode, hspec.children n hn.2,
      if_pos rfl, function_moveNode]
  · rw [Function.update_of_ne hs]
    cases hd : s.isDead with
    | true => rw [element_dead hd, element_dead hd]
    | false =>
      have hold : s ≠ default := by
        rintro rfl
        cases hd
      have hother : lyt.getNode s ≠ n := by
        intro hnode
        have hmap : lyt.tileNodeMap s = some (lyt.getNode s) := by
          apply tileNodeMap_getNode
          rw [isEmptyTile, decide_eq_false_iff_not]
          omega
        rw [hnode] at hmap
        have hplaced := isPlaced_iff.mpr ⟨s, hi.tile_of_node s n hd hmap, hd⟩
        rw [hu] at hplaced
        cases hplaced
      apply element_congr
      · rw [hspec.getNode, getNodeAfter, if_neg hne, if_neg fun he => hs he.2, htile, if_neg hold]
      · rw [hspec.children _ (hi.getNode_lt s), if_neg hother]
      · rw [function_moveNode]

end Updates

/-- A node appears on the live tile `t`, and nothing else happens to live tiles. It is a new one that
reads some signals, or one of `moved`. The outputs `pos` are added. -/
structure Appears (lyt : GateLevelLayout) (t : Tile) (e : List Signal × TruthTable)
    (moved : List ℕ) (pos : List Tile) (lyt' : GateLevelLayout) : Prop where
  placement : PlacementInv lyt'
  element : lyt'.element = Function.update lyt.element t (some e)
  getNode : ∀ s, s.isDead = false → s ≠ t → lyt'.getNode s = lyt.getNode s
  new : lyt.size ≤ lyt'.getNode t ∧ e.1 ≠ [] ∨ lyt'.getNode t ∈ moved
  size : lyt.size ≤ lyt'.size
  nodes : ∀ m, lyt.size ≤ m → m < lyt'.size → lyt'.getNode t = m
  settles : ∀ m ∈ moved, lyt'.getNode t = m
  function : ∀ m < lyt.size, (lyt'.node m).function = (lyt.node m).function
  children : ∀ m < lyt.size, m ∉ moved → (lyt'.node m).children = (lyt.node m).children
  outputs : lyt'.outputs = lyt.outputs ++ pos
  numPos : lyt'.numPos = lyt.numPos + pos.length
  inputs : lyt'.inputs = lyt.inputs
  numPis : lyt'.numPis = lyt.numPis

/-- The signals that the node on `t` reads have been counted, and the node is alive. -/
def Counts (lyt : GateLevelLayout) (t : Tile) (cs : List Signal) (lyt' : GateLevelLayout) : Prop :=
  ∀ m < lyt'.size, lyt.refCount m + cs.countP (lyt.getNode · = m) < 2 ^ 31 →
    lyt'.refCount m = lyt.refCount m + cs.countP (lyt.getNode · = m) ∧
      (lyt'.isDead m = true ↔ lyt.isDead m = true ∧ m ≠ lyt'.getNode t)

/-- On a free tile, nothing dies. -/
theorem MapsInv.isDeadAfter_iff_of_empty (hi : MapsInv lyt) (hempty : lyt.isEmptyTile t = true)
    (n m : ℕ) : lyt.isDeadAfter n t m = true ↔ lyt.isDead m = true ∧ m ≠ n := by
  unfold isDeadAfter
  split_ifs with hm
  · simp [hm]
  · have hnot : (lyt.isPlaced m && decide (lyt.getTile m = t)) = false := by
      rw [Bool.and_eq_false_imp]
      intro hp
      rw [decide_eq_false_iff_not]
      rintro rfl
      have htwo := (hi.lt_size_of_placed hp).1
      have hmap := hi.node_of_tile m _ (live_of_isPlaced hp) (nodeTileMap_getTile hp)
      rw [isEmptyTile, getNode_eq_of_map hmap, decide_eq_true_iff] at hempty
      omega
    rw [hnot, Bool.or_false]
    exact (and_iff_left hm).symm

theorem CreateSpec.counts {cs : List Signal} {res : Signal → ℕ} (h : CreateSpec lyt t cs res lyt')
    (hi : MapsInv lyt) (ht : t.isDead = false) (hempty : lyt.isEmptyTile t = true)
    (hres : ∀ c ∈ cs, res c = lyt.getNode c) : Counts lyt t cs lyt' := by
  intro m hm hlt
  have hcount : cs.countP (res · = m) = cs.countP (lyt.getNode · = m) := by
    apply List.countP_congr
    intro c hc
    rw [hres c hc]
  rw [h.size] at hm
  rw [← hcount] at hlt ⊢
  obtain ⟨href, hdead⟩ := h.word m (Nat.le_of_lt_succ hm) hlt
  refine ⟨href, ?_⟩
  rw [hdead, h.getNode, getNodeCreated, if_pos ⟨ht, rfl⟩]
  exact hi.isDeadAfter_iff_of_empty hempty _ m

theorem counts_createNodeFromLiteral (hi : MapsInv lyt) (ht : t.isDead = false)
    (hempty : lyt.isEmptyTile t = true) {cs : List Signal} (hcs : cs ≠ []) (f : TruthTable) :
    Counts lyt t cs (lyt.createNodeFromLiteral cs f t).1 := by
  have hspec := createNode_spec hi hcs f t
  rw [createNode, if_neg (by simpa using hcs)] at hspec
  exact hspec.counts hi ht hempty fun _ _ => rfl

theorem counts_createPo (hi : MapsInv lyt) (ht : t.isDead = false)
    (hempty : lyt.isEmptyTile t = true) {s : Signal} (hs : s ≠ t) (name : String) :
    Counts lyt t [s] (lyt.createPo s name t).1 := by
  apply (createPo_spec hi s name t).counts hi ht hempty
  intro c hc
  rw [getNodeCreated, if_neg fun he => hs ((List.mem_singleton.mp hc).symm.trans he.2)]

theorem counts_moveNode (hi : MapsInv lyt) (hn : 2 ≤ n ∧ n < lyt.size)
    (hu : lyt.isPlaced n = false) (hc : (lyt.node n).children = []) (ht : t.isDead = false)
    (hempty : lyt.isEmptyTile t = true) : Counts lyt t [] (lyt.moveNode n t []).1 := by
  intro m hm hlt
  have hspec := moveNode_spec hi hn t []
  have hne : t ≠ lyt.getTile n := by
    rw [hi.getTile_of_not_placed hn.1 hu]
    rintro rfl
    cases ht
  rw [hspec.size] at hm
  obtain ⟨href, hdead⟩ := hspec.word m hm
    (by rw [hc, List.countP_nil]; exact Nat.zero_le _)
    (by rw [hc, List.countP_nil, Nat.sub_zero]; exact hlt)
  rw [hc, List.countP_nil, Nat.sub_zero] at href
  refine ⟨href, ?_⟩
  rw [hdead, if_neg hne, getNode_moveNode hi hn hu ht]
  exact hi.isDeadAfter_iff_of_empty hempty n m

theorem appears_createNodeFromLiteral (hi : PlacementInv lyt) (ht : t.isDead = false)
    {cs : List Signal} (hcs : cs ≠ []) (f : TruthTable) :
    Appears lyt t (cs, f) [] [] (lyt.createNodeFromLiteral cs f t).1 := by
  have hcreate : lyt.createNode cs f t = lyt.createNodeFromLiteral cs f t := by
    rw [createNode, if_neg (by simpa using hcs)]
  have hspec := createNode_spec hi.toMapsInv hcs f t
  have hio := @createNode_sameIo lyt cs f t
  have hat := @createNode_createdAt lyt cs hcs f t
  rw [hcreate] at hspec hio hat
  constructor
  case placement => exact hat.placementInv hi
  case element => exact element_createNodeFromLiteral hi.toMapsInv ht hcs f
  case getNode =>
    intro s _ hs
    rw [hspec.getNode, getNodeCreated, if_neg fun he => hs he.2]
  case new =>
    left
    rw [hspec.getNode, getNodeCreated, if_pos ⟨ht, rfl⟩]
    exact ⟨le_rfl, hcs⟩
  case size => exact hspec.size ▸ Nat.le_succ _
  case nodes =>
    intro m hm hlt
    rw [hspec.size] at hlt
    rw [hspec.getNode, getNodeCreated, if_pos ⟨ht, rfl⟩]
    omega
  case settles => exact fun m hm => absurd hm List.not_mem_nil
  case function =>
    intro m hm
    rw [function_createNodeFromLiteral, if_neg hm.ne]
  case children =>
    intro m hm _
    rw [hspec.children m hm.le, if_neg hm.ne]
  case outputs => rw [hio.outputs, List.append_nil]
  case numPos => exact hio.numPos
  case inputs => exact hio.inputs
  case numPis => exact hio.numPis

theorem appears_createPo (hi : PlacementInv lyt) (ht : t.isDead = false) (s : Signal)
    (name : String) (hp : lyt.numPos = lyt.outputs.length) :
    Appears lyt t ([s], .identity) [] [t] (lyt.createPo s name t).1 := by
  have hspec := createPo_spec hi.toMapsInv s name t
  have hio := @createPo_sameIo lyt s name t
  have hat := @createPo_createdAt lyt s name t
  constructor
  case placement => exact hat.placementInv hi
  case element => exact element_createPo hi.toMapsInv ht s name
  case getNode =>
    intro s' _ hs
    rw [hspec.getNode, getNodeCreated, if_neg fun he => hs he.2]
  case new =>
    left
    rw [hspec.getNode, getNodeCreated, if_pos ⟨ht, rfl⟩]
    exact ⟨le_rfl, List.cons_ne_nil s []⟩
  case size => exact hspec.size ▸ Nat.le_succ _
  case nodes =>
    intro m hm hlt
    rw [hspec.size] at hlt
    rw [hspec.getNode, getNodeCreated, if_pos ⟨ht, rfl⟩]
    omega
  case settles => exact fun m hm => absurd hm List.not_mem_nil
  case function =>
    intro m hm
    rw [function_createPo, if_neg hm.ne]
  case children =>
    intro m hm _
    rw [hspec.children m hm.le, if_neg hm.ne]
  case outputs => rw [hio.outputs, hp, List.take_length, List.drop_length]
  case numPos => exact hio.numPos
  case inputs => exact hio.inputs
  case numPis => exact hio.numPis

theorem appears_moveNode (hi : PlacementInv lyt) (hn : 2 ≤ n ∧ n < lyt.size)
    (hu : lyt.isPlaced n = false) (ht : t.isDead = false)
    (hout : ∀ o ∈ lyt.outputs, o.isDead = false) :
    Appears lyt t ([], (lyt.node n).function) [n] [] (lyt.moveNode n t []).1 := by
  have hspec := moveNode_spec hi.toMapsInv hn t []
  have htile : lyt.getTile n = default := hi.getTile_of_not_placed hn.1 hu
  have hne : ∀ s : Tile, s.isDead = false → s ≠ default := by
    rintro s hs rfl
    cases hs
  obtain ⟨l, hl, hmoved⟩ := Tracked.moveNode_sameIo lyt n t []
  constructor
  case placement => exact moveNode_placementInv hi hn t []
  case element => exact element_moveNode hi.toMapsInv hn hu ht
  case getNode =>
    intro s hd hs
    rw [hspec.getNode, getNodeAfter, htile, if_neg (hne t ht), if_neg fun he => hs he.2,
      if_neg (hne s hd)]
  case new =>
    right
    rw [getNode_moveNode hi.toMapsInv hn hu ht]
    exact List.mem_singleton_self n
  case size => exact hspec.size.ge
  case nodes =>
    intro m hm hlt
    rw [hspec.size] at hlt
    exact absurd hlt (not_lt.mpr hm)
  case settles =>
    intro m hm
    rw [List.mem_singleton.mp hm]
    exact getNode_moveNode hi.toMapsInv hn hu ht
  case function => exact fun m _ => function_moveNode n t [] m
  case children =>
    intro m hm hnot
    rw [hspec.children m hm, if_neg fun he => hnot (List.mem_singleton.mpr he)]
  case outputs =>
    have hsame : lyt.outputs.map (fun o => if o = default then t else o) = lyt.outputs := by
      conv_rhs => rw [← List.map_id lyt.outputs]
      exact List.map_congr_left fun o ho => if_neg (hne o (hout o ho))
    rw [Tracked.moveNode_outputs, if_neg (by rw [ht]; exact Bool.false_ne_true), htile,
      if_pos (hne t ht), hsame, List.append_nil]
  case numPos => exact Tracked.moveNode_numPos lyt n t []
  case inputs =>
    rw [hmoved]
    exact hl.inputs
  case numPis =>
    rw [hmoved]
    exact hl.numPis

section Steady

/-- The signals that the node on `t` reads. -/
def reads (lyt : GateLevelLayout) (t : Tile) : List Signal :=
  ((lyt.element t).map Prod.fst).getD []

/-- The dependencies between tiles. -/
def elementGraph (lyt : GateLevelLayout) : Graph Tile Bool where
  deps := lyt.reads
  rule t vs := ((lyt.element t).map fun e => e.2.eval vs).getD false

/-- Every node that reads signals carries the value that it computes from theirs. -/
def Steady (lyt : GateLevelLayout) (val : Tile → Bool) : Prop :=
  ∀ t cs f, lyt.element t = some (cs, f) → cs ≠ [] → val t = f.eval (cs.map val)

end Steady

end Fiction.GateLevelLayout
