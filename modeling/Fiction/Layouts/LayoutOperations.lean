import Fiction.Layouts.GateLevelLayout
import Fiction.Library.TransitionSystem

/-!
# Layouts under arbitrary sequences of public operations

The state-changing members of a gate-level layout are the labels of a transition system. A label
is enabled when the call has defined behaviour: `move_node` needs an existing node that is not a
constant, and `create_po` inserts into `outputs` at position `num_pos`, which must exist.

The frame lemmas below say which parts of the storage each helper leaves unchanged.
-/

namespace Fiction.GateLevelLayout

inductive Op
  | createPi (name : String) (t : Tile)
  | createRo (name : String) (t : Tile)
  | createPo (s : Signal) (name : String) (t : Tile)
  | createRi (s : Signal) (name : String) (t : Tile)
  | createNode (children : List Signal) (function : TruthTable) (t : Tile)
  | moveNode (n : ℕ) (t : Tile) (newChildren : List Signal)

def apply (lyt : GateLevelLayout) : Op → GateLevelLayout
  | .createPi name t => (lyt.createPi name t).1
  | .createRo name t => (lyt.createRo name t).1
  | .createPo s name t => (lyt.createPo s name t).1
  | .createRi s name t => (lyt.createRi s name t).1
  | .createNode children function t => (lyt.createNode children function t).1
  | .moveNode n t newChildren => (lyt.moveNode n t newChildren).1

def Defined (lyt : GateLevelLayout) : Op → Prop
  | .createPo .. => lyt.numPos ≤ lyt.outputs.length
  | .moveNode n .. => 2 ≤ n ∧ n < lyt.size
  | _ => True

instance (lyt : GateLevelLayout) (op : Op) : Decidable (lyt.Defined op) :=
  match op with
  | .createPi .. | .createRo .. | .createRi .. | .createNode .. => inferInstanceAs (Decidable True)
  | .createPo .. => inferInstanceAs (Decidable (_ ≤ _))
  | .moveNode .. => inferInstanceAs (Decidable (_ ∧ _))

/-- All sequences of defined calls on a fresh layout. -/
def system (clocked : ClockedLayout) (name : String) : TransitionSystem GateLevelLayout Op where
  init := empty clocked name
  enabled := Defined
  step := apply

instance (clocked : ClockedLayout) (name : String) (lyt : GateLevelLayout) (op : Op) :
    Decidable ((system clocked name).enabled lyt op) :=
  inferInstanceAs (Decidable (lyt.Defined op))

section Nodes

variable (lyt : GateLevelLayout)

@[simp] theorem size_modifyNode (n : ℕ) (f : LayoutNode → LayoutNode) :
    (lyt.modifyNode n f).size = lyt.size := by
  simp [size, modifyNode]

theorem node_modifyNode (n m : ℕ) (f : LayoutNode → LayoutNode) :
    (lyt.modifyNode n f).node m = if m = n ∧ n < lyt.size then f (lyt.node m) else lyt.node m := by
  simp only [node, modifyNode, size, List.getD_eq_getElem?_getD, List.getElem?_modify]
  by_cases hm : m = n
  · subst hm
    by_cases hs : m < lyt.nodes.length <;> simp [hs]
  · simp [hm, Ne.symm hm]

@[simp] theorem size_emplaceNode (data : LayoutNode) :
    (lyt.emplaceNode data).2.size = lyt.size + 1 := by
  simp [size, emplaceNode]

@[simp] theorem emplaceNode_fst (data : LayoutNode) : (lyt.emplaceNode data).1 = lyt.size := rfl

theorem node_emplaceNode (data : LayoutNode) (m : ℕ) :
    (lyt.emplaceNode data).2.node m = if m = lyt.size then data else lyt.node m := by
  simp only [node, emplaceNode, size, List.getD_eq_getElem?_getD]
  rcases Nat.lt_trichotomy m lyt.nodes.length with hm | hm | hm
  · rw [List.getElem?_append_left hm, if_neg hm.ne]
  · rw [if_pos hm, hm, List.getElem?_concat_length]
    rfl
  · rw [List.getElem?_eq_none (by simpa using Nat.succ_le_of_lt hm),
      List.getElem?_eq_none hm.le, if_neg hm.ne']

end Nodes

/-- `lyt'` places the same nodes as `lyt` on the same tiles; it may own further nodes, and its nodes
may have other children and reference counts. -/
structure SameMaps (lyt lyt' : GateLevelLayout) : Prop where
  clocked : lyt'.clocked = lyt.clocked
  tileNodeMap : lyt'.tileNodeMap = lyt.tileNodeMap
  nodeTileMap : lyt'.nodeTileMap = lyt.nodeTileMap
  size : lyt.size ≤ lyt'.size
  function : ∀ n < lyt.size, (lyt'.node n).function = (lyt.node n).function

/-- In addition, the placed gates and wires are counted alike. -/
structure SamePlacement (lyt lyt' : GateLevelLayout) : Prop extends SameMaps lyt lyt' where
  numGates : lyt'.numGates = lyt.numGates
  numWires : lyt'.numWires = lyt.numWires

/-- `lyt'` keeps the input and output vectors of `lyt` and the counters that split them. -/
structure SameIo (lyt lyt' : GateLevelLayout) : Prop where
  inputs : lyt'.inputs = lyt.inputs
  outputs : lyt'.outputs = lyt.outputs
  numPis : lyt'.numPis = lyt.numPis
  numPos : lyt'.numPos = lyt.numPos
  registers : lyt'.registers = lyt.registers

section Frames

variable {lyt lyt' lyt'' : GateLevelLayout}

theorem SameMaps.refl : SameMaps lyt lyt := ⟨rfl, rfl, rfl, le_rfl, fun _ _ => rfl⟩

theorem SameMaps.trans (h : SameMaps lyt lyt') (h' : SameMaps lyt' lyt'') : SameMaps lyt lyt'' where
  clocked := h'.clocked.trans h.clocked
  tileNodeMap := h'.tileNodeMap.trans h.tileNodeMap
  nodeTileMap := h'.nodeTileMap.trans h.nodeTileMap
  size := h.size.trans h'.size
  function n hn := (h'.function n (hn.trans_le h.size)).trans (h.function n hn)

theorem SamePlacement.refl : SamePlacement lyt lyt := ⟨.refl, rfl, rfl⟩

theorem SamePlacement.trans (h : SamePlacement lyt lyt') (h' : SamePlacement lyt' lyt'') :
    SamePlacement lyt lyt'' :=
  ⟨h.toSameMaps.trans h'.toSameMaps, h'.numGates.trans h.numGates, h'.numWires.trans h.numWires⟩

theorem SameIo.refl : SameIo lyt lyt := ⟨rfl, rfl, rfl, rfl, rfl⟩

theorem SameIo.trans (h : SameIo lyt lyt') (h' : SameIo lyt' lyt'') : SameIo lyt lyt'' :=
  ⟨h'.inputs.trans h.inputs, h'.outputs.trans h.outputs, h'.numPis.trans h.numPis,
    h'.numPos.trans h.numPos, h'.registers.trans h.registers⟩

theorem SameMaps.getTile (h : SameMaps lyt lyt') (n : ℕ) : lyt'.getTile n = lyt.getTile n := by
  simp only [GateLevelLayout.getTile, h.nodeTileMap]

theorem SameMaps.getNode (h : SameMaps lyt lyt') (s : Signal) : lyt'.getNode s = lyt.getNode s := by
  simp only [GateLevelLayout.getNode, h.tileNodeMap]

theorem modifyNode_samePlacement (n : ℕ) {f : LayoutNode → LayoutNode}
    (hf : ∀ data, (f data).function = data.function) : SamePlacement lyt (lyt.modifyNode n f) where
  clocked := rfl
  tileNodeMap := rfl
  nodeTileMap := rfl
  numGates := rfl
  numWires := rfl
  size := (lyt.size_modifyNode n f).ge
  function m _ := by
    rw [node_modifyNode]
    split_ifs <;> simp [hf]

theorem modifyNode_sameIo (n : ℕ) (f : LayoutNode → LayoutNode) :
    SameIo lyt (lyt.modifyNode n f) := ⟨rfl, rfl, rfl, rfl, rfl⟩

theorem emplaceNode_samePlacement (data : LayoutNode) :
    SamePlacement lyt (lyt.emplaceNode data).2 where
  clocked := rfl
  tileNodeMap := rfl
  nodeTileMap := rfl
  numGates := rfl
  numWires := rfl
  size := by simp
  function m hm := by rw [node_emplaceNode, if_neg hm.ne]

theorem emplaceNode_sameIo (data : LayoutNode) : SameIo lyt (lyt.emplaceNode data).2 :=
  ⟨rfl, rfl, rfl, rfl, rfl⟩

theorem incrRef_samePlacement (s : Signal) : SamePlacement lyt (lyt.incrRef s) :=
  modifyNode_samePlacement (f := fun data => { data with h1 := data.h1 + 1 }) _ fun _ => rfl

theorem decrRef_samePlacement (s : Signal) : SamePlacement lyt (lyt.decrRef s) :=
  modifyNode_samePlacement (f := fun data => { data with h1 := data.h1 - 1 }) _ fun _ => rfl

theorem foldl_samePlacement {f : GateLevelLayout → Signal → GateLevelLayout}
    (hf : ∀ l s, SamePlacement l (f l s)) (ss : List Signal) :
    SamePlacement lyt (ss.foldl f lyt) := by
  induction ss generalizing lyt with
  | nil => exact .refl
  | cons s ss ih => exact (hf lyt s).trans ih

theorem foldl_sameIo {f : GateLevelLayout → Signal → GateLevelLayout}
    (hf : ∀ l s, SameIo l (f l s)) (ss : List Signal) : SameIo lyt (ss.foldl f lyt) := by
  induction ss generalizing lyt with
  | nil => exact .refl
  | cons s ss ih => exact (hf lyt s).trans ih

theorem pushChild_samePlacement (n : ℕ) (s : Signal) : SamePlacement lyt (lyt.pushChild n s) :=
  (incrRef_samePlacement s).trans (modifyNode_samePlacement
    (f := fun data => { data with children := data.children ++ [s] }) _ fun _ => rfl)

theorem pushChild_sameIo (n : ℕ) (s : Signal) : SameIo lyt (lyt.pushChild n s) :=
  (modifyNode_sameIo _ _).trans (modifyNode_sameIo _ _)

theorem killNode_samePlacement (n : ℕ) : SamePlacement lyt (lyt.killNode n) := by
  unfold killNode
  split_ifs
  · exact .refl
  · exact modifyNode_samePlacement _ fun _ => rfl

theorem killNode_sameIo (n : ℕ) : SameIo lyt (lyt.killNode n) := by
  unfold killNode
  split_ifs
  · exact .refl
  · exact modifyNode_sameIo _ _

theorem reviveNode_samePlacement (n : ℕ) : SamePlacement lyt (lyt.reviveNode n) := by
  unfold reviveNode
  split_ifs
  · exact .refl
  · exact modifyNode_samePlacement _ fun _ => rfl

theorem reviveNode_sameIo (n : ℕ) : SameIo lyt (lyt.reviveNode n) := by
  unfold reviveNode
  split_ifs
  · exact .refl
  · exact modifyNode_sameIo _ _

theorem uncount_sameMaps (n : ℕ) : SameMaps lyt (lyt.uncount n) := by
  unfold uncount
  split_ifs <;> exact ⟨rfl, rfl, rfl, le_rfl, fun _ _ => rfl⟩

theorem count_sameMaps (n : ℕ) : SameMaps lyt (lyt.count n) := by
  unfold count
  split_ifs <;> exact ⟨rfl, rfl, rfl, le_rfl, fun _ _ => rfl⟩

theorem uncount_sameIo (n : ℕ) : SameIo lyt (lyt.uncount n) := by
  unfold uncount
  split_ifs <;> exact ⟨rfl, rfl, rfl, rfl, rfl⟩

theorem count_sameIo (n : ℕ) : SameIo lyt (lyt.count n) := by
  unfold count
  split_ifs <;> exact ⟨rfl, rfl, rfl, rfl, rfl⟩

theorem clearTile_sameIo (t : Tile) : SameIo lyt (lyt.clearTile t) := by
  unfold clearTile
  cases lyt.tileNodeMap t with
  | none => exact .refl
  | some n =>
    have hu : ∀ l : GateLevelLayout, SameIo l ((l.killNode n).unplace t n) := fun l =>
      (killNode_sameIo n).trans ⟨rfl, rfl, rfl, rfl, rfl⟩
    dsimp only
    split_ifs
    · exact hu lyt
    · exact (uncount_sameIo n).trans (hu _)

theorem assignNode_sameIo (t : Tile) (n : ℕ) : SameIo lyt (lyt.assignNode t n) := by
  unfold assignNode
  split_ifs
  · exact .refl
  · refine (clearTile_sameIo t).trans (SameIo.trans ?_ (count_sameIo n))
    exact ⟨rfl, rfl, rfl, rfl, rfl⟩

/-- Changes of names, inputs, outputs and their counters do not concern the placement. -/
theorem SamePlacement.of_eq (hc : lyt'.clocked = lyt.clocked) (hn : lyt'.nodes = lyt.nodes)
    (ht : lyt'.tileNodeMap = lyt.tileNodeMap) (hm : lyt'.nodeTileMap = lyt.nodeTileMap)
    (hg : lyt'.numGates = lyt.numGates) (hw : lyt'.numWires = lyt.numWires) :
    SamePlacement lyt lyt' :=
  ⟨⟨hc, ht, hm, by simp only [size, hn, le_refl], fun _ _ => by simp only [node, hn]⟩, hg, hw⟩

theorem foldl_incrRef_samePlacement (ss : List Signal) :
    SamePlacement lyt (ss.foldl incrRef lyt) :=
  foldl_samePlacement (fun _ s => incrRef_samePlacement s) ss

theorem foldl_decrRef_samePlacement (ss : List Signal) :
    SamePlacement lyt (ss.foldl decrRef lyt) :=
  foldl_samePlacement (fun _ s => decrRef_samePlacement s) ss

theorem dropChildren_samePlacement (n : ℕ) : SamePlacement lyt (lyt.dropChildren n) :=
  (foldl_decrRef_samePlacement _).trans
    (modifyNode_samePlacement (f := fun data => { data with children := [] }) n fun _ => rfl)

theorem assignChildren_samePlacement (n : ℕ) (newChildren : List Signal) :
    SamePlacement lyt (lyt.assignChildren n newChildren) :=
  (modifyNode_samePlacement (f := fun data => { data with children := newChildren }) n
    fun _ => rfl).trans (foldl_incrRef_samePlacement newChildren)

theorem updateOutputs_samePlacement (t oldT : Tile) :
    SamePlacement lyt (lyt.updateOutputs t oldT) :=
  .of_eq rfl rfl rfl rfl rfl rfl

/-- Every creation appends a node, changes data that does not concern the placement and assigns the
new node to its tile. -/
def CreatedAt (lyt : GateLevelLayout) (t : Tile) (lyt' : GateLevelLayout) : Prop :=
  ∃ d l, SamePlacement (lyt.emplaceNode d).2 l ∧ SamePlacement (l.assignNode t lyt.size) lyt'

theorem createPi_createdAt (name : String) (t : Tile) :
    CreatedAt lyt t (lyt.createPi name t).1 := by
  let l := { (lyt.emplaceNode ⟨[], 0, .identity⟩).2 with
    inputs := lyt.inputs ++ [lyt.size] }.setName lyt.size
      (if name.isEmpty then s!"pi{lyt.numPis}" else name)
  have h : SamePlacement (l.assignNode t lyt.size)
      { l.assignNode t lyt.size with numPis := (l.assignNode t lyt.size).numPis + 1 } :=
    .of_eq rfl rfl rfl rfl rfl rfl
  exact ⟨⟨[], 0, .identity⟩, l, .of_eq rfl rfl rfl rfl rfl rfl, h⟩

theorem createRo_createdAt (name : String) (t : Tile) :
    CreatedAt lyt t (lyt.createRo name t).1 := by
  let l := { (lyt.emplaceNode ⟨[], 0, .identity⟩).2 with
    inputs := lyt.inputs ++ [lyt.size]
    registers := lyt.registers + 1 }.setName lyt.size
      (if name.isEmpty then s!"ro{lyt.numPis}" else name)
  exact ⟨⟨[], 0, .identity⟩, l, .of_eq rfl rfl rfl rfl rfl rfl, .refl⟩

theorem createPo_createdAt (s : Signal) (name : String) (t : Tile) :
    CreatedAt lyt t (lyt.createPo s name t).1 := by
  let l := { (lyt.emplaceNode ⟨[], 0, .identity⟩).2 with
    outputs := lyt.outputs.take lyt.numPos ++ t :: lyt.outputs.drop lyt.numPos }.setName lyt.size
      (if name.isEmpty then s!"po{lyt.numPos}" else name)
  have h : SamePlacement (l.assignNode t lyt.size)
      { l.assignNode t lyt.size with numPos := (l.assignNode t lyt.size).numPos + 1 } :=
    .of_eq rfl rfl rfl rfl rfl rfl
  exact ⟨⟨[], 0, .identity⟩, l, .of_eq rfl rfl rfl rfl rfl rfl,
    h.trans (pushChild_samePlacement lyt.size s)⟩

theorem createRi_createdAt (s : Signal) (name : String) (t : Tile) :
    CreatedAt lyt t (lyt.createRi s name t).1 := by
  let l := { (lyt.emplaceNode ⟨[], 0, .identity⟩).2 with
    outputs := lyt.outputs ++ [t] }.setName lyt.size
      (if name.isEmpty then s!"ri{lyt.numPos}" else name)
  exact ⟨⟨[], 0, .identity⟩, l, .of_eq rfl rfl rfl rfl rfl rfl, pushChild_samePlacement lyt.size s⟩

theorem createNodeFromLiteral_createdAt (children : List Signal) (function : TruthTable)
    (t : Tile) : CreatedAt lyt t (lyt.createNodeFromLiteral children function t).1 :=
  ⟨⟨children, 0, function⟩, _, foldl_incrRef_samePlacement children, .refl⟩

/-- A call of `create_node` without children returns a constant and creates nothing. -/
theorem createNode_nil (function : TruthTable) (t : Tile) :
    (lyt.createNode [] function t).1 = lyt := rfl

theorem createNode_createdAt {children : List Signal} (h : children ≠ []) (function : TruthTable)
    (t : Tile) : CreatedAt lyt t (lyt.createNode children function t).1 := by
  rw [createNode, if_neg (by simpa using h)]
  exact createNodeFromLiteral_createdAt children function t

theorem createPi_sameIo (name : String) (t : Tile) :
    SameIo { lyt with inputs := lyt.inputs ++ [lyt.size], numPis := lyt.numPis + 1 }
      (lyt.createPi name t).1 :=
  have h : SameIo _ _ := assignNode_sameIo t lyt.size
  ⟨h.inputs, h.outputs, congrArg (· + 1) h.numPis, h.numPos, h.registers⟩

theorem createRo_sameIo (name : String) (t : Tile) :
    SameIo { lyt with inputs := lyt.inputs ++ [lyt.size], registers := lyt.registers + 1 }
      (lyt.createRo name t).1 :=
  have h : SameIo _ _ := assignNode_sameIo t lyt.size
  ⟨h.inputs, h.outputs, h.numPis, h.numPos, h.registers⟩

theorem createPo_sameIo (s : Signal) (name : String) (t : Tile) :
    SameIo { lyt with
      outputs := lyt.outputs.take lyt.numPos ++ t :: lyt.outputs.drop lyt.numPos
      numPos := lyt.numPos + 1 } (lyt.createPo s name t).1 :=
  have h : SameIo _ (lyt.createPo s name t).1 := pushChild_sameIo lyt.size s
  ⟨h.inputs.trans (assignNode_sameIo t _).inputs, h.outputs.trans (assignNode_sameIo t _).outputs,
    h.numPis.trans (assignNode_sameIo t _).numPis,
    h.numPos.trans (congrArg (· + 1) (assignNode_sameIo t _).numPos),
    h.registers.trans (assignNode_sameIo t _).registers⟩

theorem createRi_sameIo (s : Signal) (name : String) (t : Tile) :
    SameIo { lyt with outputs := lyt.outputs ++ [t] } (lyt.createRi s name t).1 :=
  have h : SameIo _ (lyt.createRi s name t).1 := pushChild_sameIo lyt.size s
  ⟨h.inputs.trans (assignNode_sameIo t _).inputs, h.outputs.trans (assignNode_sameIo t _).outputs,
    h.numPis.trans (assignNode_sameIo t _).numPis, h.numPos.trans (assignNode_sameIo t _).numPos,
    h.registers.trans (assignNode_sameIo t _).registers⟩

theorem createNode_sameIo (children : List Signal) (function : TruthTable) (t : Tile) :
    SameIo lyt (lyt.createNode children function t).1 := by
  unfold createNode
  split_ifs
  · exact .refl
  · have he : SameIo lyt _ := emplaceNode_sameIo ⟨children, 0, function⟩
    have hf : SameIo (lyt.emplaceNode ⟨children, 0, function⟩).2 _ :=
      foldl_sameIo (f := incrRef) (fun _ _ => modifyNode_sameIo _ _) children
    exact (he.trans hf).trans (assignNode_sameIo t lyt.size)

end Frames

end Fiction.GateLevelLayout
