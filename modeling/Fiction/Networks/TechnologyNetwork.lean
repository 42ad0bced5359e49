import Fiction.Library.DagEvaluation
import Fiction.Networks.TruthTable
import Mathlib.Algebra.BigOperators.Group.List.Basic

/-!
# Technology networks

A technology network stores its nodes in the order of their creation and never merges equal ones.
A signal is the index of its node. Nodes `0` and `1` are the constants. The network may be
sequential: its combinational inputs are the primary inputs followed by the register outputs, its
combinational outputs the primary outputs followed by the register inputs.

The fan-out size that the storage counts along with the creations is the number of uses of a signal
as a child or as an output, and is modelled by this number.
-/

namespace Fiction

structure NetworkNode where
  children : List ℕ
  function : TruthTable
  deriving DecidableEq

instance : Inhabited NetworkNode := ⟨⟨[], .const0⟩⟩

structure TechnologyNetwork where
  nodes : List NetworkNode
  inputs : List ℕ
  numPis : ℕ
  outputs : List ℕ
  numPos : ℕ
  networkName : String
  signalNames : ℕ → Option String
  outputNames : ℕ → Option String

namespace TechnologyNetwork

def empty : TechnologyNetwork where
  nodes := [⟨[], .const0⟩, ⟨[], .const1⟩]
  inputs := []
  numPis := 0
  outputs := []
  numPos := 0
  networkName := ""
  signalNames _ := none
  outputNames _ := none

section Queries

variable (ntk : TechnologyNetwork)

def size : ℕ := ntk.nodes.length

def node (n : ℕ) : NetworkNode := ntk.nodes.getD n default

def isConstant (n : ℕ) : Bool := n ≤ 1

def getConstant (value : Bool) : ℕ := if value then 1 else 0

def isCi (n : ℕ) : Bool := ntk.inputs.contains n

def isPi (n : ℕ) : Bool := (ntk.inputs.take ntk.numPis).contains n

def isPo (n : ℕ) : Bool := (ntk.outputs.take ntk.numPos).contains n

def foreachPi : List ℕ := ntk.inputs.take ntk.numPis

def foreachRo : List ℕ := ntk.inputs.drop ntk.numPis

def foreachPo : List ℕ := ntk.outputs.take ntk.numPos

def foreachRi : List ℕ := ntk.outputs.drop ntk.numPos

/-- The number of children and outputs with property `p`. -/
def numUses (p : ℕ → Bool) : ℕ :=
  (ntk.nodes.map fun data => data.children.countP p).sum + ntk.outputs.countP p

def fanoutSize (n : ℕ) : ℕ := ntk.numUses fun c => c = n

/-- Inputs compute the identity as well, but are no buffers. -/
def isBuf (n : ℕ) : Bool := (ntk.node n).function = .identity ∧ ¬ ntk.isCi n

def isFanout (n : ℕ) : Bool := ntk.isBuf n ∧ ntk.fanoutSize n > 1

def isInv (n : ℕ) : Bool := (ntk.node n).function = .not

def isAnd (n : ℕ) : Bool := (ntk.node n).function = .and

def isOr (n : ℕ) : Bool := (ntk.node n).function = .or

def isXor (n : ℕ) : Bool := (ntk.node n).function = .xor

def isMaj (n : ℕ) : Bool := (ntk.node n).function = .maj

end Queries

section Updates

variable (ntk : TechnologyNetwork)

/-- `_create_node` -/
def pushNode (children : List ℕ) (function : TruthTable) : TechnologyNetwork × ℕ :=
  ({ ntk with nodes := ntk.nodes ++ [⟨children, function⟩] }, ntk.nodes.length)

def createPi : TechnologyNetwork × ℕ :=
  let (ntk, n) := ntk.pushNode [] .identity
  ({ ntk with inputs := ntk.inputs ++ [n], numPis := ntk.numPis + 1 }, n)

def createRo : TechnologyNetwork × ℕ :=
  let (ntk, n) := ntk.pushNode [] .identity
  ({ ntk with inputs := ntk.inputs ++ [n] }, n)

def createPo (f : ℕ) : TechnologyNetwork :=
  { ntk with outputs := ntk.outputs ++ [f], numPos := ntk.numPos + 1 }

def createRi (f : ℕ) : TechnologyNetwork := { ntk with outputs := ntk.outputs ++ [f] }

def createBuf (a : ℕ) := ntk.pushNode [a] .identity

def createNot (a : ℕ) : TechnologyNetwork × ℕ :=
  if isConstant a then (ntk, getConstant (a = 0)) else ntk.pushNode [a] .not

def createAnd (a b : ℕ) := ntk.pushNode [a, b] .and
def createOr (a b : ℕ) := ntk.pushNode [a, b] .or
def createXor (a b : ℕ) := ntk.pushNode [a, b] .xor
def createMaj (a b c : ℕ) := ntk.pushNode [a, b, c] .maj

def createNode (children : List ℕ) (function : TruthTable) : TechnologyNetwork × ℕ :=
  if children.isEmpty then (ntk, getConstant (function ≠ .const0))
  else ntk.pushNode children function

def cloneNode (other : TechnologyNetwork) (source : ℕ) (children : List ℕ) :
    TechnologyNetwork × ℕ :=
  ntk.createNode children (other.node source).function

def setName (s : ℕ) (name : String) : TechnologyNetwork :=
  { ntk with signalNames := Function.update ntk.signalNames s (some name) }

def setOutputName (i : ℕ) (name : String) : TechnologyNetwork :=
  { ntk with outputNames := Function.update ntk.outputNames i (some name) }

end Updates

section Nodes

variable (ntk : TechnologyNetwork) (children : List ℕ) (function : TruthTable)

@[simp] theorem pushNode_snd : (ntk.pushNode children function).2 = ntk.size := rfl

@[simp] theorem size_pushNode : (ntk.pushNode children function).1.size = ntk.size + 1 := by
  simp [size, pushNode]

theorem node_pushNode (n : ℕ) :
    (ntk.pushNode children function).1.node n =
      if n = ntk.size then ⟨children, function⟩ else ntk.node n := by
  simp only [node, pushNode, size, List.getD_eq_getElem?_getD]
  rcases Nat.lt_trichotomy n ntk.nodes.length with hn | hn | hn
  · rw [List.getElem?_append_left hn, if_neg hn.ne]
  · rw [if_pos hn, hn, List.getElem?_concat_length]
    rfl
  · rw [List.getElem?_eq_none (by simpa using Nat.succ_le_of_lt hn), List.getElem?_eq_none hn.le,
      if_neg hn.ne']

theorem numUses_pushNode (p : ℕ → Bool) :
    (ntk.pushNode children function).1.numUses p = ntk.numUses p + children.countP p := by
  simp only [numUses, pushNode, List.map_append, List.map_singleton, List.sum_append,
    List.sum_singleton]
  omega

theorem fanoutSize_pushNode (n : ℕ) :
    (ntk.pushNode children function).1.fanoutSize n = ntk.fanoutSize n + children.count n :=
  ntk.numUses_pushNode children function _

theorem fanoutSize_createPo (f n : ℕ) :
    (ntk.createPo f).fanoutSize n = ntk.fanoutSize n + if n = f then 1 else 0 := by
  simp only [fanoutSize, numUses, createPo, List.countP_append, List.countP_singleton]
  by_cases h : f = n
  · simp only [h, decide_true, if_true, Nat.add_assoc]
  · simp [h, Ne.symm h]

theorem fanoutSize_le (n : ℕ) :
    ntk.fanoutSize n ≤ (ntk.nodes.map fun x => x.children.length).sum + ntk.outputs.length := by
  refine Nat.add_le_add ?_ List.countP_le_length
  induction ntk.nodes with
  | nil => exact Nat.zero_le _
  | cons x nodes ih =>
    rw [List.map_cons, List.map_cons, List.sum_cons, List.sum_cons]
    exact Nat.add_le_add List.countP_le_length ih

end Nodes

/-- In a combinational network, all inputs are primary inputs. -/
theorem foreachPi_eq_inputs {ntk : TechnologyNetwork} (h : ntk.numPis = ntk.inputs.length) :
    ntk.foreachPi = ntk.inputs := by
  rw [foreachPi, h, List.take_length]

theorem foreachPo_eq_outputs {ntk : TechnologyNetwork} (h : ntk.numPos = ntk.outputs.length) :
    ntk.foreachPo = ntk.outputs := by
  rw [foreachPo, h, List.take_length]

/-- What the creation functions guarantee for every network. Fan-out sizes are stored in 31 bits. -/
structure WellFormed (ntk : TechnologyNetwork) : Prop where
  two_le_size : 2 ≤ ntk.size
  inputs_nodup : ntk.inputs.Nodup
  input : ∀ n ∈ ntk.inputs, 2 ≤ n ∧ n < ntk.size
  children_ne_nil : ∀ n, 2 ≤ n → n < ntk.size → n ∉ ntk.inputs → (ntk.node n).children ≠ []
  numPis_le : ntk.numPis ≤ ntk.inputs.length
  numPos_le : ntk.numPos ≤ ntk.outputs.length
  fanoutSize_lt : ∀ n, ntk.fanoutSize n < 2 ^ 31

theorem wellFormed_of_forall_lt {ntk : TechnologyNetwork} (h2 : 2 ≤ ntk.size)
    (hnd : ntk.inputs.Nodup) (hi : ∀ n ∈ ntk.inputs, 2 ≤ n ∧ n < ntk.size)
    (hc : ∀ n < ntk.size, 2 ≤ n → n ∉ ntk.inputs → (ntk.node n).children ≠ [])
    (hpi : ntk.numPis ≤ ntk.inputs.length) (hpo : ntk.numPos ≤ ntk.outputs.length)
    (hu : (ntk.nodes.map fun x => x.children.length).sum + ntk.outputs.length < 2 ^ 31) :
    ntk.WellFormed where
  two_le_size := h2
  inputs_nodup := hnd
  input := hi
  children_ne_nil n hn hlt := hc n hlt hn
  numPis_le := hpi
  numPos_le := hpo
  fanoutSize_lt n := (ntk.fanoutSize_le n).trans_lt hu

end TechnologyNetwork
end Fiction
