import Fiction.Networks.TopoView

/-!
# Logic networks of other types

And-inverter graphs, majority graphs, look-up table networks and the like differ from technology
networks in that the edges to children and to outputs may be complemented. Some have one constant
node only, whose complement is the other constant. Each type offers predicates for some kinds of
gates; a predicate that a type lacks never holds. Every type offers the function of a gate, to which
the complements of its edges do not belong.
-/

namespace Fiction

structure LogicSignal where
  node : ℕ
  complement : Bool
  deriving DecidableEq

structure LogicGate where
  fanins : List LogicSignal
  nodeFunction : TruthTable
  isAnd : Bool := false
  isOr : Bool := false
  isXor : Bool := false
  isMaj : Bool := false
  isNaryAnd : Bool := false
  isNaryOr : Bool := false
  isNaryXor : Bool := false
  isBuf : Bool := false

instance : Inhabited LogicGate := ⟨{ fanins := [], nodeFunction := .const0 }⟩

/-- The predicates tell the truth about the function. -/
structure LogicGate.Fits (g : LogicGate) : Prop where
  and : g.isAnd = true → g.nodeFunction = .and ∧ g.fanins.length = 2
  or : g.isOr = true → g.nodeFunction = .or ∧ g.fanins.length = 2
  xor : g.isXor = true → g.nodeFunction = .xor ∧ g.fanins.length = 2
  maj : g.isMaj = true → g.nodeFunction = .maj ∧ g.fanins.length = 3
  naryAnd : g.isNaryAnd = true → ∀ values, values.length = g.fanins.length →
    g.nodeFunction.eval values = values.all id
  naryOr : g.isNaryOr = true → ∀ values, values.length = g.fanins.length →
    g.nodeFunction.eval values = values.any id
  naryXor : g.isNaryXor = true → ∀ values, values.length = g.fanins.length →
    g.nodeFunction.eval values = values.foldr Bool.xor false
  buf : g.isBuf = true → g.nodeFunction = .identity ∧ g.fanins.length = 1
  numVars : g.fanins = [] → g.nodeFunction.numVars = 0

theorem LogicGate.default_fits : (default : LogicGate).Fits :=
  ⟨nofun, nofun, nofun, nofun, nofun, nofun, nofun, nofun, fun _ => rfl⟩

structure LogicNetwork where
  nodes : List LogicGate
  /-- Whether `true` has a node of its own, which then is node `1`. -/
  twoConstants : Bool
  inputs : List ℕ
  numPis : ℕ
  outputs : List LogicSignal
  numPos : ℕ
  networkName : String
  signalNames : LogicSignal → Option String
  outputNames : ℕ → Option String

namespace LogicNetwork

variable (ntk : LogicNetwork)

def gate (n : ℕ) : LogicGate := ntk.nodes.getD n default

def IsConstant (n : ℕ) : Prop := n = 0 ∨ n = 1 ∧ ntk.twoConstants = true

instance (n : ℕ) : Decidable (ntk.IsConstant n) := inferInstanceAs (Decidable (_ ∨ _))

def foreachPi : List ℕ := ntk.inputs.take ntk.numPis

def foreachRo : List ℕ := ntk.inputs.drop ntk.numPis

def foreachPo : List LogicSignal := ntk.outputs.take ntk.numPos

def foreachRi : List LogicSignal := ntk.outputs.drop ntk.numPos

structure WellFormed : Prop where
  inputs_nodup : ntk.inputs.Nodup
  input : ∀ n ∈ ntk.inputs, ¬ ntk.IsConstant n
  numPis_le : ntk.numPis ≤ ntk.inputs.length
  numPos_le : ntk.numPos ≤ ntk.outputs.length
  fits : ∀ n, ¬ ntk.IsConstant n → n ∉ ntk.inputs → (ntk.gate n).Fits

def gateRule (g : LogicGate) (values : List Bool) : Bool :=
  g.nodeFunction.eval (List.zipWith (fun f b => f.complement ^^ b) g.fanins values)

def graph : Graph ℕ Bool where
  deps n := (ntk.gate n).fanins.map LogicSignal.node
  rule n := gateRule (ntk.gate n)

def IsSource (n : ℕ) : Prop := ntk.IsConstant n ∨ n ∈ ntk.inputs

instance (n : ℕ) : Decidable (ntk.IsSource n) := inferInstanceAs (Decidable (_ ∨ _))

structure TopoView where
  gates : List ℕ
  sorted : ntk.graph.Sorted ntk.IsSource gates
  outputs_mem : ∀ o ∈ ntk.outputs, ntk.IsSource o.node ∨ o.node ∈ gates

/-- `a i` is the value of the combinational input with index `i`. -/
def sourceValues (a : ℕ → Bool) (n : ℕ) : Bool :=
  if ntk.IsConstant n then n = 1 else a (ntk.inputs.idxOf n)

def simulate (gates : List ℕ) (a : ℕ → Bool) : ℕ → Bool :=
  ntk.graph.evaluate gates (ntk.sourceValues a)

def signalValue (v : ℕ → Bool) (f : LogicSignal) : Bool := f.complement ^^ v f.node

def outputValues (gates : List ℕ) (a : ℕ → Bool) : List Bool :=
  ntk.outputs.map (signalValue (ntk.simulate gates a))

variable {ntk}

theorem fits_gate (h : ∀ g ∈ ntk.nodes, g.Fits) (n : ℕ) : (ntk.gate n).Fits := by
  rw [gate, List.getD_eq_getElem?_getD]
  cases hg : ntk.nodes[n]? with
  | none => exact LogicGate.default_fits
  | some g => exact h g (List.mem_of_getElem? hg)

theorem TopoView.simulate_gate (V : ntk.TopoView) (a : ℕ → Bool) {n : ℕ} (hn : n ∈ V.gates) :
    ntk.simulate V.gates a n = (ntk.gate n).nodeFunction.eval
      ((ntk.gate n).fanins.map (signalValue (ntk.simulate V.gates a))) := by
  refine ((Graph.evaluate_solves V.sorted (ntk.sourceValues a)).rule n hn).trans ?_
  change gateRule _ (((ntk.gate n).fanins.map LogicSignal.node).map _) = _
  rw [gateRule, List.map_map, List.zipWith_map_right, List.zipWith_self]
  rfl

theorem TopoView.simulate_source (V : ntk.TopoView) (a : ℕ → Bool) {n : ℕ} (hn : ntk.IsSource n) :
    ntk.simulate V.gates a n = ntk.sourceValues a n :=
  (Graph.evaluate_solves V.sorted (ntk.sourceValues a)).base n hn

end LogicNetwork

end Fiction
