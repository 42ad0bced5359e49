import Fiction.Networks.CopyNetwork
import Fiction.Networks.LogicNetwork

/-!
# Network conversion

Every gate of the source is created anew by the first creation function whose predicate holds, or
from its function. Complemented edges become inverters, except for edges to constants.
-/

namespace Fiction

/-- Where the reduction of a list by a binary operation divides lists of length `n`. -/
structure TreeReduction where
  split : ℕ → ℕ
  split_pos : ∀ n, 2 ≤ n → 0 < split n
  split_lt : ∀ n, 2 ≤ n → split n < n

theorem TreeReduction.induct {α : Type*} (r : TreeReduction) {motive : List α → Prop}
    (nil : motive []) (single : ∀ x, motive [x])
    (split : ∀ l, 2 ≤ l.length → motive (l.take (r.split l.length)) →
      motive (l.drop (r.split l.length)) → motive l) (l : List α) : motive l := by
  induction hlen : l.length using Nat.strongRecOn generalizing l with
  | ind k ih =>
    match l, hlen with
    | [], _ => exact nil
    | [x], _ => exact single x
    | x :: y :: l, hlen =>
      have htwo : 2 ≤ (x :: y :: l).length := by simp
      have hpos := r.split_pos _ htwo
      have hlt := r.split_lt _ htwo
      refine split _ htwo (ih _ ?_ _ rfl) (ih _ ?_ _ rfl)
      · rw [List.length_take]
        omega
      · rw [List.length_drop]
        omega

namespace NetworkConversion

open TechnologyNetwork

def initializeCopyNetwork [CopyInitializer] (ntk : LogicNetwork) : TechnologyNetwork × (ℕ → ℕ) :=
  CopyInitializer.copyInputs (fun n => if n = 1 ∧ ntk.twoConstants = true then 1 else 0)
    ntk.foreachPi ntk.foreachRo

/-- The image of a signal. -/
def translate (dest : TechnologyNetwork) (old2new : ℕ → ℕ) (f : LogicSignal) :
    TechnologyNetwork × ℕ :=
  if f.complement then dest.createNot (old2new f.node) else (dest, old2new f.node)

def gatherFaninSignals (dest : TechnologyNetwork) (old2new : ℕ → ℕ) :
    List LogicSignal → TechnologyNetwork × List ℕ
  | [] => (dest, [])
  | f :: fs =>
    let (dest, child) := translate dest old2new f
    let (dest, children) := gatherFaninSignals dest old2new fs
    (dest, child :: children)

section Creation

variable (r : TreeReduction) (dest : TechnologyNetwork)

def treeReduce (op : TechnologyNetwork → ℕ → ℕ → TechnologyNetwork × ℕ) (init : ℕ)
    (dest : TechnologyNetwork) : List ℕ → TechnologyNetwork × ℕ
  | [] => (dest, init)
  | [f] => (dest, f)
  | f :: g :: fs =>
    let i := r.split (f :: g :: fs).length
    let (dest, left) := treeReduce op init dest ((f :: g :: fs).take i)
    let (dest, right) := treeReduce op init dest ((f :: g :: fs).drop i)
    op dest left right
termination_by fs => fs.length
decreasing_by
  · have := r.split_lt (f :: g :: fs).length (by simp)
    rw [List.length_take]
    omega
  · have := r.split_pos (f :: g :: fs).length (by simp)
    have : 0 < (f :: g :: fs).length := by simp
    rw [List.length_drop]
    omega

theorem treeReduce_of_two_le {op : TechnologyNetwork → ℕ → ℕ → TechnologyNetwork × ℕ} {init : ℕ}
    {children : List ℕ} (h : 2 ≤ children.length) : treeReduce r op init dest children =
      let i := r.split children.length
      let left := treeReduce r op init dest (children.take i)
      let right := treeReduce r op init left.1 (children.drop i)
      op right.1 left.2 right.2 := by
  match children, h with
  | f :: g :: fs, _ => rw [treeReduce]

def createNaryAnd (children : List ℕ) : TechnologyNetwork × ℕ :=
  treeReduce r createAnd (getConstant true) dest children

def createNaryOr (children : List ℕ) : TechnologyNetwork × ℕ :=
  treeReduce r createOr (getConstant false) dest children

def createNaryXor (children : List ℕ) : TechnologyNetwork × ℕ :=
  treeReduce r createXor (getConstant false) dest children

def createGate (g : LogicGate) (children : List ℕ) : TechnologyNetwork × ℕ :=
  if g.isAnd then dest.createAnd (children.getD 0 0) (children.getD 1 0)
  else if g.isOr then dest.createOr (children.getD 0 0) (children.getD 1 0)
  else if g.isXor then dest.createXor (children.getD 0 0) (children.getD 1 0)
  else if g.isMaj then
    dest.createMaj (children.getD 0 0) (children.getD 1 0) (children.getD 2 0)
  else if g.isNaryAnd then createNaryAnd r dest children
  else if g.isNaryOr then createNaryOr r dest children
  else if g.isNaryXor then createNaryXor r dest children
  else if g.isBuf then dest.createBuf (children.getD 0 0)
  else dest.createNode children g.nodeFunction

end Creation

section Conversion

variable (r : TreeReduction) (ntk : LogicNetwork)

def convertGate (s : TechnologyNetwork × (ℕ → ℕ)) (n : ℕ) : TechnologyNetwork × (ℕ → ℕ) :=
  let (dest, children) := gatherFaninSignals s.1 s.2 (ntk.gate n).fanins
  let (dest, created) := createGate r dest (ntk.gate n) children
  (dest, Function.update s.2 n created)

theorem convertGate_eq (s : TechnologyNetwork × (ℕ → ℕ)) (n : ℕ) : convertGate r ntk s n =
    let gathered := gatherFaninSignals s.1 s.2 (ntk.gate n).fanins
    let created := createGate r gathered.1 (ntk.gate n) gathered.2
    (created.1, Function.update s.2 n created.2) := rfl

def convertPo (old2new : ℕ → ℕ) (dest : TechnologyNetwork) (po : LogicSignal) :
    TechnologyNetwork :=
  let (dest, tgtPo) := translate dest old2new po
  dest.createPo tgtPo

def convertRi (old2new : ℕ → ℕ) (dest : TechnologyNetwork) (ri : LogicSignal) :
    TechnologyNetwork :=
  let (dest, tgtRi) := translate dest old2new ri
  dest.createRi tgtRi

def restoreSignalName (old2new : ℕ → ℕ) (dest : TechnologyNetwork) (f : LogicSignal) :
    TechnologyNetwork :=
  match ntk.signalNames f with
  | some name => dest.setName (old2new f.node) name
  | none => dest

def restoreOutputName (dest : TechnologyNetwork) (i : ℕ) : TechnologyNetwork :=
  match ntk.outputNames i with
  | some name => dest.setOutputName i name
  | none => dest

def restoreNames (dest : TechnologyNetwork) (gates : List ℕ) (old2new : ℕ → ℕ) :
    TechnologyNetwork :=
  let named := (gates.flatMap fun n => (ntk.gate n).fanins).foldl (restoreSignalName ntk old2new)
    { dest with networkName := ntk.networkName }
  (List.range ntk.numPos).foldl (restoreOutputName ntk) named

/-- The run for a source of another type than the result, along the gates of a topological view. -/
def run [CopyInitializer] (gates : List ℕ) : TechnologyNetwork :=
  let (dest, old2new) := gates.foldl (convertGate r ntk) (initializeCopyNetwork ntk)
  let dest := ntk.foreachPo.foldl (convertPo old2new) dest
  let dest := ntk.foreachRi.foldl (convertRi old2new) dest
  restoreNames ntk dest gates old2new

end Conversion

end NetworkConversion

/-- A network to be converted, with a topological view: a technology network, or one of another
type. -/
inductive SourceNetwork
  | technology (ntk : TechnologyNetwork) (V : ntk.TopoView)
  | other (ntk : LogicNetwork) (V : ntk.TopoView)

def convertNetwork [CopyInitializer] (r : TreeReduction) :
    SourceNetwork → TechnologyNetwork
  | .technology ntk _ => ntk
  | .other ntk V => NetworkConversion.run r ntk V.gates

end Fiction
