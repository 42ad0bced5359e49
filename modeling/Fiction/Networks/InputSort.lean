import Fiction.Library.DepthFirst
import Fiction.Networks.FanoutViews

/-!
# The view that sorts inputs by their fan-outs

`topo_view_input_sort` lists the constants, the combinational inputs and the gates of the cones.
Inputs whose fan-outs meet other inputs are queued in three wait lists first; an input whose fan-out
node meets two others is moved to the order at once. A node is marked as visited both when it is
queued and when it is listed. Reading or erasing outside of a vector and failed assertions are
`none`.
-/

namespace Fiction.TopoViewInputSort

open DepthFirst

structure WaitState where
  topoOrder : List ℕ
  wait : List ℕ
  secondWait : List ℕ
  thirdWait : List ℕ
  mark : ℕ → Mark

namespace WaitState

def visited (s : WaitState) (n : ℕ) : Bool := s.mark n = .permanent

def setVisited (s : WaitState) (n : ℕ) : WaitState :=
  { s with mark := Function.update s.mark n .permanent }

def pushOrder (s : WaitState) (n : ℕ) : WaitState :=
  { s with topoOrder := s.topoOrder ++ [n] }.setVisited n

def pushUnvisited (s : WaitState) (n : ℕ) : WaitState :=
  if s.visited n then s else s.pushOrder n

def queueWait (s : WaitState) (n : ℕ) : WaitState :=
  if s.visited n then s else { s with wait := s.wait ++ [n] }.setVisited n

def queueSecond (s : WaitState) (n : ℕ) : WaitState :=
  if s.visited n then s else { s with secondWait := s.secondWait ++ [n] }.setVisited n

def queueThird (s : WaitState) (n : ℕ) : WaitState :=
  if s.visited n then s else { s with thirdWait := s.thirdWait ++ [n] }.setVisited n

def promote (s : WaitState) (n : ℕ) : Option WaitState :=
  if 2 ≤ s.wait.length ∧ s.wait[s.wait.length - 2]? = some n then
    some ({ s with wait := s.wait.eraseIdx (s.wait.length - 2) }.pushOrder n)
  else none

end WaitState

section View

variable (ntk : TechnologyNetwork)

/-- The `fanin_nodes` of a node. There can only be one constant fan-in. -/
def faninNodes (n : ℕ) : Option (List ℕ) :=
  let children := (ntk.node n).children
  if children.countP TechnologyNetwork.isConstant ≤ 1 then
    some (children.filter fun c => !TechnologyNetwork.isConstant c)
  else none

def ignoreInverter (fi : ℕ) : Option ℕ :=
  if ntk.isInv fi then do (← faninNodes ntk fi)[0]? else some fi

variable {ntk} (V : FanoutView ntk)

/-- The loop over the fan-outs of an inverter keeps the last one. -/
def skipInverter (fon : ℕ) : ℕ :=
  if ntk.isInv fon then (V.fanouts fon).foldl (fun _ fonInv => fonInv) fon else fon

def gatherOutputs (n : ℕ) : List ℕ :=
  (V.fanouts n).foldl (fun output fon =>
    if ntk.isFanout fon then output
    else if ntk.isInv fon then
      (V.fanouts fon).foldl (fun output fonInv => fonInv :: output) output
    else output ++ [fon]) []

/-- The vector `output_node` for a fan-out. -/
def outputNodes (fon : ℕ) : List ℕ :=
  if ntk.isFanout (skipInverter V fon) then gatherOutputs V (skipInverter V fon)
  else [skipInverter V fon]

/-- One fan-in of an output node. The flag is `already_one_PI`. -/
def sortFanin (n fon : ℕ) (p : WaitState × Bool) (fi : ℕ) : Option (WaitState × Bool) := do
  let finInp ← ignoreInverter ntk fi
  if finInp = n then some p
  else
    let fc ← faninNodes ntk fon
    if ntk.isMaj fon ∧ fc.length > 2 then some (p.1.queueThird n, p.2)
    else if ntk.isCi finInp then
      if ntk.isFanout (skipInverter V fon) then
        if p.2 then
          let s ← p.1.promote n
          some (s.pushUnvisited finInp, false)
        else some ((p.1.queueWait n).queueWait finInp, true)
      else some ((p.1.queueSecond n).queueSecond finInp, p.2)
    else some p

def sortFanout (n : ℕ) (s : WaitState) (fon : ℕ) : Option WaitState := do
  let p ← (outputNodes V fon).foldlM
    (fun p out => (ntk.node out).children.foldlM (sortFanin V n fon) p) (s, false)
  some p.1

def inputSort (s : WaitState) (n : ℕ) : Option WaitState :=
  (V.fanouts n).foldlM (sortFanout V n) s

def sortCi (s : WaitState) (n : ℕ) : Option WaitState :=
  if s.visited n then some s else inputSort V s n

def initialState : WaitState :=
  let s : WaitState := ⟨[], [], [], [], fun _ => .unmarked⟩
  let s := s.pushOrder (TechnologyNetwork.getConstant false)
  s.pushUnvisited (TechnologyNetwork.getConstant true)

/-- The wait lists are listed one after the other, then the inputs that are left. -/
def flush (ntk : TechnologyNetwork) (s : WaitState) : WaitState :=
  let s := s.wait.foldl WaitState.pushOrder s
  let s := s.secondWait.foldl WaitState.pushOrder s
  let s := s.thirdWait.foldl WaitState.pushOrder s
  ntk.inputs.foldl WaitState.pushUnvisited s

/-- The depth of the recursion is at most the size of the network. -/
def createTopoRec (ntk : TechnologyNetwork) (s : State ℕ) (n : ℕ) : Option (State ℕ) :=
  visit ntk.graph (ntk.size + 1) s n

def visitCo (ntk : TechnologyNetwork) (s : State ℕ) (f : ℕ) : Option (State ℕ) :=
  if s.mark f = .permanent then some s else createTopoRec ntk s f

/-- `update_topo` of a new view without a start signal. -/
def updateTopo : Option (List ℕ) := do
  let s ← ntk.inputs.foldlM (sortCi V) initialState
  let s := flush ntk s
  let s ← ntk.outputs.foldlM (visitCo ntk) ⟨s.topoOrder, s.mark⟩
  some s.order

end View

end Fiction.TopoViewInputSort
