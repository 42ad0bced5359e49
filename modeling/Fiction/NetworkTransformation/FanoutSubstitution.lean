import Fiction.Networks.PartialCopy

/-!
# Fan-out substitution

Nodes whose fan-out size exceeds a threshold get a tree of buffers, and their uses are distributed
over the node and these buffers. The queues of buffers are stored once per node and copied at each
use. Taking the front of an empty queue is undefined, and `none` here.
-/

namespace Fiction.FanoutSubstitution

inductive SubstitutionStrategy where
  | breadth | depth
  deriving DecidableEq, Repr

structure FanoutSubstitutionParams where
  strategy : SubstitutionStrategy := .breadth
  degree : UInt32 := 2
  threshold : UInt32 := 1
  deriving Repr

structure State where
  substituted : TechnologyNetwork
  old2new : ℕ → ℕ
  availableFanouts : ℕ → List ℕ

/-- `static_cast<int32_t>`, and the wrap-around of 32-bit arithmetic. -/
def toInt32 (i : ℤ) : ℤ := i.bmod (2 ^ 32)

/-- The quotient of the two integers is rounded up exactly: below `2 ^ 31` no quotient is closer to
an integer than double precision can tell. -/
def numFanouts (ps : FanoutSubstitutionParams) (fanoutSize : ℕ) : ℕ :=
  let excess := max (toInt32 (toInt32 fanoutSize - toInt32 ps.threshold.toNat)) 0
  let gain := max (toInt32 (toInt32 ps.degree.toNat - 1)) 1
  ((excess + gain - 1) / gain).toNat

def depthTree : ℕ → TechnologyNetwork → ℕ → List ℕ → TechnologyNetwork × List ℕ
  | 0, substituted, _, q => (substituted, q)
  | k + 1, substituted, child, q =>
    let (substituted, child) := substituted.createBuf child
    depthTree k substituted child (q ++ [child])

def breadthTree (degree : ℕ) : ℕ → TechnologyNetwork → List ℕ → Option (TechnologyNetwork × List ℕ)
  | 0, substituted, q => some (substituted, q)
  | _ + 1, _, [] => none
  | k + 1, substituted, front :: q =>
    let (substituted, child) := substituted.createBuf front
    breadthTree degree k substituted (q ++ List.replicate degree child)

section Substitution

variable (ntk : TechnologyNetwork) (ps : FanoutSubstitutionParams)

def isProperFanout (n : ℕ) : Bool := ntk.isFanout n ∧ ntk.fanoutSize n ≤ ps.degree.toNat

/-- The second half of `generate_fanout_tree`, for `num` buffers. -/
def growTree (s : State) (n num : ℕ) : Option State :=
  let child := s.old2new n
  if num = 0 then some s
  else match ps.strategy with
    | .depth =>
      let (substituted, q) := depthTree num s.substituted child []
      some { s with substituted, availableFanouts := Function.update s.availableFanouts n q }
    | .breadth => do
      let (substituted, q) ← breadthTree ps.degree.toNat num s.substituted [child]
      some { s with substituted, availableFanouts := Function.update s.availableFanouts n q }

def generateFanoutTree (s : State) (n : ℕ) : Option State :=
  if isProperFanout ntk ps n then some s
  else growTree ps s n (numFanouts ps (ntk.fanoutSize n))

/-- The loop pops full buffers from a copy of the queue until it finds one that is not. -/
def findFanout (degree : ℕ) (substituted : TechnologyNetwork) : List ℕ → Option ℕ
  | [] => none
  | child :: q =>
    if substituted.fanoutSize child ≥ degree then findFanout degree substituted q else some child

def getFanout (s : State) (n child : ℕ) : Option ℕ :=
  if s.substituted.fanoutSize child ≥ ps.threshold.toNat ∧ s.availableFanouts n ≠ [] then
    findFanout ps.degree.toNat s.substituted (s.availableFanouts n)
  else some child

def gatherChild (s : State) (fn : ℕ) : Option ℕ :=
  if TechnologyNetwork.isConstant fn then some (s.old2new fn)
  else getFanout ps s fn (s.old2new fn)

def cloneGate (s : State) (n : ℕ) : Option State := do
  let children ← (ntk.node n).children.mapM (gatherChild ps s)
  let (substituted, child) := s.substituted.cloneNode ntk n children
  some { s with substituted, old2new := Function.update s.old2new n child }

def substituteGate (s : State) (n : ℕ) : Option State := do
  generateFanoutTree ntk ps (← cloneGate ntk ps s n) n

/-- The signals of a technology network are not complemented. -/
def substitutePo (s : State) (po : ℕ) : Option State := do
  let tgtPo ← getFanout ps s po (s.old2new po)
  some { s with substituted := s.substituted.createPo tgtPo }

def substituteRi (s : State) (ri : ℕ) : Option State := do
  let tgtRi ← getFanout ps s ri (s.old2new ri)
  some { s with substituted := s.substituted.createRi tgtRi }

def initialState [CopyInitializer] : State where
  substituted := (ntk.initializeCopyNetwork).1
  old2new := (ntk.initializeCopyNetwork).2
  availableFanouts _ := []

/-- The gates are those of the topological view. In a combinational network the combinational
inputs are the primary inputs. -/
def run [CopyInitializer] (gates : List ℕ) : Option TechnologyNetwork := do
  let s ← ntk.inputs.foldlM (generateFanoutTree ntk ps) (initialState ntk)
  let s ← gates.foldlM (substituteGate ntk ps) s
  let s ← ntk.foreachPo.foldlM (substitutePo ps) s
  let s ← ntk.foreachRi.foldlM (substituteRi ps) s
  some (ntk.restoreNames s.substituted gates s.old2new)

def isNodeSubstituted (n : ℕ) : Bool :=
  if TechnologyNetwork.isConstant n then true
  else if ntk.isFanout n then ntk.fanoutSize n ≤ ps.degree.toNat
  else ntk.fanoutSize n ≤ ps.threshold.toNat

def isFanoutSubstituted : Bool := (List.range ntk.size).all (isNodeSubstituted ntk ps)

end Substitution

end Fiction.FanoutSubstitution
