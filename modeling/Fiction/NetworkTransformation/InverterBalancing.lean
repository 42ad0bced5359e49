import Fiction.Networks.FanoutViews
import Fiction.Networks.PartialCopy

/-!
# Inverter balancing

A fan-out node whose fan-outs are all inverters is replaced by an inverter in front of them: its
first inverter becomes a buffer, its second one is deleted and its uses are given to the first. The
three vectors record the fan-out nodes and their first and second inverters in the order in which the
fan-out nodes are met. Reading a child that a gate does not have is undefined, and `none` here.
-/

namespace Fiction.InverterBalancing

structure State where
  ntkDest : TechnologyNetwork
  old2new : ℕ → ℕ
  delInv : List ℕ
  newInv : List ℕ
  blcFos : List ℕ

section Balancing

variable (ntk : TechnologyNetwork) (gates : List ℕ)

/-- The first part of `gather_fanin_signals`. -/
def recordBalance (s : State) (n : ℕ) : State :=
  if ntk.isFanout n then
    match ntk.fanoutsIn gates n with
    | inv₀ :: inv₁ :: invs =>
      if (inv₀ :: inv₁ :: invs).all ntk.isInv then
        { s with
          delInv := s.delInv ++ [inv₁]
          newInv := s.newInv ++ [inv₀]
          blcFos := s.blcFos ++ [n] }
      else s
    | _ => s
  else s

def replaceDeleted (s : State) (fn : ℕ) : ℕ :=
  (s.delInv.zip s.newInv).foldl (fun fn p => if p.1 = fn then p.2 else fn) fn

def gatherFaninSignals (s : State) (n : ℕ) : List ℕ :=
  (ntk.node n).children.map fun fn => s.old2new (replaceDeleted s fn)

def State.define (s : State) (g : ℕ) (created : TechnologyNetwork × ℕ) : State :=
  { s with ntkDest := created.1, old2new := Function.update s.old2new g created.2 }

def copyGate (s : State) (g : ℕ) (children : List ℕ) : Option State := do
  if ntk.isAnd g then
    some (s.define g (s.ntkDest.createAnd (← children[0]?) (← children[1]?)))
  else if ntk.isOr g then
    some (s.define g (s.ntkDest.createOr (← children[0]?) (← children[1]?)))
  else if ntk.isXor g then
    some (s.define g (s.ntkDest.createXor (← children[0]?) (← children[1]?)))
  else if ntk.isMaj g then
    some (s.define g
      (s.ntkDest.createMaj (← children[0]?) (← children[1]?) (← children[2]?)))
  else some (s.define g (s.ntkDest.createNode children (ntk.node g).function))

def balanceGate (s : State) (g : ℕ) : Option State := do
  let s := recordBalance ntk gates s g
  let children := gatherFaninSignals ntk s g
  if ntk.isInv g ∧ g ∈ s.newInv then
    some (s.define g (s.ntkDest.createBuf (← children[0]?)))
  else if ntk.isInv g ∧ g ∈ s.delInv then some s
  else if ntk.isBuf g ∧ g ∈ s.blcFos then
    some (s.define g (s.ntkDest.createNot (← children[0]?)))
  else copyGate ntk s g children

/-- The signals of a technology network are not complemented. -/
def balancePo (s : State) (po : ℕ) : State :=
  { s with ntkDest := s.ntkDest.createPo (s.old2new po) }

def balanceRi (s : State) (ri : ℕ) : State :=
  { s with ntkDest := s.ntkDest.createRi (s.old2new ri) }

def initialState [CopyInitializer] : State where
  ntkDest := (ntk.initializeCopyNetwork).1
  old2new := (ntk.initializeCopyNetwork).2
  delInv := []
  newInv := []
  blcFos := []

/-- One run of `inverter_balancing_impl`, along the gates of a topological view. -/
def run [CopyInitializer] : Option TechnologyNetwork := do
  let s ← gates.foldlM (balanceGate ntk gates) (initialState ntk)
  let s := ntk.foreachRi.foldl balanceRi (ntk.foreachPo.foldl balancePo s)
  some (ntk.restoreNames s.ntkDest gates s.old2new)

end Balancing

end Fiction.InverterBalancing
