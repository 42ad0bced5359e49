import Fiction.Networks.TopoView

/-!
# Fan-out views and edges

A fan-out view collects the gates that read a node, each of them once, in an order that is left
open. Only inverter balancing depends on it: there, fan-outs are listed in the order in which the
underlying view visits its gates.
-/

namespace Fiction

structure Edge where
  source : ℕ
  target : ℕ
  deriving DecidableEq, Repr

/-- The source of the first edge of a path into `n`. -/
def pathStart (n : ℕ) (path : List Edge) : ℕ := (path.head?.map Edge.source).getD n

theorem pathStart_concat {n : ℕ} {path : List Edge} {e : Edge} :
    pathStart n (path ++ [e]) = pathStart e.source path := by
  cases path <;> rfl

namespace TechnologyNetwork

variable (ntk : TechnologyNetwork)

def IsGate (n : ℕ) : Prop := n < ntk.size ∧ ¬ ntk.IsSource n

instance (n : ℕ) : Decidable (ntk.IsGate n) := inferInstanceAs (Decidable (_ ∧ _))

/-- The fan-outs of `n` among the gates of a view. -/
def fanoutsIn (gates : List ℕ) (n : ℕ) : List ℕ :=
  gates.filter fun g => (ntk.node g).children.contains n

variable {ntk}

theorem isSource_iff {n : ℕ} : ntk.IsSource n ↔ isConstant n = true ∨ ntk.isCi n = true := by
  rw [IsSource, isConstant, isCi, decide_eq_true_eq, List.contains_iff_mem]

theorem mem_fanoutsIn {gates : List ℕ} {n g : ℕ} :
    g ∈ ntk.fanoutsIn gates n ↔ g ∈ gates ∧ n ∈ (ntk.node g).children := by
  rw [fanoutsIn, List.mem_filter, List.contains_iff_mem]

end TechnologyNetwork

structure FanoutView (ntk : TechnologyNetwork) where
  fanouts : ℕ → List ℕ
  nodup : ∀ n, (fanouts n).Nodup
  mem_fanouts : ∀ n m, m ∈ fanouts n ↔ ntk.IsGate m ∧ n ∈ (ntk.node m).children

theorem FanoutView.mem_fanouts_iff {ntk : TechnologyNetwork} (V : FanoutView ntk) {n g : ℕ} :
    g ∈ V.fanouts n ↔ g ∈ ntk.creationOrder ∧ n ∈ (ntk.node g).children :=
  (V.mem_fanouts n g).trans (and_congr_left' TechnologyNetwork.mem_creationOrder.symm)

def TechnologyNetwork.fanoutView (ntk : TechnologyNetwork) : FanoutView ntk where
  fanouts := ntk.fanoutsIn ntk.creationOrder
  nodup _ := nodup_creationOrder.filter _
  mem_fanouts _ _ := mem_fanoutsIn.trans (and_congr_left' mem_creationOrder)

end Fiction
