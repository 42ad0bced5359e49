import Fiction.Library.LongestPaths
import Fiction.Networks.FanoutViews

/-!
# The network that is placed and routed

Primary outputs are substituted by buffers first, so that they can be placed as tiles of their own.
The resulting network is traversed through a topological view; a fan-out view lists the gates that
read a node, and a depth view tells the level of each node. These views are not part of the
sources: a specification network carries what their documentation promises.
-/

namespace Fiction

/-- What `inverse_levels` knows about the nodes while it runs. -/
structure InverseLevels where
  invLevel : ℕ → ℕ
  discovered : ℕ → Bool

namespace InverseLevels

variable (fanouts foreachFanin : ℕ → List ℕ)

def undiscovered : InverseLevels := ⟨fun _ => 0, fun _ => false⟩

def enter (n : ℕ) (s : InverseLevels) : InverseLevels :=
  ⟨Function.update s.invLevel n (if fanouts n = [] then 0
      else max (s.invLevel n) (((fanouts n).map s.invLevel).foldl max 0 + 1)),
    Function.update s.discovered n true⟩

/-- The inverse joint depth first search. A recursion that runs out of fuel is `none`. -/
def invJdfs : ℕ → InverseLevels → ℕ → Option InverseLevels
  | 0, _, _ => none
  | fuel + 1, s, n =>
    if (fanouts n).all s.discovered then
      (foreachFanin n).foldlM
        (fun s fin => if s.discovered fin then some s else invJdfs fuel s fin) (enter fanouts n s)
    else some s

def search (fuel : ℕ) (pos : List ℕ) : Option InverseLevels :=
  pos.foldlM (invJdfs fanouts foreachFanin fuel) undiscovered

end InverseLevels

structure SpecificationNetwork where
  ntk : TechnologyNetwork
  wellFormed : ntk.WellFormed
  topo : ntk.TopoView
  fanoutView : FanoutView ntk
  level : ℕ → ℕ
  depth : ℕ
  children_source : ∀ n, ntk.IsSource n → (ntk.node n).children = []
  /-- Primary outputs are buffers, none of which is a constant. -/
  outputs_substituted : ∀ o ∈ ntk.foreachPo, 2 ≤ o ∧ ntk.isBuf o = true
  level_source : ∀ n, ntk.IsSource n → level n = 0
  level_lt : ∀ n ∈ topo.gates, ∀ c ∈ (ntk.node n).children, level c < level n
  level_attained : ∀ n ∈ topo.gates, ∃ c ∈ (ntk.node n).children, level n = level c + 1
  level_le_depth : ∀ o ∈ ntk.outputs, level o ≤ depth
  depth_attained : depth = 0 ∨ ∃ o ∈ ntk.outputs, level o = depth
  /-- The view only lists gates in the cones of the outputs. -/
  cone : ∀ n ∈ topo.gates, n ∈ ntk.outputs ∨ ∃ m ∈ topo.gates, n ∈ (ntk.node m).children

namespace SpecificationNetwork

variable (S : SpecificationNetwork)

def foreachNode : List ℕ := [0, 1] ++ S.ntk.inputs ++ S.topo.gates

def foreachGate : List ℕ := S.topo.gates

def foreachFanin (n : ℕ) : List ℕ := (S.ntk.node n).children

def fanouts : ℕ → List ℕ := S.fanoutView.fanouts

def numGates : ℕ := S.topo.gates.length

def numPis : ℕ := S.ntk.numPis

def numPos : ℕ := S.ntk.numPos

def foreachIncomingEdge (n : ℕ) : List Edge := (S.foreachFanin n).map fun fi => ⟨fi, n⟩

def foreachOutgoingEdge (n : ℕ) : List Edge := (S.fanouts n).map fun fon => ⟨n, fon⟩

def foreachEdge : List Edge := S.foreachNode.flatMap S.foreachIncomingEdge

def hasIncomingPrimaryInput (n : ℕ) : Bool :=
  (S.foreachFanin n).any fun fin => !TechnologyNetwork.isConstant fin && S.ntk.isPi fin

def pathGraph : Graph ℕ (List (List Edge)) where
  deps := S.foreachFanin
  rule n paths :=
    ((S.foreachFanin n).zip paths).flatMap fun (c, ps) =>
      if TechnologyNetwork.isConstant c then [] else ps.map fun p => p ++ [⟨c, n⟩]

/-- The recursion of the source, unrolled along the topological order. -/
def allIncomingEdgePaths (n : ℕ) : List (List Edge) :=
  S.pathGraph.evaluate S.topo.gates (fun _ => [[]]) n

/-- The search is never deeper than the network. -/
def invLevels (n : ℕ) : ℕ :=
  (InverseLevels.search S.fanouts S.foreachFanin (S.depth + 1) S.ntk.foreachPo).elim 0
    (·.invLevel n)

variable {S}

theorem nodup_foreachNode : S.foreachNode.Nodup := by
  have hsrc : ∀ n ∈ S.topo.gates, ¬ S.ntk.IsSource n := S.topo.sorted.not_known
  have hin := S.wellFormed.input
  refine List.nodup_append.mpr ⟨List.nodup_append.mpr ⟨by decide, S.wellFormed.inputs_nodup, ?_⟩,
    S.topo.sorted.nodup, ?_⟩
  · intro a ha b hb hab
    have h2 := (hin b hb).1
    simp only [List.mem_cons, List.not_mem_nil, or_false] at ha
    omega
  · intro a ha b hb hab
    subst hab
    refine hsrc a hb ?_
    rcases List.mem_append.mp ha with h | h
    · left
      simp only [List.mem_cons, List.not_mem_nil, or_false] at h
      omega
    · exact .inr h

theorem mem_foreachNode {n : ℕ} : n ∈ S.foreachNode ↔ S.ntk.IsSource n ∨ n ∈ S.topo.gates := by
  simp only [foreachNode, List.mem_append, List.mem_cons, List.not_mem_nil, or_false,
    TechnologyNetwork.IsSource]
  constructor
  · rintro ((h | h) | h)
    · exact .inl (.inl (by omega))
    · exact .inl (.inr h)
    · exact .inr h
  · rintro ((h | h) | h)
    · exact .inl (.inl (by omega))
    · exact .inl (.inr h)
    · exact .inr h

theorem mem_gates_of_mem_foreachFanin {n c : ℕ} (hn : n ∈ S.foreachNode)
    (hc : c ∈ S.foreachFanin n) : n ∈ S.topo.gates := by
  refine (mem_foreachNode.mp hn).resolve_left fun hs => ?_
  rw [foreachFanin, S.children_source n hs] at hc
  exact List.not_mem_nil hc

theorem foreachFanin_ne_nil {n : ℕ} (hn : n ∈ S.topo.gates) : S.foreachFanin n ≠ [] := by
  have hs := S.topo.sorted.not_known n hn
  simp only [TechnologyNetwork.IsSource, not_or] at hs
  exact S.wellFormed.children_ne_nil n (by omega) (S.topo.gates_lt n hn) hs.2

theorem mem_foreachNode_of_mem_foreachFanin {n c : ℕ} (hn : n ∈ S.foreachNode)
    (hc : c ∈ S.foreachFanin n) : c ∈ S.foreachNode :=
  mem_foreachNode.mpr (S.topo.sorted.deps (mem_gates_of_mem_foreachFanin hn hc) hc)

theorem fanouts_nodup (n : ℕ) : (S.fanouts n).Nodup := S.fanoutView.nodup n

theorem mem_fanouts {n m : ℕ} : m ∈ S.fanouts n ↔
    2 ≤ m ∧ m < S.ntk.size ∧ m ∉ S.ntk.inputs ∧ n ∈ S.foreachFanin m := by
  rw [fanouts, S.fanoutView.mem_fanouts, TechnologyNetwork.IsGate, TechnologyNetwork.IsSource,
    not_or, not_le, foreachFanin]
  constructor
  · rintro ⟨⟨hlt, h2, hin⟩, hc⟩
    exact ⟨h2, hlt, hin, hc⟩
  · rintro ⟨h2, hlt, hin, hc⟩
    exact ⟨⟨hlt, h2, hin⟩, hc⟩

theorem mem_fanouts_of_mem_foreachFanin {n c : ℕ} (hn : n ∈ S.foreachNode)
    (hc : c ∈ S.foreachFanin n) : n ∈ S.fanouts c := by
  have hg := mem_gates_of_mem_foreachFanin hn hc
  have hs := S.topo.sorted.not_known n hg
  simp only [TechnologyNetwork.IsSource, not_or] at hs
  exact mem_fanouts.mpr ⟨by omega, S.topo.gates_lt n hg, hs.2, hc⟩

theorem mem_foreachEdge {e : Edge} :
    e ∈ S.foreachEdge ↔ e.target ∈ S.foreachNode ∧ e.source ∈ S.foreachFanin e.target := by
  simp only [foreachEdge, foreachIncomingEdge, List.mem_flatMap, List.mem_map]
  constructor
  · rintro ⟨n, hn, c, hc, rfl⟩
    exact ⟨hn, hc⟩
  · rintro ⟨hn, hc⟩
    exact ⟨e.target, hn, e.source, hc, rfl⟩

section Views

open LongestPaths

def levelGraph (ntk : TechnologyNetwork) : Graph ℕ ℕ where
  deps n := (ntk.node n).children
  rule _ levels := levels.foldr max 0 + 1

variable (ntk : TechnologyNetwork) (V : ntk.TopoView)

def levels : ℕ → ℕ := (levelGraph ntk).evaluate V.gates fun _ => 0

theorem levels_solves :
    (levelGraph ntk).Solves ntk.IsSource V.gates (fun _ => 0) (levels ntk V) := by
  have hsorted : (levelGraph ntk).Sorted ntk.IsSource V.gates := by
    refine Graph.Sorted.congr (fun n => ?_) V.sorted
    rfl
  exact Graph.evaluate_solves hsorted _

theorem levels_lt :
    ∀ n ∈ V.gates, ∀ c ∈ (ntk.node n).children, levels ntk V c < levels ntk V n := by
  intro n hn c hc
  rw [(levels_solves ntk V).rule n hn]
  exact Nat.lt_succ_of_le (le_foldr_max (List.mem_map_of_mem hc))

theorem levels_attained (hw : ntk.WellFormed) :
    ∀ n ∈ V.gates, ∃ c ∈ (ntk.node n).children, levels ntk V n = levels ntk V c + 1 := by
  intro n hn
  have hne : (ntk.node n).children ≠ [] := by
    have hs := V.sorted.not_known n hn
    simp only [TechnologyNetwork.IsSource, not_or] at hs
    exact hw.children_ne_nil n (by omega) (V.gates_lt n hn) hs.2
  obtain ⟨c, hc⟩ := List.exists_mem_of_ne_nil _ hne
  have hrule := (levels_solves ntk V).rule n hn
  rcases foldr_max_eq_zero_or_mem ((ntk.node n).children.map (levels ntk V)) with hz | hmem
  · have hle := le_foldr_max (List.mem_map_of_mem (f := levels ntk V) hc)
    rw [hz] at hle
    refine ⟨c, hc, hrule.trans ?_⟩
    rw [Nat.le_zero.mp hle]
    exact congrArg (· + 1) hz
  · obtain ⟨d, hd, heq⟩ := List.mem_map.mp hmem
    exact ⟨d, hd, hrule.trans (congrArg (· + 1) heq.symm)⟩

theorem depth_levels_attained :
    (ntk.outputs.map (levels ntk V)).foldr max 0 = 0 ∨
      ∃ o ∈ ntk.outputs, levels ntk V o = (ntk.outputs.map (levels ntk V)).foldr max 0 := by
  rcases foldr_max_eq_zero_or_mem (ntk.outputs.map (levels ntk V)) with hz | hmem
  · exact .inl hz
  · obtain ⟨o, ho, heq⟩ := List.mem_map.mp hmem
    exact .inr ⟨o, ho, heq⟩

def ofView (hw : ntk.WellFormed) (hsrc : ∀ n, ntk.IsSource n → (ntk.node n).children = [])
    (hout : ∀ o ∈ ntk.foreachPo, 2 ≤ o ∧ ntk.isBuf o = true)
    (hcone : ∀ n ∈ V.gates, n ∈ ntk.outputs ∨ ∃ m ∈ V.gates, n ∈ (ntk.node m).children) :
    SpecificationNetwork where
  ntk := ntk
  wellFormed := hw
  topo := V
  fanoutView := ntk.fanoutView
  level := levels ntk V
  depth := (ntk.outputs.map (levels ntk V)).foldr max 0
  children_source := hsrc
  outputs_substituted := hout
  level_source n hn := (levels_solves ntk V).base n hn
  level_lt := levels_lt ntk V
  level_attained := levels_attained ntk V hw
  level_le_depth _ ho := le_foldr_max (List.mem_map_of_mem ho)
  depth_attained := depth_levels_attained ntk V
  cone := hcone

/-- What `ofView` asks of the view in creation order. -/
structure Placeable : Prop where
  children_lt : ∀ n < ntk.size, ¬ ntk.IsSource n → ∀ c ∈ (ntk.node n).children, c < n
  outputs_lt : ∀ o ∈ ntk.outputs, o < ntk.size
  children_source : ∀ n, ntk.IsSource n → (ntk.node n).children = []
  outputs_substituted : ∀ o ∈ ntk.foreachPo, 2 ≤ o ∧ ntk.isBuf o = true
  cone : ∀ n ∈ ntk.creationOrder,
    n ∈ ntk.outputs ∨ ∃ m ∈ ntk.creationOrder, n ∈ (ntk.node m).children

variable {ntk}

theorem children_eq_nil_of_isSource (h : ∀ n ∈ 0 :: 1 :: ntk.inputs, (ntk.node n).children = []) :
    ∀ n, ntk.IsSource n → (ntk.node n).children = [] := by
  intro n hn
  apply h
  rcases hn with hn | hn
  · rcases Nat.le_one_iff_eq_zero_or_eq_one.mp hn with rfl | rfl
    · exact List.mem_cons_self
    · exact List.mem_cons_of_mem _ List.mem_cons_self
  · exact List.mem_cons_of_mem _ (List.mem_cons_of_mem _ hn)

end Views

end SpecificationNetwork
end Fiction
