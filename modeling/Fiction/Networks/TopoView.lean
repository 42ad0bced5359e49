import Fiction.Networks.TechnologyNetwork
import Mathlib.Algebra.Order.BigOperators.Group.List
import Mathlib.Algebra.Order.Group.Nat

/-!
# Topological views and the functions of outputs

A topological view lists the gates in the cones of the outputs such that each gate comes after its
children. Its traversal is a parameter of the algorithms below. The functions of the outputs do not
depend on the view along which they are evaluated.
-/

namespace Fiction.TechnologyNetwork

variable (ntk : TechnologyNetwork)

def graph : Graph ℕ Bool where
  deps n := (ntk.node n).children
  rule n := (ntk.node n).function.eval

/-- Constants and combinational inputs. -/
def IsSource (n : ℕ) : Prop := n ≤ 1 ∨ n ∈ ntk.inputs

instance (n : ℕ) : Decidable (ntk.IsSource n) := inferInstanceAs (Decidable (_ ∨ _))

/-- The traversal order of `topo_view`. -/
structure TopoView where
  gates : List ℕ
  sorted : ntk.graph.Sorted ntk.IsSource gates
  gates_lt : ∀ n ∈ gates, n < ntk.size
  outputs_mem : ∀ o ∈ ntk.outputs, ntk.IsSource o ∨ o ∈ gates

/-- `a i` is the value of the combinational input with index `i`. -/
def sourceValues (a : ℕ → Bool) (n : ℕ) : Bool :=
  if n ≤ 1 then n = 1 else a (ntk.inputs.idxOf n)

def simulate (gates : List ℕ) (a : ℕ → Bool) : ℕ → Bool :=
  ntk.graph.evaluate gates (ntk.sourceValues a)

/-- The values of all outputs in order. -/
def outputValues (gates : List ℕ) (a : ℕ → Bool) : List Bool :=
  ntk.outputs.map (ntk.simulate gates a)

variable {ntk}

theorem TopoView.simulate_solves (V : ntk.TopoView) (a : ℕ → Bool) :
    ntk.graph.Solves ntk.IsSource V.gates (ntk.sourceValues a) (ntk.simulate V.gates a) :=
  Graph.evaluate_solves V.sorted _

theorem TopoView.outputValues_eq (V : ntk.TopoView) {a : ℕ → Bool} {v : ℕ → Bool}
    (hv : ntk.graph.Solves ntk.IsSource V.gates (ntk.sourceValues a) v) :
    ntk.outputValues V.gates a = ntk.outputs.map v :=
  List.map_congr_left fun o ho =>
    (V.simulate_solves a).unique V.sorted hv (V.outputs_mem o ho)

theorem TopoView.outputValues_congr (V V' : ntk.TopoView) (a : ℕ → Bool) :
    ntk.outputValues V'.gates a = ntk.outputValues V.gates a := by
  have hv := V.simulate_solves a
  have hv' := V'.simulate_solves a
  refine List.map_congr_left fun o ho => ?_
  have heq : ntk.IsSource o ∨ o ∈ V.gates →
      ntk.simulate V'.gates a o = ntk.simulate V.gates a o := by
    refine @Graph.Sorted.induction _ _ _ _ _ V'.sorted (fun n => ntk.IsSource n ∨ n ∈ V.gates →
      ntk.simulate V'.gates a n = ntk.simulate V.gates a n) ?_ ?_ o (V'.outputs_mem o ho)
    · intro n hn _
      rw [hv.base n hn, hv'.base n hn]
    · intro n hn hdeps hmem
      have hgate := hmem.resolve_left (V'.sorted.not_known n hn)
      rw [hv.rule n hgate, hv'.rule n hn]
      exact congrArg _ (List.map_congr_left fun d hd => hdeps d hd (V.sorted.deps hgate hd))
  exact heq (V.outputs_mem o ho)

/-- Same numbers of inputs and outputs of each kind, and the same functions in the same order. -/
structure Equivalent {ntk ntk' : TechnologyNetwork} (V : ntk.TopoView) (V' : ntk'.TopoView) :
    Prop where
  inputs : ntk'.inputs.length = ntk.inputs.length
  numPis : ntk'.numPis = ntk.numPis
  outputs : ntk'.outputs.length = ntk.outputs.length
  numPos : ntk'.numPos = ntk.numPos
  values : ∀ a, ntk'.outputValues V'.gates a = ntk.outputValues V.gates a

/-- The value of node `m` of `ntk'` in terms of nodes of `ntk`, for every solution of `ntk`. -/
def Follows (ntk ntk' : TechnologyNetwork) (gates : List ℕ) (f : ℕ → ℕ) (m : ℕ) : Prop :=
  ∀ a v, ntk.graph.Solves ntk.IsSource gates (ntk.sourceValues a) v →
    v (f m) = (ntk'.node m).function.eval ((ntk'.node m).children.map (v ∘ f))

/-- `f` maps the nodes of `ntk'` to nodes of `ntk` with the same value, and inputs to inputs in
order. -/
structure Simulation (ntk ntk' : TechnologyNetwork) (gates : List ℕ) (f : ℕ → ℕ) : Prop where
  constant : ∀ n ≤ 1, f n = n
  inputs : ntk'.inputs.map f = ntk.inputs
  follows : ∀ n < ntk'.size, ¬ ntk'.IsSource n → Follows ntk ntk' gates f n

theorem Simulation.isSource {ntk' : TechnologyNetwork} {gates : List ℕ} {f : ℕ → ℕ}
    (h : Simulation ntk ntk' gates f) {n : ℕ} (hn : ntk'.IsSource n) : ntk.IsSource (f n) := by
  rcases hn with hn | hn
  · exact .inl ((h.constant n hn).le.trans hn)
  · exact .inr (h.inputs ▸ List.mem_map_of_mem hn)

theorem Simulation.sourceValues {ntk' : TechnologyNetwork} {gates : List ℕ} {f : ℕ → ℕ}
    (h : Simulation ntk ntk' gates f) (hw : ntk.WellFormed) (a : ℕ → Bool) {n : ℕ}
    (hn : ntk'.IsSource n) : ntk'.sourceValues a n = ntk.sourceValues a (f n) := by
  by_cases hc : n ≤ 1
  · rw [h.constant n hc]
    simp only [TechnologyNetwork.sourceValues, hc, if_true]
  · have hm := hn.resolve_left hc
    have hfm : f n ∈ ntk.inputs := h.inputs ▸ List.mem_map_of_mem hm
    have hf := (hw.input _ hfm).1
    have hi : ntk'.inputs.idxOf n < ntk'.inputs.length := List.idxOf_lt_length_of_mem hm
    have hidx : ntk.inputs.idxOf (f n) = ntk'.inputs.idxOf n := by
      have hlen : ntk'.inputs.idxOf n < ntk.inputs.length := by rw [← h.inputs]; simpa using hi
      have hget : ntk.inputs[ntk'.inputs.idxOf n] = f n := by
        simp only [← h.inputs, List.getElem_map, List.getElem_idxOf]
      rw [← hget, hw.inputs_nodup.idxOf_getElem]
    rw [TechnologyNetwork.sourceValues, TechnologyNetwork.sourceValues, if_neg hc,
      if_neg (by omega), hidx]

theorem Simulation.solves {ntk' : TechnologyNetwork} {V : ntk.TopoView} {f : ℕ → ℕ}
    (h : Simulation ntk ntk' V.gates f) (hw : ntk.WellFormed) (V' : ntk'.TopoView) (a : ℕ → Bool) :
    ntk'.graph.Solves ntk'.IsSource V'.gates (ntk'.sourceValues a) (ntk.simulate V.gates a ∘ f) :=
  (V.simulate_solves a).pullback (fun _ hn => ⟨h.isSource hn, h.sourceValues hw a hn⟩)
    fun n hn => h.follows n (V'.gates_lt n hn) (V'.sorted.not_known n hn) a _ (V.simulate_solves a)

theorem Simulation.outputValues {ntk' : TechnologyNetwork} {V : ntk.TopoView} {f : ℕ → ℕ}
    (h : Simulation ntk ntk' V.gates f) (hw : ntk.WellFormed) (V' : ntk'.TopoView) (a : ℕ → Bool) :
    ntk'.outputValues V'.gates a = ntk'.outputs.map (ntk.simulate V.gates a ∘ f) :=
  V'.outputValues_eq (h.solves hw V' a)

theorem Simulation.simulate_eq {ntk' : TechnologyNetwork} {V : ntk.TopoView} {f : ℕ → ℕ}
    (h : Simulation ntk ntk' V.gates f) (hw : ntk.WellFormed) (V' : ntk'.TopoView) (a : ℕ → Bool)
    {n : ℕ} (hn : ntk'.IsSource n ∨ n ∈ V'.gates) :
    ntk'.simulate V'.gates a n = ntk.simulate V.gates a (f n) :=
  (V'.simulate_solves a).unique V'.sorted (h.solves hw V' a) hn

theorem Simulation.equivalent_iff {ntk' : TechnologyNetwork} {V : ntk.TopoView} {f : ℕ → ℕ}
    (h : Simulation ntk ntk' V.gates f) (hw : ntk.WellFormed) (hpis : ntk'.numPis = ntk.numPis)
    (hpos : ntk'.numPos = ntk.numPos) (hlen : ntk'.outputs.length = ntk.outputs.length)
    (V' : ntk'.TopoView) : Equivalent V V' ↔ ∀ a,
      ntk'.outputs.map (ntk.simulate V.gates a ∘ f) = ntk.outputs.map (ntk.simulate V.gates a) := by
  constructor
  · intro he a
    rw [← h.outputValues hw V' a]
    exact he.values a
  · intro hv
    refine ⟨by rw [← h.inputs, List.length_map], hpis, hlen, hpos, fun a => ?_⟩
    rw [h.outputValues hw V' a]
    exact hv a

theorem map_range_size {β : Type*} (ntk : TechnologyNetwork) (f : NetworkNode → β) :
    (List.range ntk.size).map (fun n => f (ntk.node n)) = ntk.nodes.map f := by
  refine List.ext_getElem (by simp [size]) fun i hi hi' => ?_
  rw [List.length_map] at hi'
  simp [node, hi']

theorem sum_map_gates_le (ntk : TechnologyNetwork) {gates : List ℕ} (hnd : gates.Nodup)
    (hlt : ∀ n ∈ gates, n < ntk.size) (f : NetworkNode → ℕ) :
    (gates.map fun n => f (ntk.node n)).sum ≤ (ntk.nodes.map f).sum := by
  have hsub : List.Subperm gates (List.range ntk.size) :=
    hnd.subperm fun m hm => List.mem_range.mpr (hlt m hm)
  obtain ⟨l, hperm, hsublist⟩ := hsub
  rw [← ntk.map_range_size f, ← (hperm.map _).sum_eq]
  exact (hsublist.map _).sum_le_sum fun _ _ => Nat.zero_le _

section CreationOrder

variable (ntk) in
def creationOrder : List ℕ := (List.range ntk.size).filter fun n => ¬ ntk.IsSource n

theorem mem_creationOrder {n : ℕ} : n ∈ ntk.creationOrder ↔ n < ntk.size ∧ ¬ ntk.IsSource n := by
  rw [creationOrder, List.mem_filter, List.mem_range, decide_eq_true_eq]

theorem nodup_creationOrder : ntk.creationOrder.Nodup := List.nodup_range.filter _

theorem sorted_filter_range {p : ℕ → Bool} (hp : ∀ n, p n = true → ¬ ntk.IsSource n)
    (h : ∀ n < ntk.size, p n = true → ∀ c ∈ (ntk.node n).children,
      c < n ∧ (ntk.IsSource c ∨ p c = true)) :
    ntk.graph.Sorted ntk.IsSource ((List.range ntk.size).filter p) := by
  have hk : ∀ k ≤ ntk.size, ntk.graph.Sorted ntk.IsSource ((List.range k).filter p) := by
    intro k hk
    induction k with
    | zero => trivial
    | succ k ih =>
      rw [List.range_succ, List.filter_append, Graph.sorted_append]
      refine ⟨ih (by omega), ?_⟩
      cases hpk : p k with
      | false => simp [hpk, Graph.Sorted]
      | true =>
        simp only [hpk, List.filter_singleton, cond_true]
        refine ⟨?_, fun c hc => ?_, trivial⟩
        · simp [hp k hpk]
        · obtain ⟨hlt, hc⟩ := h k (by omega) hpk c hc
          exact hc.imp_right fun hpc => List.mem_filter.mpr ⟨List.mem_range.mpr hlt, hpc⟩
  exact hk ntk.size le_rfl

theorem sorted_creationOrder
    (h : ∀ n < ntk.size, ¬ ntk.IsSource n → ∀ c ∈ (ntk.node n).children, c < n) :
    ntk.graph.Sorted ntk.IsSource ntk.creationOrder :=
  sorted_filter_range (fun _ hn => of_decide_eq_true hn) fun n hn hs c hc =>
    ⟨h n hn (of_decide_eq_true hs) c hc, (Classical.em _).imp_right decide_eq_true⟩

def creationView (h : ∀ n < ntk.size, ¬ ntk.IsSource n → ∀ c ∈ (ntk.node n).children, c < n)
    (ho : ∀ o ∈ ntk.outputs, o < ntk.size) : ntk.TopoView where
  gates := ntk.creationOrder
  sorted := sorted_creationOrder h
  gates_lt n hn := by
    have := (List.mem_filter.mp hn).1
    simpa using this
  outputs_mem o hm := by
    by_cases hs : ntk.IsSource o
    · exact .inl hs
    · exact .inr (List.mem_filter.mpr ⟨by simpa using ho o hm, by simpa using hs⟩)

end CreationOrder

end Fiction.TechnologyNetwork
