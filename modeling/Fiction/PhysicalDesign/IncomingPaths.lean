import Fiction.PhysicalDesign.MajorityBuffer
import Mathlib.Algebra.BigOperators.Group.List.Lemmas

/-!
# Paths that lead to a node

`all_incoming_edge_paths` enumerates the sequences of edges from nodes without fan-ins to a node.
Parallel edges are equal, so that a path occurs as often as its edges can be chosen.
-/

namespace Fiction.MajorityBuffer

section Definitions

variable (ntk : TechnologyNetwork)

/-- A sequence of connected edges from a node without fan-ins to `n`. No source is constant. -/
structure IsIncomingPath (n : ℕ) (path : List Edge) : Prop where
  edge : ∀ e ∈ path, e.source ∈ foreachFanin ntk e.target ∧
    TechnologyNetwork.isConstant e.source = false
  chain : path.IsChain fun e e' => e.target = e'.source
  start : foreachFanin ntk (pathStart n path) = []
  last : ∀ e ∈ path.getLast?, e.target = n

/-- The number of ways to choose parallel edges. -/
def numParallel (path : List Edge) : ℕ :=
  (path.map fun e => (foreachFanin ntk e.target).count e.source).prod

end Definitions

section Paths

variable {ntk : TechnologyNetwork} {n : ℕ} {path : List Edge} {e : Edge}

theorem isIncomingPath_nil : IsIncomingPath ntk n [] ↔ foreachFanin ntk n = [] :=
  ⟨fun h => h.start, fun h => ⟨fun _ he => absurd he List.not_mem_nil, .nil, h,
    fun _ he => absurd he (Option.not_mem_none _)⟩⟩

theorem isIncomingPath_concat : IsIncomingPath ntk n (path ++ [e]) ↔
    e.target = n ∧ e.source ∈ foreachFanin ntk n ∧
      TechnologyNetwork.isConstant e.source = false ∧ IsIncomingPath ntk e.source path := by
  constructor
  · intro h
    obtain rfl : e.target = n := h.last e (by rw [List.getLast?_concat]; rfl)
    obtain ⟨hmem, hconst⟩ := h.edge e (List.mem_append_right path (List.mem_singleton_self e))
    obtain ⟨hchain, -, hlast⟩ := List.isChain_append.1 h.chain
    refine ⟨rfl, hmem, hconst, fun e' he' => h.edge e' (List.mem_append_left _ he'), hchain, ?_, ?_⟩
    · rw [← pathStart_concat]
      exact h.start
    · exact fun e' he' => hlast e' he' e rfl
  · rintro ⟨rfl, hmem, hconst, h⟩
    refine ⟨?_, ?_, ?_, ?_⟩
    · intro e' he'
      rcases List.mem_append.1 he' with he' | he'
      · exact h.edge e' he'
      · obtain rfl := List.mem_singleton.1 he'
        exact ⟨hmem, hconst⟩
    · refine List.isChain_append.2 ⟨h.chain, List.isChain_singleton e, fun e' he' e'' he'' => ?_⟩
      cases he''
      exact h.last e' he'
    · rw [pathStart_concat]
      exact h.start
    · intro e' he'
      rw [List.getLast?_concat] at he'
      cases he'
      rfl

theorem numParallel_concat : numParallel ntk (path ++ [e]) =
    numParallel ntk path * (foreachFanin ntk e.target).count e.source := by
  rw [numParallel, List.map_append, List.prod_append, List.map_singleton, List.prod_singleton,
    numParallel]

/-- A level of the recursion as one list. -/
theorem allIncomingEdgePaths_succ {fuel : ℕ} {paths : List (List Edge)}
    (h : allIncomingEdgePaths ntk (fuel + 1) n = some paths) (hne : foreachFanin ntk n ≠ []) :
    paths = (incomingEdges ntk n).flatMap fun e =>
      ((allIncomingEdgePaths ntk fuel e.source).getD []).map (· ++ [e]) := by
  rw [allIncomingEdgePaths, if_neg hne, Option.bind_eq_bind, Option.bind_eq_some_iff] at h
  obtain ⟨pss, hpss, hpaths⟩ := h
  obtain rfl := Option.some.inj hpaths
  have hmap := congrArg (List.map fun r => r.getD []) (mapM_eq_some_iff_map.1 hpss)
  rw [List.map_map, List.map_map] at hmap
  have hpss' : pss = (incomingEdges ntk n).map fun e =>
      ((allIncomingEdgePaths ntk fuel e.source).getD []).map (· ++ [e]) := by
    rw [← List.map_id pss]
    refine hmap.symm.trans (List.map_congr_left fun e _ => ?_)
    cases h : allIncomingEdgePaths ntk fuel e.source with
    | none => simp [h]
    | some ps => simp [h]
  rw [List.flatMap, hpss']

theorem mem_iff_isIncomingPath {fuel : ℕ} {paths : List (List Edge)}
    (h : allIncomingEdgePaths ntk fuel n = some paths) :
    path ∈ paths ↔ IsIncomingPath ntk n path := by
  induction fuel generalizing n paths path with
  | zero => cases h
  | succ fuel ih =>
    by_cases hnil : foreachFanin ntk n = []
    · rw [allIncomingEdgePaths, if_pos hnil] at h
      obtain rfl := Option.some.inj h
      rw [List.mem_singleton]
      constructor
      · rintro rfl
        exact isIncomingPath_nil.2 hnil
      · intro hpath
        cases path using List.reverseRecOn with
        | nil => rfl
        | append_singleton p e =>
          have hmem := (isIncomingPath_concat.1 hpath).2.1
          rw [hnil] at hmem
          cases hmem
    · rw [mem_allIncomingEdgePaths h hnil]
      constructor
      · rintro ⟨e, he, ps, hps, p, hp, rfl⟩
        obtain ⟨rfl, hc, hconst⟩ := mem_incomingEdges.1 he
        exact isIncomingPath_concat.2 ⟨rfl, hc, hconst, (ih hps).1 hp⟩
      · intro hpath
        cases path using List.reverseRecOn with
        | nil => exact absurd (isIncomingPath_nil.1 hpath) hnil
        | append_singleton p e =>
          obtain ⟨rfl, hc, hconst, hp⟩ := isIncomingPath_concat.1 hpath
          have he := mem_incomingEdges.2 ⟨rfl, hc, hconst⟩
          obtain ⟨ps, hps⟩ := exists_source_paths h hnil he
          exact ⟨e, he, ps, hps, p, (ih hps).2 hp, rfl⟩

theorem count_incomingEdges (hconst : TechnologyNetwork.isConstant e.source = false) :
    (incomingEdges ntk e.target).count e = (foreachFanin ntk e.target).count e.source := by
  have hinj : Function.Injective fun c => (⟨c, e.target⟩ : Edge) := fun c c' h =>
    congrArg Edge.source h
  rw [incomingEdges, List.count_filter (by simpa using hconst)]
  exact List.count_map_of_injective _ _ hinj e.source

theorem count_eq_numParallel {fuel : ℕ} {paths : List (List Edge)}
    (h : allIncomingEdgePaths ntk fuel n = some paths) (hpath : IsIncomingPath ntk n path) :
    paths.count path = numParallel ntk path := by
  induction fuel generalizing n paths path with
  | zero => cases h
  | succ fuel ih =>
    cases path using List.reverseRecOn with
    | nil =>
      rw [allIncomingEdgePaths, if_pos (isIncomingPath_nil.1 hpath)] at h
      obtain rfl := Option.some.inj h
      rfl
    | append_singleton p e =>
      obtain ⟨rfl, hc, hconst, hp⟩ := isIncomingPath_concat.1 hpath
      have hne : foreachFanin ntk e.target ≠ [] := List.ne_nil_of_mem hc
      obtain ⟨ps, hps⟩ := exists_source_paths h hne (mem_incomingEdges.2 ⟨rfl, hc, hconst⟩)
      -- only the rounds for edges equal to the last one contribute
      have hother : ∀ e' ≠ e, e' ∈ incomingEdges ntk e.target →
          (((allIncomingEdgePaths ntk fuel e'.source).getD []).map (· ++ [e'])).count
            (p ++ [e]) = 0 := by
        intro e' hne' _
        apply List.count_eq_zero_of_not_mem
        intro hmem
        obtain ⟨p', -, hp'⟩ := List.mem_map.1 hmem
        exact hne' (List.concat_inj.1 (by simpa using hp')).2
      have hinj : Function.Injective fun p' : List Edge => p' ++ [e] :=
        List.append_left_injective [e]
      rw [allIncomingEdgePaths_succ h hne, List.count_flatMap]
      refine (List.sum_map_eq_nsmul_single e _ hother).trans ?_
      rw [hps, Option.getD_some, List.count_map_of_injective _ _ hinj,
        ih hps hp, count_incomingEdges hconst, numParallel_concat, Nat.nsmul_eq_mul, Nat.mul_comm]

theorem foreachFanin_specification (S : SpecificationNetwork) (n : ℕ) :
    foreachFanin S.ntk n = S.foreachFanin n := by
  rw [foreachFanin]
  split_ifs with hs
  · exact (S.children_source n (TechnologyNetwork.isSource_iff.mpr hs)).symm
  · rfl

theorem allIncomingEdgePaths_specification {S : SpecificationNetwork} (hn : n ∈ S.foreachNode)
    {fuel : ℕ} {paths : List (List Edge)} (h : allIncomingEdgePaths S.ntk fuel n = some paths) :
    S.allIncomingEdgePaths n = paths := by
  induction fuel generalizing n paths with
  | zero => cases h
  | succ fuel ih =>
    by_cases hg : n ∈ S.topo.gates
    · have hfanin := foreachFanin_specification S n
      have hne : foreachFanin S.ntk n ≠ [] := hfanin ▸ S.foreachFanin_ne_nil hg
      have hsource : ∀ e ∈ incomingEdges S.ntk n,
          (allIncomingEdgePaths S.ntk fuel e.source).getD [] = S.allIncomingEdgePaths e.source := by
        intro e he
        obtain ⟨ps, hps⟩ := exists_source_paths h hne he
        have hc : e.source ∈ S.foreachFanin n := hfanin ▸ (mem_incomingEdges.1 he).2.1
        rw [hps, Option.getD_some, ih (S.mem_foreachNode_of_mem_foreachFanin hn hc) hps]
      rw [allIncomingEdgePaths_succ h hne, List.flatMap_congr fun e he => by rw [hsource e he],
        S.allIncomingEdgePaths_of_mem hg, incomingEdges, foreachIncomingEdge, hfanin]
      induction S.foreachFanin n with
      | nil => rfl
      | cons c cs ih =>
        rw [List.flatMap_cons, List.map_cons, List.filter_cons, ih]
        cases TechnologyNetwork.isConstant c <;> simp
    · have hnil : foreachFanin S.ntk n = [] := by
        by_contra hne
        obtain ⟨c, hc⟩ := List.exists_mem_of_ne_nil _ hne
        rw [foreachFanin_specification] at hc
        exact hg (SpecificationNetwork.mem_gates_of_mem_foreachFanin hn hc)
      rw [allIncomingEdgePaths, if_pos hnil] at h
      rw [S.allIncomingEdgePaths_of_notMem hg]
      exact Option.some.inj h

/-- Exactly the paths to the node are enumerated, each once for each choice of parallel edges. A
node without fan-ins has the empty path alone. Where exact placement asks for the paths, it gets
them. -/
theorem exists_allIncomingEdgePaths_count (ha : Acyclic ntk) (n : ℕ) :
    ∃ fuel paths, allIncomingEdgePaths ntk fuel n = some paths ∧
      (∀ path, path ∈ paths ↔ IsIncomingPath ntk n path) ∧
      (∀ path, IsIncomingPath ntk n path → paths.count path = numParallel ntk path) ∧
      (foreachFanin ntk n = [] → paths = [[]]) ∧
      ∀ S : SpecificationNetwork, S.ntk = ntk → n ∈ S.foreachNode →
        S.allIncomingEdgePaths n = paths := by
  obtain ⟨rank, hrank⟩ := ha
  obtain ⟨paths, hpaths⟩ := exists_allIncomingEdgePaths hrank (Nat.lt_succ_self (rank n))
  refine ⟨rank n + 1, paths, hpaths, fun path => mem_iff_isIncomingPath hpaths,
    fun path => count_eq_numParallel hpaths, fun hnil => ?_, ?_⟩
  · rw [allIncomingEdgePaths, if_pos hnil] at hpaths
    exact (Option.some.inj hpaths).symm
  · rintro S rfl hn
    exact allIncomingEdgePaths_specification hn hpaths

end Paths

section Networks

/-- Both fan-ins of the first gate are the input, and the second gate has a constant fan-in. -/
def parallelEdges : TechnologyNetwork :=
  let (ntk, x) := TechnologyNetwork.empty.createPi
  let (ntk, a) := ntk.createMaj x x 1
  (ntk.createMaj a x 0).1

theorem exists_allIncomingEdgePaths_count_parallelEdges :
    ∃ fuel paths, allIncomingEdgePaths parallelEdges fuel 4 = some paths ∧
      (∀ path, path ∈ paths ↔ IsIncomingPath parallelEdges 4 path) ∧
      (∀ path, IsIncomingPath parallelEdges 4 path →
        paths.count path = numParallel parallelEdges path) ∧
      (foreachFanin parallelEdges 4 = [] → paths = [[]]) ∧
      ∀ S : SpecificationNetwork, S.ntk = parallelEdges → 4 ∈ S.foreachNode →
        S.allIncomingEdgePaths 4 = paths :=
  exists_allIncomingEdgePaths_count (acyclic_of_forall_lt (by decide)) 4

example : allIncomingEdgePaths parallelEdges 3 4 =
    some [[⟨2, 3⟩, ⟨3, 4⟩], [⟨2, 3⟩, ⟨3, 4⟩], [⟨2, 4⟩]] := by decide

end Networks

end Fiction.MajorityBuffer
