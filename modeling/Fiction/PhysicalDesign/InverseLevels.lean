import Fiction.Library.TransitionSystem
import Fiction.PhysicalDesign.SpecificationNetwork

/-!
# Levels and inverse levels

All gates of the view feed some output, so no level exceeds the depth. The inverse level of a node
is never more than the length of a path that starts there and stays in the view.
-/

namespace Fiction.SpecificationNetwork

open LongestPaths

variable {S : SpecificationNetwork} {n : ℕ}

theorem level_le_depth_of_mem_gates (hn : n ∈ S.topo.gates) : S.level n ≤ S.depth := by
  have hbound : ∀ m ∈ S.topo.gates, S.level m ≤ (S.topo.gates.map S.level).foldr max 0 :=
    fun m hm => le_foldr_max (List.mem_map_of_mem hm)
  have hrun : ∀ k n, n ∈ S.topo.gates → (S.topo.gates.map S.level).foldr max 0 - S.level n ≤ k →
      S.level n ≤ S.depth := by
    intro k
    induction k with
    | zero =>
      intro n hn hk
      rcases S.cone n hn with ho | ⟨m, hm, hc⟩
      · exact S.level_le_depth n ho
      · have hlt := S.level_lt m hm n hc
        have hle := hbound m hm
        omega
    | succ k ih =>
      intro n hn hk
      rcases S.cone n hn with ho | ⟨m, hm, hc⟩
      · exact S.level_le_depth n ho
      · have hlt := S.level_lt m hm n hc
        exact hlt.le.trans (ih m hm (by omega))
  exact hrun _ n hn le_rfl

theorem level_le_depth_of_mem (hn : n ∈ S.foreachNode) : S.level n ≤ S.depth := by
  rcases mem_foreachNode.mp hn with hs | hg
  · rw [S.level_source n hs]
    exact Nat.zero_le _
  · exact level_le_depth_of_mem_gates hg

/-- A path of `k` edges starts in `n` and stays in the view. -/
def HasFanoutPath (S : SpecificationNetwork) : ℕ → ℕ → Prop
  | 0, _ => True
  | k + 1, n => ∃ m ∈ S.foreachNode, n ∈ S.foreachFanin m ∧ S.HasFanoutPath k m

/-- Discovered nodes belong to the view, and there are paths as long as the inverse levels. -/
structure Explained (S : SpecificationNetwork) (s : InverseLevels) : Prop where
  view : ∀ n, s.discovered n = true → n ∈ S.foreachNode
  path : ∀ n, S.HasFanoutPath (s.invLevel n) n

theorem Explained.exists_fanout {s : InverseLevels} (hs : Explained S s)
    (hall : (S.fanouts n).all s.discovered = true) (hne : S.fanouts n ≠ []) :
    S.HasFanoutPath (((S.fanouts n).map s.invLevel).foldl max 0 + 1) n := by
  have hmem : ∀ m ∈ S.fanouts n, m ∈ S.foreachNode ∧ n ∈ S.foreachFanin m := fun m hm =>
    ⟨hs.view m (List.all_eq_true.mp hall m hm), (mem_fanouts.mp hm).2.2.2⟩
  rw [foldl_max_eq_foldr]
  rcases foldr_max_eq_zero_or_mem ((S.fanouts n).map s.invLevel) with hz | hmax
  · obtain ⟨m, hm⟩ := List.exists_mem_of_ne_nil _ hne
    rw [hz]
    exact ⟨m, (hmem m hm).1, (hmem m hm).2, trivial⟩
  · obtain ⟨m, hm, heq⟩ := List.mem_map.mp hmax
    exact ⟨m, (hmem m hm).1, (hmem m hm).2, heq ▸ hs.path m⟩

theorem Explained.discover {s : InverseLevels} (hs : Explained S s) (hn : n ∈ S.foreachNode)
    (hall : (S.fanouts n).all s.discovered = true) :
    Explained S (InverseLevels.enter S.fanouts n s) where
  view k hk := by
    by_cases heq : k = n
    · exact heq ▸ hn
    · simp only [InverseLevels.enter, Function.update_of_ne heq] at hk
      exact hs.view k hk
  path k := by
    by_cases heq : k = n
    · subst heq
      simp only [InverseLevels.enter, Function.update_self]
      split_ifs with hne
      · trivial
      · rcases max_choice (s.invLevel k) (((S.fanouts k).map s.invLevel).foldl max 0 + 1) with
          h | h
        · rw [h]
          exact hs.path k
        · rw [h]
          exact hs.exists_fanout hall hne
    · simp only [InverseLevels.enter, Function.update_of_ne heq]
      exact hs.path k

theorem Explained.invJdfs {s s' : InverseLevels} (hs : Explained S s) (hn : n ∈ S.foreachNode)
    {fuel : ℕ} (h : InverseLevels.invJdfs S.fanouts S.foreachFanin fuel s n = some s') :
    Explained S s' := by
  induction fuel generalizing n s s' with
  | zero => cases h
  | succ fuel ih =>
    by_cases hall : (S.fanouts n).all s.discovered = true
    · rw [InverseLevels.invJdfs, if_pos hall] at h
      refine invariant_foldlM (fun fin hfin s s' hs h => ?_) (hs.discover hn hall) h
      split_ifs at h
      · exact Option.some.inj h ▸ hs
      · exact ih hs (S.mem_foreachNode_of_mem_foreachFanin hn hfin) h
    · rw [InverseLevels.invJdfs, if_neg hall] at h
      exact Option.some.inj h ▸ hs

/-- A fuel above the level of the node is enough. -/
theorem exists_invJdfs {fuel : ℕ} (hn : n ∈ S.foreachNode) (hlt : S.level n < fuel)
    (s : InverseLevels) :
    ∃ s', InverseLevels.invJdfs S.fanouts S.foreachFanin fuel s n = some s' := by
  induction fuel generalizing n s with
  | zero => exact absurd hlt (Nat.not_lt_zero _)
  | succ fuel ih =>
    rw [InverseLevels.invJdfs]
    split_ifs
    · refine (exists_foldlM_of_forall fun fin hfin s => ?_) _
      have hlevel := S.level_lt n (mem_gates_of_mem_foreachFanin hn hfin) fin hfin
      split_ifs
      · exact ⟨s, rfl⟩
      · exact ih (mem_foreachNode_of_mem_foreachFanin hn hfin) (by omega) s
    · exact ⟨s, rfl⟩

theorem hasFanoutPath_invLevels (n : ℕ) : S.HasFanoutPath (S.invLevels n) n := by
  have hpo : ∀ po ∈ S.ntk.foreachPo, po ∈ S.foreachNode := fun po hpo =>
    mem_foreachNode.mpr (S.topo.outputs_mem po (List.mem_of_mem_take hpo))
  obtain ⟨s, hs⟩ : ∃ s, InverseLevels.search S.fanouts S.foreachFanin (S.depth + 1)
      S.ntk.foreachPo = some s := by
    refine (exists_foldlM_of_forall fun po hmem s => ?_) _
    exact exists_invJdfs (hpo po hmem)
      (Nat.lt_succ_of_le (S.level_le_depth po (List.mem_of_mem_take hmem))) s
  have hinit : Explained S .undiscovered :=
    ⟨fun _ h => absurd h Bool.false_ne_true, fun _ => trivial⟩
  have hexplained : Explained S s :=
    invariant_foldlM (fun po hmem _ _ hs h => hs.invJdfs (hpo po hmem) h) hinit hs
  rw [invLevels, hs]
  exact hexplained.path n

theorem allIncomingEdgePaths_of_notMem (hn : n ∉ S.topo.gates) :
    S.allIncomingEdgePaths n = [[]] :=
  Graph.evaluate_of_notMem hn

theorem sorted_pathGraph : S.pathGraph.Sorted S.ntk.IsSource S.topo.gates := by
  refine Graph.Sorted.congr (fun n => ?_) S.topo.sorted
  rfl

theorem allIncomingEdgePaths_of_mem (hn : n ∈ S.topo.gates) : S.allIncomingEdgePaths n =
    (S.foreachFanin n).flatMap fun c => if TechnologyNetwork.isConstant c then []
      else (S.allIncomingEdgePaths c).map (· ++ [⟨c, n⟩]) := by
  have hsolves := Graph.evaluate_solves S.sorted_pathGraph fun _ => [[]]
  rw [allIncomingEdgePaths, hsolves.rule n hn]
  change ((S.foreachFanin n).zip ((S.foreachFanin n).map S.allIncomingEdgePaths)).flatMap _ = _
  rw [← List.map_prod_left_eq_zip, List.flatMap_map]

theorem mem_allIncomingEdgePaths (hn : n ∈ S.topo.gates) {path : List Edge} :
    path ∈ S.allIncomingEdgePaths n ↔ ∃ c ∈ S.foreachFanin n,
      TechnologyNetwork.isConstant c = false ∧
        ∃ q ∈ S.allIncomingEdgePaths c, q ++ [⟨c, n⟩] = path := by
  rw [allIncomingEdgePaths_of_mem hn, List.mem_flatMap]
  apply exists_congr
  intro c
  apply and_congr_right
  intro _
  split_ifs with hconst
  · simp [hconst]
  · simp [hconst]

/-- Paths are traced back edge by edge, which never leads to a constant. -/
theorem path_induction {P : ℕ → List Edge → Prop} (hnil : ∀ n, n ∉ S.topo.gates → P n [])
    (hsnoc : ∀ n ∈ S.topo.gates, ∀ c ∈ S.foreachFanin n, TechnologyNetwork.isConstant c = false →
      ∀ path ∈ S.allIncomingEdgePaths c, P c path → P n (path ++ [⟨c, n⟩]))
    {path : List Edge} (hpath : path ∈ S.allIncomingEdgePaths n) : P n path := by
  have hout : ∀ n, n ∉ S.topo.gates → ∀ path ∈ S.allIncomingEdgePaths n, P n path := by
    intro n hn path hpath
    rw [allIncomingEdgePaths_of_notMem hn, List.mem_singleton] at hpath
    rw [hpath]
    exact hnil n hn
  by_cases hg : n ∈ S.topo.gates
  · refine S.sorted_pathGraph.induction (P := fun n => ∀ path ∈ S.allIncomingEdgePaths n, P n path)
      (fun n hs => hout n fun hg => S.sorted_pathGraph.not_known n hg hs)
      (fun n hn ih path hpath => ?_) (.inr hg) path hpath
    obtain ⟨c, hc, hconst, q, hq, rfl⟩ := (mem_allIncomingEdgePaths hn).mp hpath
    exact hsnoc n hn c hc hconst q hq (ih c hc q hq)
  · exact hout n hg path hpath

theorem isConstant_source_of_mem_paths {path : List Edge} (hpath : path ∈ S.allIncomingEdgePaths n)
    {ed : Edge} (hed : ed ∈ path) : TechnologyNetwork.isConstant ed.source = false := by
  refine path_induction
    (P := fun _ path => ∀ ed ∈ path, TechnologyNetwork.isConstant ed.source = false)
    (fun _ _ ed hed => absurd hed List.not_mem_nil) (fun n _ c _ hc path _ ih ed hed => ?_) hpath
    ed hed
  rcases List.mem_append.mp hed with hed | hed
  · exact ih ed hed
  · rw [List.mem_singleton.mp hed]
    exact hc

end Fiction.SpecificationNetwork
