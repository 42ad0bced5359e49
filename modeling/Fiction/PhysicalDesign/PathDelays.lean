import Fiction.PhysicalDesign.WireLengths

/-!
# Delays of paths

The delay of a path is the clock number of the tile where it enters the layout plus the number of
tiles that it traverses. Nodes without a tile of their own, and the edges next to them, do not
count. Paths to an output that pass a node differ in their delays as far as they differ before it, so
that signals that are synchronized at the outputs are synchronized everywhere.
-/

namespace Fiction.Exact

variable {S : SpecificationNetwork} {p : ExactParams} {ar : AspectRatio} {v : Assignment}
  {n m : ℕ} {path : List Edge}

section Definitions

def pathNodes (n : ℕ) (path : List Edge) : List ℕ := path.map Edge.source ++ [n]

variable (S p ar v)

/-- The nodes of a path into `n` that get a tile. -/
def placedOn (n : ℕ) (path : List Edge) : List ℕ :=
  (pathNodes n path).filter fun m => !skipConstOrIoNode S p m

/-- The number of wire segments of an edge, which has none if it is not placed. -/
def numSegments (ed : Edge) : ℕ :=
  if skipConstOrIoEdge S p ed then 0 else (wires p ar v ed).length

def numWires (path : List Edge) : ℕ := (path.map (numSegments S p ar v)).sum

def entryClock (n : ℕ) (path : List Edge) : ℕ :=
  (placedOn S p n path).head?.elim 0 fun m => (p.layout ar).getClockNumber (tileOf ar v m)

def delay (n : ℕ) (path : List Edge) : ℕ :=
  entryClock S p ar v n path + ((placedOn S p n path).length + numWires S p ar v path)

/-- The delays of the paths from primary inputs to `n`. -/
def delays (n : ℕ) : List ℕ :=
  ((S.allIncomingEdgePaths n).filter fun path => S.ntk.isPi (pathStart n path)).map
    (delay S p ar v n)

/-- Any two paths from primary inputs to the same primary output have the same delay. -/
def Synchronized : Prop :=
  ∀ po ∈ S.ntk.foreachPo, ∀ path ∈ S.allIncomingEdgePaths po, ∀ path' ∈ S.allIncomingEdgePaths po,
    S.ntk.isPi (pathStart po path) = true → S.ntk.isPi (pathStart po path') = true →
      delay S p ar v po path = delay S p ar v po path'
  deriving Decidable

/-- The nodes on the paths to primary outputs that get a tile. -/
def cone : List ℕ :=
  S.ntk.foreachPo.flatMap fun po => (S.allIncomingEdgePaths po).flatMap (placedOn S p po)

def delayDifference : ℕ :=
  ((cone S p).flatMap fun n => (delays S p ar v n).flatMap fun d =>
    (delays S p ar v n).map fun d' => d - d').foldl max 0

def throughput : ℕ := 1 + delayDifference S p ar v / (p.layout ar).numClocks

end Definitions

section Paths

theorem pathNodes_concat (path : List Edge) (c n : ℕ) :
    pathNodes n (path ++ [⟨c, n⟩]) = pathNodes c path ++ [n] := by
  rw [pathNodes, pathNodes, List.map_append, List.map_singleton]

theorem placedOn_concat (path : List Edge) (c n : ℕ) :
    placedOn S p n (path ++ [⟨c, n⟩]) =
      placedOn S p c path ++ if skipConstOrIoNode S p n then [] else [n] := by
  rw [placedOn, pathNodes_concat, List.filter_append, placedOn, List.filter_singleton]
  cases skipConstOrIoNode S p n <;> rfl

theorem placedOn_nil (n : ℕ) :
    placedOn S p n [] = if skipConstOrIoNode S p n then [] else [n] := by
  rw [placedOn, pathNodes, List.map_nil, List.nil_append, List.filter_singleton]
  cases skipConstOrIoNode S p n <;> rfl

theorem placedOn_ne_nil (hn : skipConstOrIoNode S p n = false) : placedOn S p n path ≠ [] := by
  apply List.ne_nil_of_mem (a := n)
  rw [placedOn, List.mem_filter, hn]
  exact ⟨List.mem_append_right _ (List.mem_singleton_self n), rfl⟩

theorem numWires_append (path path' : List Edge) :
    numWires S p ar v (path ++ path') = numWires S p ar v path + numWires S p ar v path' := by
  rw [numWires, List.map_append, List.sum_append, numWires, numWires]

theorem numWires_concat (path : List Edge) (ed : Edge) :
    numWires S p ar v (path ++ [ed]) = numWires S p ar v path + numSegments S p ar v ed := by
  rw [numWires_append]
  exact congrArg _ (Nat.add_zero _)

theorem numSegments_of_skip {ed : Edge} (h : skipConstOrIoEdge S p ed = true) :
    numSegments S p ar v ed = 0 := if_pos h

theorem numSegments_of_placed {ed : Edge} (h : skipConstOrIoEdge S p ed = false) :
    numSegments S p ar v ed = (wires p ar v ed).length := by
  rw [numSegments, h, if_neg Bool.false_ne_true]

theorem isPi_eq_false_of_mem_gates (hn : n ∈ S.topo.gates) : S.ntk.isPi n = false := by
  have hs := S.topo.sorted.not_known n hn
  rw [Bool.eq_false_iff]
  intro hpi
  exact hs (.inr (List.mem_of_mem_take (List.contains_iff_mem.mp hpi)))

theorem mem_gates_of_mem_foreachPo (hn : n ∈ S.ntk.foreachPo) : n ∈ S.topo.gates := by
  obtain ⟨h₂, hbuf⟩ := S.outputs_substituted n hn
  refine (S.topo.outputs_mem n (List.mem_of_mem_take hn)).resolve_left ?_
  rintro (hle | hci)
  · omega
  · exact (of_decide_eq_true hbuf).2 (List.contains_iff_mem.mpr hci)

theorem ne_nil_iff_mem_gates (hpath : path ∈ S.allIncomingEdgePaths n) :
    path ≠ [] ↔ n ∈ S.topo.gates := by
  refine SpecificationNetwork.path_induction (P := fun n path => path ≠ [] ↔ n ∈ S.topo.gates)
    (fun n hn => iff_of_false (fun h => h rfl) hn) (fun n hn c _ _ path _ _ => ?_) hpath
  exact iff_of_true (by simp) hn

end Paths

section Throughput

theorem exists_continuation (hpath : path ∈ S.allIncomingEdgePaths n) (hm : m ∈ pathNodes n path) :
    ∃ rest nodes, ∀ q ∈ S.allIncomingEdgePaths m, q ++ rest ∈ S.allIncomingEdgePaths n ∧
      pathStart n (q ++ rest) = pathStart m q ∧
        pathNodes n (q ++ rest) = pathNodes m q ++ nodes := by
  have hself : ∀ n, ∃ rest nodes, ∀ q ∈ S.allIncomingEdgePaths n,
      q ++ rest ∈ S.allIncomingEdgePaths n ∧
        pathStart n (q ++ rest) = pathStart n q ∧
          pathNodes n (q ++ rest) = pathNodes n q ++ nodes := by
    intro n
    refine ⟨[], [], fun q hq => ?_⟩
    rw [List.append_nil, List.append_nil]
    exact ⟨hq, rfl, rfl⟩
  refine SpecificationNetwork.path_induction
    (P := fun n path => ∀ m ∈ pathNodes n path, ∃ rest nodes, ∀ q ∈ S.allIncomingEdgePaths m,
      q ++ rest ∈ S.allIncomingEdgePaths n ∧ pathStart n (q ++ rest) = pathStart m q ∧
        pathNodes n (q ++ rest) = pathNodes m q ++ nodes)
    (fun n _ m hm => ?_) (fun n hn c hc hconst path _ ih m hm => ?_) hpath m hm
  · rw [List.mem_singleton.mp hm]
    exact hself n
  · rw [pathNodes_concat] at hm
    rcases List.mem_append.mp hm with hm | hm
    · obtain ⟨rest, nodes, hrest⟩ := ih m hm
      refine ⟨rest ++ [⟨c, n⟩], nodes ++ [n], fun q hq => ?_⟩
      obtain ⟨hmem, hstart, hnodes⟩ := hrest q hq
      rw [← List.append_assoc, pathStart_concat, pathNodes_concat, hnodes]
      refine ⟨?_, hstart, List.append_assoc _ _ _⟩
      exact (SpecificationNetwork.mem_allIncomingEdgePaths hn).mpr ⟨c, hc, hconst, _, hmem, rfl⟩
    · rw [List.mem_singleton.mp hm]
      exact hself n

theorem Synchronized.eq_of_mem_delays (h : Synchronized S p ar v) (hn : n ∈ cone S p) {d d' : ℕ}
    (hd : d ∈ delays S p ar v n) (hd' : d' ∈ delays S p ar v n) : d = d' := by
  obtain ⟨po, hpo, hn⟩ := List.mem_flatMap.mp hn
  obtain ⟨path, hpath, hn⟩ := List.mem_flatMap.mp hn
  obtain ⟨hnode, hplaced⟩ := List.mem_filter.mp hn
  rw [Bool.not_eq_true'] at hplaced
  obtain ⟨rest, nodes, hrest⟩ := exists_continuation hpath hnode
  obtain ⟨k, hk⟩ : ∃ k, ∀ d ∈ delays S p ar v n, ∃ q ∈ S.allIncomingEdgePaths po,
      S.ntk.isPi (pathStart po q) = true ∧ delay S p ar v po q = d + k := by
    refine ⟨(nodes.filter fun m => !skipConstOrIoNode S p m).length + numWires S p ar v rest,
      fun d hd => ?_⟩
    obtain ⟨q, hq, rfl⟩ := List.mem_map.mp hd
    obtain ⟨hq, hpi⟩ := List.mem_filter.mp hq
    obtain ⟨hmem, hstart, hnodes⟩ := hrest q hq
    refine ⟨q ++ rest, hmem, by rwa [hstart], ?_⟩
    have hon : placedOn S p po (q ++ rest) =
        placedOn S p n q ++ nodes.filter fun m => !skipConstOrIoNode S p m := by
      rw [placedOn, hnodes, List.filter_append, placedOn]
    rw [delay, entryClock, hon, List.head?_append_of_ne_nil _ (placedOn_ne_nil hplaced),
      List.length_append, numWires_append, delay, entryClock]
    omega
  obtain ⟨q, hq, hpi, hqd⟩ := hk d hd
  obtain ⟨q', hq', hpi', hqd'⟩ := hk d' hd'
  have heq := h po hpo q hq q' hq' hpi hpi'
  omega

theorem Synchronized.throughput_eq_one (h : Synchronized S p ar v) :
    throughput S p ar v = 1 := by
  have hzero : delayDifference S p ar v = 0 := by
    rcases (LongestPaths.isGreatest_foldl_max ((cone S p).flatMap fun n =>
      (delays S p ar v n).flatMap fun d => (delays S p ar v n).map fun d' => d - d')).1 with
      hzero | hmem
    · exact hzero
    · obtain ⟨n, hn, hmem⟩ := List.mem_flatMap.mp hmem
      obtain ⟨d, hd, hmem⟩ := List.mem_flatMap.mp hmem
      obtain ⟨d', hd', heq⟩ := List.mem_map.mp hmem
      rw [h.eq_of_mem_delays hn hd hd', Nat.sub_self] at heq
      exact heq.symm
  rw [throughput, hzero, Nat.zero_div]

end Throughput

end Fiction.Exact
