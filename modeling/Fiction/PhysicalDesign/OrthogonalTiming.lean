import Fiction.PhysicalDesign.OrthogonalDesignRules
import Fiction.Properties.Throughput

/-!
# Timing of orthogonal layouts

Signals flow to the east and to the south only, so that the position of an output and the row of an
input determine the number of tiles between them, whatever way the signal takes. Inputs in different
rows start in different clock cycles at most as far as their rows are apart.
-/

namespace Fiction.Orthogonal

open GridDrawing CriticalPath
open GateLevelLayout (tileNodeMap_getNode)

section Flow

variable {D : ClockedLayout} {d : Drawing} {cv : Canvas} {s t : Tile} {p : List Tile}

theorem Finished.mem_used_of_children (h : Finished D d cv) (ht : cv.layout.isEmptyTile t = false)
    (hchild : (cv.layout.node (cv.layout.getNode t)).children ≠ []) : t ∈ cv.used := by
  by_contra hnot
  cases hdead : t.isDead with
  | true =>
    have hle := h.placement.dead_tile t _ hdead (tileNodeMap_getNode ht)
    exact hchild (h.constants _ hle)
  | false =>
    rw [h.isEmptyTile_eq_true hdead hnot] at ht
    cases ht

theorem Finished.mem_incomingDataFlow_iff (h : Finished D d cv) (ht : t ∈ cv.used) :
    s ∈ cv.layout.incomingDataFlow t ↔ s ∈ (cv.layout.node (cv.layout.getNode t)).children := by
  obtain ⟨clks, hclocking⟩ := h.waves
  exact (h.incomingDataFlow_perm h.inside hclocking h.cartesian ht).mem_iff

theorem Finished.feeds (h : Finished D d cv) (hf : Feeds cv.layout s t) :
    s ∈ cv.used ∧ t ∈ cv.used ∧ Precedes s t := by
  obtain ⟨hocc, hs⟩ := hf
  have hchild := mem_children_of_mem_incomingDataFlow hs
  have ht := h.mem_used_of_children hocc (List.ne_nil_of_mem hchild)
  exact ⟨h.mem_of_child ht hchild, ht, h.precedes t _ _ (h.element_eq ht) s hchild⟩

theorem Precedes.add_succ (h : Precedes s t) : s.x + s.y + 1 = t.x + t.y := by
  rcases h with ⟨hx, hy⟩ | ⟨hx, hy⟩ <;> omega

theorem Finished.wellFounded_dep (h : Finished D d cv) (sort : List PathInfo → List PathInfo) :
    WellFounded (delayGraph sort cv.layout).Dep := by
  apply Subrelation.wf _ (measure fun t : Tile => t.x + t.y).wf
  intro s t hdep
  have hlt := (h.feeds (dep_iff_feeds.mp hdep)).2.2.add_succ
  exact (by omega : s.x + s.y < t.x + t.y)

theorem Finished.mem_used_of_inCone (h : Finished D d cv) (hc : InCone cv.layout t) :
    t ∈ cv.used := by
  obtain ⟨po, hpo, hreach⟩ := hc
  induction hreach using Relation.ReflTransGen.head_induction_on with
  | refl => exact h.outputs po (List.mem_of_mem_take hpo)
  | head hf _ _ => exact (h.feeds hf).1

theorem Finished.mem_used_of_isPiTile (h : Finished D d cv) (hpi : isPiTile cv.layout t = true) :
    t ∈ cv.used := by
  rw [isPiTile, GateLevelLayout.isPi, List.contains_iff_mem] at hpi
  obtain ⟨y, hon⟩ := h.inputs _ hpi
  have htwo : 2 ≤ cv.layout.getNode t := hon.getNode ▸ h.two_le_getNode hon.mem
  have hocc : cv.layout.isEmptyTile t = false := decide_eq_false (by omega)
  by_contra hnot
  cases hdead : t.isDead with
  | true =>
    have hle := h.placement.dead_tile t _ hdead (tileNodeMap_getNode hocc)
    omega
  | false =>
    rw [h.isEmptyTile_eq_true hdead hnot] at hocc
    cases hocc

theorem Finished.isPiTile_iff (h : Finished D d cv) (ht : t ∈ cv.used) :
    isPiTile cv.layout t = true ↔ cv.layout.reads t = [] := by
  rw [isPiTile, GateLevelLayout.isPi, List.contains_iff_mem]
  constructor
  · intro hpi
    obtain ⟨y, hon⟩ := h.inputs _ hpi
    rw [h.eq_of_getNode_eq ht hon.mem hon.getNode.symm, GateLevelLayout.reads, hon.element]
    rfl
  · exact h.inputTile t ht

theorem Finished.isPiTile_x (h : Finished D d cv) (hpi : isPiTile cv.layout t = true) :
    t.x = 0 := by
  have ht := h.mem_used_of_isPiTile hpi
  rw [isPiTile, GateLevelLayout.isPi, List.contains_iff_mem] at hpi
  obtain ⟨y, hon⟩ := h.inputs _ hpi
  rw [h.eq_of_getNode_eq ht hon.mem hon.getNode.symm]
  rfl

theorem Finished.incomingDataFlow_input (h : Finished D d cv)
    (hpi : isPiTile cv.layout t = true) : cv.layout.incomingDataFlow t = [] := by
  have ht := h.mem_used_of_isPiTile hpi
  have hreads := (h.isPiTile_iff ht).mp hpi
  rw [h.reads_eq ht] at hreads
  apply List.eq_nil_iff_forall_not_mem.mpr
  intro s hs
  have hchild := (h.mem_incomingDataFlow_iff ht).mp hs
  rw [hreads] at hchild
  cases hchild

/-- All ways from an input to a tile are of the same length. -/
theorem Finished.path (h : Finished D d cv) (hp : DataFlowPath cv.layout t p) (ht : t ∈ cv.used) :
    ∃ i, p.head? = some i ∧ isPiTile cv.layout i = true ∧
      Relation.ReflTransGen (Feeds cv.layout) i t ∧ p.length + i.y = t.x + t.y + 1 := by
  induction hp with
  | @source t hocc hs =>
    have hpi : isPiTile cv.layout t = true := by
      rcases hs with hpi | hempty
      · exact hpi
      · rw [h.isPiTile_iff ht, h.reads_eq ht]
        apply List.eq_nil_iff_forall_not_mem.mpr
        intro c hc
        have hnot := hempty c ((h.mem_incomingDataFlow_iff ht).mpr hc)
        rw [h.isEmptyTile_eq_false (h.mem_of_child ht hc)] at hnot
        cases hnot
    refine ⟨t, rfl, hpi, .refl, ?_⟩
    rw [h.isPiTile_x hpi, List.length_singleton]
    omega
  | @step s t p hp hocc hs ih =>
    have hf : Feeds cv.layout s t := ⟨hocc, hs⟩
    obtain ⟨hsu, -, hprec⟩ := h.feeds hf
    obtain ⟨i, hhead, hpi, hreach, hlen⟩ := ih hsu
    have hadd := hprec.add_succ
    refine ⟨i, ?_, hpi, hreach.tail hf, ?_⟩
    · rw [List.head?_append_of_ne_nil _ hp.ne_nil, hhead]
    · rw [List.length_append, List.length_singleton]
      omega

theorem Finished.pathWeight_eq (h : Finished D d cv) (hp : DataFlowPath cv.layout t p)
    (ht : t ∈ cv.used) : pathWeight cv.layout p = p.length := by
  obtain ⟨i, hhead, hpi, -, -⟩ := h.path hp ht
  have hdetached : detachedPi cv.layout i = false := by
    simp [detachedPi, h.incomingDataFlow_input hpi]
  simp [CriticalPath.pathWeight, hhead, hdetached]

theorem Finished.exists_path_of_arrival (h : Finished D d cv) {l e : ℕ}
    (ha : Arrival cv.layout t l e) (ht : t ∈ cv.used) :
    ∃ p, DataFlowPath cv.layout t p ∧ pathDelay cv.layout p = e := by
  induction ha with
  | empty hempty =>
    rw [h.isEmptyTile_eq_false ht] at hempty
    cases hempty
  | @source t hocc hidf => exact ⟨[t], .source hocc (.inr (by simp [hidf])), rfl⟩
  | input _ hidf hpi => exact absurd (h.incomingDataFlow_input hpi) hidf
  | @step s t _ _ _ hocc hst ih =>
    obtain ⟨p, hp, hdelay⟩ := ih (h.feeds ⟨hocc, hst⟩).1
    refine ⟨p ++ [t], .step hp hocc hst, ?_⟩
    rw [pathDelay_concat hp.ne_nil, hdelay]

theorem Finished.exists_path (h : Finished D d cv) {i : Tile}
    (hpi : isPiTile cv.layout i = true) (hreach : Relation.ReflTransGen (Feeds cv.layout) i t) :
    ∃ p, DataFlowPath cv.layout t p ∧ p.head? = some i := by
  induction hreach with
  | refl =>
    have hocc := h.isEmptyTile_eq_false (h.mem_used_of_isPiTile hpi)
    exact ⟨[i], .source hocc (.inl hpi), rfl⟩
  | tail _ hf ih =>
    obtain ⟨p, hp, hhead⟩ := ih
    exact ⟨_, .step hp hf.1 hf.2, by rw [List.head?_append_of_ne_nil _ hp.ne_nil, hhead]⟩

end Flow

section Clocks

variable {D : ClockedLayout} {d : Drawing} {cv : Canvas} {s t : Tile} {p q : List Tile} {k : ℕ}

theorem Finished.clockNumber (h : Finished D d cv) (t : Tile) :
    0 < cv.layout.clocked.numClocks ∧
      cv.layout.clocked.getClockNumber t = (t.x + t.y) % cv.layout.clocked.numClocks := by
  obtain ⟨clks, hclocking⟩ := h.waves
  have hnum : ∀ n, (t.y % n + t.x % n) % n = (t.x + t.y) % n := by
    intro n
    rw [← Nat.add_mod, Nat.add_comm]
  rw [h.clocked, ClockedLayout.getClockNumber, ClockedLayout.numClocks, hclocking]
  cases clks with
  | three => exact ⟨by decide, hnum 3⟩
  | four => exact ⟨by decide, hnum 4⟩

/-- The row of the input determines in which clock cycle a signal arrives. -/
theorem Finished.pathDelay (h : Finished D d cv) (hp : DataFlowPath cv.layout t p)
    (ht : t ∈ cv.used) :
    ∃ i, isPiTile cv.layout i = true ∧
      pathDelay cv.layout p + cv.layout.clocked.numClocks * (i.y / cv.layout.clocked.numClocks) =
        t.x + t.y := by
  obtain ⟨i, hhead, hpi, -, hlen⟩ := h.path hp ht
  refine ⟨i, hpi, ?_⟩
  have hpos : p.length ≠ 0 := fun hzero => hp.ne_nil (List.length_eq_zero_iff.mp hzero)
  have hrow := Nat.mod_add_div i.y cv.layout.clocked.numClocks
  rw [CriticalPath.pathDelay, hhead, Option.elim_some, (h.clockNumber i).2, h.isPiTile_x hpi,
    Nat.zero_add]
  omega

/-- Signals from rows between `l` and `r` that meet differ by the clock cycles between these. -/
theorem Finished.imbalance_le (h : Finished D d cv) (hk : Imbalance cv.layout t k)
    (ht : t ∈ cv.used) {l r : ℕ} (hrows : ∀ i, isPiTile cv.layout i = true → l ≤ i.y ∧ i.y ≤ r) :
    k ≤ cv.layout.clocked.numClocks *
      (r / cv.layout.clocked.numClocks - l / cv.layout.clocked.numClocks) := by
  induction hk with
  | start => exact Nat.zero_le _
  | @join t _ _ _ _ hocc hidf _ hfront hback =>
    obtain ⟨p, hp, hpe⟩ := h.exists_path_of_arrival (hfront.arrival hocc hidf) ht
    obtain ⟨q, hq, hqe⟩ := h.exists_path_of_arrival (hback.arrival hocc hidf) ht
    have hcycles : ∀ {p}, DataFlowPath cv.layout t p → ∃ c,
        cv.layout.clocked.numClocks * (l / cv.layout.clocked.numClocks) ≤ c ∧
        c ≤ cv.layout.clocked.numClocks * (r / cv.layout.clocked.numClocks) ∧
        CriticalPath.pathDelay cv.layout p + c = t.x + t.y := by
      intro p hp
      obtain ⟨i, hi, hpi⟩ := h.pathDelay hp ht
      exact ⟨_, Nat.mul_le_mul_left _ (Nat.div_le_div_right (hrows i hi).1),
        Nat.mul_le_mul_left _ (Nat.div_le_div_right (hrows i hi).2), hpi⟩
    obtain ⟨c, hlc, hcr, hc⟩ := hcycles hp
    obtain ⟨c', hlc', hcr', hc'⟩ := hcycles hq
    rw [Nat.mul_sub]
    omega
  | @chain s t _ hocc hst _ ih =>
    have hs : s ∈ cv.layout.incomingDataFlow t := by simp [hst.1]
    exact ih (h.feeds ⟨hocc, hs⟩).1

end Clocks

section Analysis

variable {D : ClockedLayout} {d : Drawing} {cv : Canvas}
  {sort : List PathInfo → List PathInfo}

/-- The distances between outputs and the inputs that they depend on, both tiles included. -/
def distances (D : ClockedLayout) (cv : Canvas) : Set ℕ :=
  {k | ∃ i o, isPiTile cv.layout i = true ∧ o ∈ cv.layout.foreachPo ∧
    Relation.ReflTransGen (Feeds cv.layout) i o ∧ k + i.y = D.x + o.y + 1}

/-- What the analysis reports on the layout. -/
structure Timed (D : ClockedLayout) (cv : Canvas) (stats : Stats) : Prop where
  criticalPathLength : IsMaximum (distances D cv) stats.criticalPathLength
  throughput : ∀ l r, (∀ i, isPiTile cv.layout i = true → l ≤ i.y ∧ i.y ≤ r) →
    stats.throughput ≤ 1 +
      (r / cv.layout.clocked.numClocks - l / cv.layout.clocked.numClocks)

theorem Finished.distances_eq (h : Finished D d cv) :
    {k | ∃ p, OutputPath cv.layout p ∧ pathWeight cv.layout p = k} = distances D cv := by
  ext k
  rw [Set.mem_ofPred_eq, distances, Set.mem_ofPred_eq]
  constructor
  · rintro ⟨p, ⟨o, ho, hp⟩, rfl⟩
    have hout := List.mem_of_mem_take ho
    obtain ⟨i, -, hpi, hreach, hlen⟩ := h.path hp (h.outputs o hout)
    refine ⟨i, o, hpi, ho, hreach, ?_⟩
    rw [h.pathWeight_eq hp (h.outputs o hout), hlen, (h.border o hout).1]
  · rintro ⟨i, o, hpi, ho, hreach, hlen⟩
    have hout := List.mem_of_mem_take ho
    obtain ⟨p, hp, hhead⟩ := h.exists_path hpi hreach
    refine ⟨p, ⟨o, ho, hp⟩, ?_⟩
    obtain ⟨j, hj, -, -, hlen'⟩ := h.path hp (h.outputs o hout)
    obtain rfl := Option.some.inj (hhead.symm.trans hj)
    rw [h.pathWeight_eq hp (h.outputs o hout)]
    rw [(h.border o hout).1] at hlen'
    omega

/-- The analysis ends, and the positions of inputs and outputs bound what it reports. -/
theorem Finished.exists_timed (h : Finished D d cv) (hsort : SortsByLength sort) :
    ∃ n stats, (∀ fuel ≥ n, CriticalPath.run sort cv.layout fuel = some stats) ∧
      Timed D cv stats := by
  have hwf := h.wellFounded_dep sort
  obtain ⟨v, hv⟩ := Graph.exists_obeys hwf
  obtain ⟨n, stats, hrun, hmax⟩ := run_isMaximum hsort hwf
  refine ⟨n, stats, hrun, ⟨h.distances_eq ▸ hmax, fun l r hrows => ?_⟩⟩
  have hn := hrun n le_rfl
  simp only [CriticalPath.run, Option.bind_eq_bind, Option.bind_eq_some_iff] at hn
  obtain ⟨⟨length, delayCache⟩, hdelay, hstats⟩ := hn
  obtain rfl := Option.some.inj hstats
  obtain ⟨-, hmem⟩ := isMaximum_maxDiff hv hdelay
  have hle : maxDiff delayCache ≤ cv.layout.clocked.numClocks *
      (r / cv.layout.clocked.numClocks - l / cv.layout.clocked.numClocks) := by
    rcases hmem with ⟨t, hgate, hk⟩ | hzero
    · rw [← hk]
      exact h.imbalance_le (imbalance_diff hsort hv hwf t) (h.mem_used_of_inCone hgate.1) hrows
    · rw [hzero]
      exact Nat.zero_le _
  have hdiv := Nat.div_le_div_right hle (c := cv.layout.clocked.numClocks)
  rw [Nat.mul_div_cancel_left _ (h.clockNumber (.at2 0 0)).1] at hdiv
  rw [Nat.add_comm]
  exact Nat.add_le_add_left hdiv 1

end Analysis

section Run

variable {ntk : TechnologyNetwork} {V : FanoutView ntk} {T : ntk.TopoView}
  {ctn : ColoringContainer} {fuel : ℕ} {sort : List PathInfo → List PathInfo}

/-- The critical path is as long as the distance between the input and the output of some signal,
and the throughput depends on the rows of the inputs at most. -/
theorem run_timing (h : Orderly ntk T)
    (hcoloring : eastSouthEdgeColoring ntk V T fuel = some ctn) (hports : PortsAgree V T ctn)
    (eastFirst : Bool) (clks : NumClks) (hsort : SortsByLength sort) :
    ∃ st, run ntk V T ctn eastFirst clks .cartesian = some st ∧
      ∃ n stats, (∀ fuel ≥ n, CriticalPath.run sort st.canvas.layout fuel = some stats) ∧
        Timed (clockedLayout ntk V T ctn clks .cartesian) st.canvas stats := by
  obtain ⟨st, hrun, hst⟩ := h.exists_completed hcoloring hports eastFirst clks .cartesian
  obtain ⟨d, hfinished, -, -⟩ := hst.finished
  exact ⟨st, hrun, hfinished.exists_timed hsort⟩

theorem run_timing_halfAdder :
    ∃ ctn, eastSouthEdgeColoring halfAdder halfAdder.fanoutView halfAdderView 10 = some ctn ∧
      ∃ st, run halfAdder halfAdder.fanoutView halfAdderView ctn true .four .cartesian = some st ∧
        ∃ n stats,
          (∀ fuel ≥ n, CriticalPath.run insertionSort st.canvas.layout fuel = some stats) ∧
          Timed (clockedLayout halfAdder halfAdder.fanoutView halfAdderView ctn .four .cartesian)
            st.canvas stats := by
  obtain ⟨ctn, hcoloring, hports⟩ := halfAdder_colored
  exact ⟨ctn, hcoloring, run_timing halfAdder_orderly hcoloring hports true .four
    sortsByLength_insertionSort⟩

end Run

end Fiction.Orthogonal
