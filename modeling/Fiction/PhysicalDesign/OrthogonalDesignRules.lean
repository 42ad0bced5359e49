import Fiction.PhysicalDesign.OrthogonalCorrectness
import Fiction.Verification.DesignRuleViolations

/-!
# Design rules of orthogonal layouts

The tiles in use are the tiles of all nodes, and the nodes read adjacent tiles that are clocked into
them. The only design rule that an orthogonal layout can violate is the one about missing
connections, and it violates that one at the inputs that the network does not use.
-/

namespace Fiction.Orthogonal

open GridDrawing TechnologyNetwork
open GateLevelLayout (tileNodeMap_getNode getTile_eq_of_map mem_outgoingDataFlow_iff
  outgoingDataFlow_live)

/-- A canvas on a 2DDWave-clocked Cartesian layout, all of whose nodes are on tiles in use. -/
structure Finished (D : ClockedLayout) (d : Drawing) (cv : Canvas) : Prop extends Shows D d cv where
  inside : ∀ t ∈ cv.used, D.Inside t
  waves : ∃ clks, D.clocking = (NamedScheme.twoddwaveClocking clks).clocking
  cartesian : D.arrangement = .cartesian
  fits : D.Fits
  settled : ∀ k, 2 ≤ k → k < cv.layout.size → ∃ t ∈ cv.used, cv.layout.getNode t = k
  inputs : ∀ n ∈ cv.layout.foreachPi, ∃ y, InputOn cv n (.at2 0 y)
  inputTile : ∀ t ∈ cv.used, cv.layout.reads t = [] → cv.layout.getNode t ∈ cv.layout.foreachPi

section Tiles

variable {D : ClockedLayout} {d : Drawing} {cv : Canvas} {t c : Tile} {n : ℕ}

theorem Shows.getTile_getNode (h : Shows D d cv) (ht : t ∈ cv.used) :
    cv.layout.getTile (cv.layout.getNode t) = t :=
  getTile_eq_of_map (h.placement.tile_of_node t _ (h.live ht)
    (tileNodeMap_getNode (h.isEmptyTile_eq_false ht)))

theorem Shows.two_le_getNode (h : Shows D d cv) (ht : t ∈ cv.used) :
    2 ≤ cv.layout.getNode t :=
  (h.placement.live_node t _ (h.live ht) (tileNodeMap_getNode (h.isEmptyTile_eq_false ht))).1

theorem Shows.isPo_iff (h : Shows D d cv) (ht : t ∈ cv.used) :
    cv.layout.isPo (cv.layout.getNode t) = true ↔ t ∈ cv.layout.outputs := by
  rw [GateLevelLayout.isPo, h.numPos, List.take_length, List.any_eq_true]
  constructor
  · rintro ⟨o, ho, he⟩
    rwa [← h.eq_of_getNode_eq (h.outputs o ho) ht (of_decide_eq_true he)]
  · exact fun ho => ⟨t, ho, decide_eq_true rfl⟩

theorem Shows.isRi_eq_false (h : Shows D d cv) (n : ℕ) : cv.layout.isRi n = false := by
  rw [GateLevelLayout.isRi, h.numPos, List.drop_length, List.take_nil]
  rfl

theorem Shows.isRo_eq_false (h : Shows D d cv) (n : ℕ) : cv.layout.isRo n = false := by
  rw [GateLevelLayout.isRo, h.numPis, List.drop_length, List.take_nil]
  rfl

theorem Finished.mem_checkedNodes (h : Finished D d cv) :
    n ∈ cv.layout.checkedNodes ↔ ∃ t ∈ cv.used, cv.layout.getNode t = n := by
  rw [GateLevelLayout.mem_checkedNodes]
  constructor
  · rintro ⟨hlt, -, htwo⟩
    exact h.settled n htwo hlt
  · rintro ⟨t, ht, rfl⟩
    exact ⟨h.placement.toMapsInv.getNode_lt t, h.alive t ht, h.two_le_getNode ht⟩

theorem Finished.childTiles_eq (h : Finished D d cv) (ht : t ∈ cv.used) :
    cv.layout.childTiles (cv.layout.getNode t) = (cv.layout.node (cv.layout.getNode t)).children := by
  conv_rhs => rw [← List.map_id (cv.layout.node (cv.layout.getNode t)).children]
  exact List.map_congr_left fun c hc => h.getTile_getNode (h.mem_of_child ht hc)

/-- A check that counts the children that fail a test counts none if all tiles in use pass. -/
theorem Finished.sum_countP_eq_zero (h : Finished D d cv) {p : Tile → Tile → Bool}
    (hp : ∀ t ∈ cv.used, ∀ c ∈ (cv.layout.node (cv.layout.getNode t)).children, p t c = true) :
    (cv.layout.checkedNodes.map fun n =>
      (cv.layout.childTiles n).countP fun ct => !p (cv.layout.getTile n) ct).sum = 0 := by
  apply List.sum_eq_zero
  intro k hk
  obtain ⟨n, hn, rfl⟩ := List.mem_map.mp hk
  obtain ⟨t, ht, rfl⟩ := h.mem_checkedNodes.mp hn
  rw [h.childTiles_eq ht, h.getTile_getNode ht, List.countP_eq_zero]
  intro c hc
  rw [hp t ht c hc]
  exact Bool.false_ne_true

/-- The data flow leaves a tile exactly if some node reads it. -/
theorem Finished.outgoingDataFlow_eq_nil_iff (h : Finished D d cv) (ht : t ∈ cv.used) :
    cv.layout.outgoingDataFlow t = [] ↔ ¬ IsRead cv t := by
  have hfits : cv.layout.clocked.Fits := by
    rw [h.clocked]
    exact h.fits
  have hin : ∀ s ∈ cv.used, cv.layout.clocked.Inside s := by
    rw [h.clocked]
    exact h.inside
  constructor
  · rintro hnil ⟨r, hr, hread⟩
    obtain ⟨clks, hclocking⟩ := h.waves
    rw [h.reads_eq hr] at hread
    have hmem : r ∈ cv.layout.outgoingDataFlow t :=
      (mem_outgoingDataFlow_iff hfits (hin r hr) (hin t ht)).mpr
        ⟨h.linked h.inside h.cartesian hr hread,
          h.isOutgoingClocked hclocking hr hread ⟨rfl, rfl⟩ ⟨rfl, rfl⟩⟩
    rw [hnil] at hmem
    cases hmem
  · intro hread
    apply List.eq_nil_iff_forall_not_mem.mpr
    intro r hr
    have hlive := outgoingDataFlow_live (hin t ht) hr
    obtain ⟨o, -, hmem⟩ := List.mem_flatMap.mp (OrderedSet.mem_of_mem_ofList hr)
    have hchild : t ∈ (cv.layout.node (cv.layout.getNode r)).children := by
      simpa [GateLevelLayout.isChild] using (List.mem_filter.mp hmem).2
    by_cases hused : r ∈ cv.used
    · exact hread ⟨r, hused, by rwa [h.reads_eq hused]⟩
    · have hzero : cv.layout.getNode r = 0 :=
        of_decide_eq_true (h.isEmptyTile_eq_true hlive hused)
      rw [hzero, h.constants 0 (Nat.zero_le 1)] at hchild
      cases hchild

end Tiles

section Checks

variable {D : ClockedLayout} {d : Drawing} {cv : Canvas} {t c : Tile} {n : ℕ}

theorem Finished.nonAdjacentConnectionsCheck_eq_zero (h : Finished D d cv) :
    cv.layout.nonAdjacentConnectionsCheck = 0 := by
  apply h.sum_countP_eq_zero (p := cv.layout.clocked.isAdjacentElevationOf)
  intro t ht c hc
  have hlinked := h.linked h.inside h.cartesian ht hc
  have hin := h.inside
  rw [← h.clocked] at hin
  exact (CoordinateLayout.isAdjacentElevationOf_iff (hin t ht) (hin c (h.mem_of_child ht hc))).mpr
    ⟨hlinked.beside, hlinked.above, hlinked.below⟩

theorem Finished.clockedDataFlowCheck_eq_zero (h : Finished D d cv) :
    cv.layout.clockedDataFlowCheck = 0 := by
  apply h.sum_countP_eq_zero (p := cv.layout.clocked.isIncomingClocked)
  intro t ht c hc
  obtain ⟨clks, hclocking⟩ := h.waves
  rw [ClockedLayout.isIncomingClocked_eq_isOutgoingClocked]
  exact h.isOutgoingClocked hclocking ht hc ⟨rfl, rfl⟩ ⟨rfl, rfl⟩

theorem Finished.crossingGatesCheck_eq_zero (h : Finished D d cv) :
    cv.layout.crossingGatesCheck = 0 := by
  rw [GateLevelLayout.crossingGatesCheck, List.countP_eq_zero]
  intro w hw
  obtain ⟨hrange, -⟩ := List.mem_filter.mp hw
  rw [List.mem_range'_1] at hrange
  obtain ⟨t, ht, rfl⟩ := h.settled w hrange.1 (by omega)
  rw [h.getTile_getNode ht, CoordinateLayout.isCrossingLayer]
  by_cases hz : t.z = 0
  · simp [hz]
  · have hone : t.z = 1 := by
      have := h.z_le ht
      omega
    have hbelow : CoordinateLayout.below t = .at2 t.x t.y := by
      have hlive := h.live ht
      obtain ⟨dt, zt, yt, xt⟩ := t
      simp only [Ucoord.isDead] at hlive hone
      rw [hlive, hone]
      rfl
    rw [hbelow, ((h.withoutOverlap h.inside).crossing t ht hz).2.2]
    simp

theorem Finished.danglingInpConnection_eq_false (h : Finished D d cv) (ht : t ∈ cv.used) :
    cv.layout.danglingInpConnection t = false := by
  obtain ⟨clks, hclocking⟩ := h.waves
  have hperm := h.incomingDataFlow_perm h.inside hclocking h.cartesian ht
  by_cases hreads : cv.layout.reads t = []
  · have hpi : cv.layout.isPi (cv.layout.getNode t) = true :=
      List.contains_iff_mem.mpr (h.inputTile t ht hreads)
    simp [GateLevelLayout.danglingInpConnection, hpi]
  · have hne : (cv.layout.incomingDataFlow t).isEmpty = false := by
      rw [List.isEmpty_eq_false_iff]
      intro hnil
      rw [hnil] at hperm
      exact hreads ((h.reads_eq ht).trans (List.nil_perm.mp hperm))
    simp [GateLevelLayout.danglingInpConnection, hne]

theorem Finished.danglingOutConnection_iff (h : Finished D d cv) (ht : t ∈ cv.used) :
    cv.layout.danglingOutConnection t = true ↔ IsEnd cv t := by
  have hpo : (!cv.layout.isPo (cv.layout.getNode t)) = true ↔ t ∉ cv.layout.outputs := by
    rw [Bool.not_eq_true', ← Bool.not_eq_true, h.isPo_iff ht]
  rw [GateLevelLayout.danglingOutConnection, h.isRi_eq_false, h.isRo_eq_false]
  simp only [Bool.and_eq_true, Bool.not_false, and_true, hpo, List.isEmpty_iff,
    h.outgoingDataFlow_eq_nil_iff ht, IsEnd, ht, true_and]

theorem Finished.missingConnectionsCheck_eq_zero_iff (h : Finished D d cv) :
    cv.layout.missingConnectionsCheck = 0 ↔ ∀ t, ¬ IsEnd cv t := by
  rw [GateLevelLayout.missingConnectionsCheck, List.countP_eq_zero]
  constructor
  · intro hnone t hend
    apply hnone _ (h.mem_checkedNodes.mpr ⟨t, hend.1, rfl⟩)
    rw [h.getTile_getNode hend.1, (h.danglingOutConnection_iff hend.1).mpr hend]
    rfl
  · intro hnone n hn
    obtain ⟨t, ht, rfl⟩ := h.mem_checkedNodes.mp hn
    rw [h.getTile_getNode ht, h.danglingInpConnection_eq_false ht, Bool.or_false,
      h.danglingOutConnection_iff ht]
    exact hnone t

/-- Inputs and outputs are wires at the western and at the eastern border. -/
theorem Finished.ioNode (h : Finished D d cv) (hn : n ∈ cv.layout.ioNodes) :
    ∃ t ∈ cv.used, cv.layout.getNode t = n ∧ cv.layout.isWire n = true ∧ (t.x = 0 ∨ t.x = D.x) := by
  have hwire : ∀ t ∈ cv.used, ∀ cs, cv.layout.element t = some (cs, .identity) →
      cv.layout.isWire (cv.layout.getNode t) = true := by
    intro t ht cs he
    rw [h.element_eq ht] at he
    exact decide_eq_true (Prod.mk.inj (Option.some.inj he)).2
  rcases List.mem_append.mp hn with hn | hn
  · obtain ⟨y, hon⟩ := h.inputs n hn
    refine ⟨_, hon.mem, hon.getNode, ?_, .inl rfl⟩
    rw [← hon.getNode]
    exact hwire _ hon.mem [] hon.element
  · obtain ⟨o, ho, rfl⟩ := List.mem_map.mp hn
    have ho' := List.mem_of_mem_take ho
    obtain ⟨hx, s, hs⟩ := h.border o ho'
    exact ⟨o, h.outputs o ho', rfl, hwire o (h.outputs o ho') [s] hs, .inr hx⟩

theorem Finished.emptyIoCheck_eq_zero (h : Finished D d cv) : cv.layout.emptyIoCheck = 0 := by
  rw [GateLevelLayout.emptyIoCheck, List.countP_eq_zero]
  intro n hn
  obtain ⟨t, ht, rfl, -, -⟩ := h.ioNode hn
  rw [h.getTile_getNode ht, h.isEmptyTile_eq_false ht]
  exact Bool.false_ne_true

/-- Both kinds of ports have to be there. -/
theorem Finished.hasIoCheck_eq_zero_iff (h : Finished D d cv) (hpi : cv.layout.foreachPi ≠ []) :
    cv.layout.hasIoCheck = 0 ↔ cv.layout.outputs ≠ [] := by
  have hpis : cv.layout.foreachPi.length = cv.layout.numPis := by
    rw [GateLevelLayout.foreachPi, h.numPis, List.take_length]
  have hpos : cv.layout.foreachPo.length = cv.layout.numPos := by
    rw [GateLevelLayout.foreachPo, h.numPos, List.take_length]
  have hne := List.length_pos_iff.mpr hpi
  rw [GateLevelLayout.hasIoCheck, hpis, hpos, h.numPos, ← List.length_pos_iff]
  rw [hpis] at hne
  simp [hne.ne', Nat.pos_iff_ne_zero]

/-- No check that only warns has anything to warn about. -/
theorem Finished.warnings_eq_zero (h : Finished D d cv) :
    (cv.layout.gateLevelDrvs {}).warnings = 0 := by
  have hunplaced : cv.layout.unplacedNodesCheck = 0 := by
    rw [GateLevelLayout.unplacedNodesCheck, List.countP_eq_zero]
    intro n hn
    obtain ⟨t, ht, rfl⟩ := h.mem_checkedNodes.mp hn
    rw [h.getTile_getNode ht, h.live ht]
    exact Bool.false_ne_true
  have hdead : cv.layout.placedDeadNodesCheck = 0 := by
    rw [GateLevelLayout.placedDeadNodesCheck, List.countP_eq_zero]
    intro t ht
    have hlive : t.isDead = false := by
      simp only [CoordinateLayout.foreachCoordinate, List.mem_flatMap, List.mem_map] at ht
      obtain ⟨z, -, y, -, x, -, rfl⟩ := ht
      rfl
    by_cases hused : t ∈ cv.used
    · rw [h.alive t hused]
      simp
    · rw [h.isEmptyTile_eq_true hlive hused]
      simp
  have hpins : cv.layout.ioPinCheck = 0 := by
    rw [GateLevelLayout.ioPinCheck, List.countP_eq_zero]
    intro n hn
    obtain ⟨t, -, rfl, hwire, -⟩ := h.ioNode hn
    rw [hwire]
    exact Bool.false_ne_true
  have hborder : cv.layout.borderIoCheck = 0 := by
    rw [GateLevelLayout.borderIoCheck, List.countP_eq_zero]
    intro n hn
    obtain ⟨t, ht, rfl, -, hx⟩ := h.ioNode hn
    have hat : cv.layout.clocked.isAtAnyBorder t = true := by
      rw [h.clocked]
      apply decide_eq_true
      exact hx.elim (fun hx => .inr (.inr (.inr hx))) fun hx => .inr (.inl hx)
    rw [h.getTile_getNode ht, hat]
    exact Bool.false_ne_true
  rw [GateLevelLayout.gateLevelDrvs, hunplaced, hdead, hpins, hborder]
  rfl

/-- Without outputs, the tile that was used last is an end. -/
theorem Shows.exists_isEnd (h : Shows D d cv) (hne : cv.used ≠ [])
    (hnone : cv.layout.outputs = []) : ∃ t, IsEnd cv t := by
  obtain ⟨l, t, hl⟩ : ∃ l t, cv.used = l ++ [t] := ⟨_, _, (List.dropLast_append_getLast hne).symm⟩
  have ht : t ∈ cv.used := by
    rw [hl]
    exact List.mem_append_right _ (List.mem_singleton_self t)
  refine ⟨t, ht, ?_, ?_⟩
  · rintro ⟨r, hr, hread⟩
    obtain ⟨p, s, hsplit⟩ := List.append_of_mem hr
    have hmem := ((h.sorted.next hsplit).2.2 t hread).resolve_left id
    have hlast : cv.used.getLast? = some t := by rw [hl, List.getLast?_concat]
    have hnodup := h.nodup
    rw [hsplit, List.getLast?_append_of_ne_nil _ (List.cons_ne_nil r s)] at hlast
    rw [hsplit] at hnodup
    exact (List.nodup_append.mp hnodup).2.2 t hmem t (List.mem_of_getLast? hlast) rfl
  · rw [hnone]
    exact List.not_mem_nil

/-- A layout with inputs follows the rules exactly if it has no ends. -/
theorem Finished.drvs_eq_zero_iff (h : Finished D d cv) (hpi : cv.layout.foreachPi ≠ []) :
    (cv.layout.gateLevelDrvs {}).drvs = 0 ↔ ∀ t, ¬ IsEnd cv t := by
  have hall : (cv.layout.gateLevelDrvs {}).drvs = 0 ↔
      cv.layout.outputs ≠ [] ∧ ∀ t, ¬ IsEnd cv t := by
    rw [← h.hasIoCheck_eq_zero_iff hpi, ← h.missingConnectionsCheck_eq_zero_iff]
    simp only [GateLevelLayout.gateLevelDrvs, GateLevelLayout.onRequest, if_true,
      h.nonAdjacentConnectionsCheck_eq_zero, h.crossingGatesCheck_eq_zero,
      h.clockedDataFlowCheck_eq_zero, h.emptyIoCheck_eq_zero]
    omega
  rw [hall, and_iff_right_iff_imp]
  intro hends hnone
  obtain ⟨n, hn⟩ := List.exists_mem_of_ne_nil _ hpi
  obtain ⟨y, hon⟩ := h.inputs n hn
  obtain ⟨t, ht⟩ := h.exists_isEnd (List.ne_nil_of_mem hon.mem) hnone
  exact hends t ht

/-- Ends only violate the rule that connections must not be missing. -/
theorem Finished.drvs_eq_zero (h : Finished D d cv) (hpi : cv.layout.foreachPi ≠ [])
    {ps : GateLevelLayout.GateLevelDrvParams} (hmissing : ps.missingConnections = false)
    (hio : ps.hasIo = true → cv.layout.outputs ≠ []) : (cv.layout.gateLevelDrvs ps).drvs = 0 := by
  have hhas : GateLevelLayout.onRequest ps.hasIo cv.layout.hasIoCheck = 0 := by
    rw [GateLevelLayout.onRequest]
    split_ifs with hreq
    · exact (h.hasIoCheck_eq_zero_iff hpi).mpr (hio hreq)
    · rfl
  have hzero : ∀ requested, GateLevelLayout.onRequest requested 0 = 0 := fun requested => by
    cases requested <;> rfl
  simp only [GateLevelLayout.gateLevelDrvs, hmissing, hhas, h.nonAdjacentConnectionsCheck_eq_zero,
    h.crossingGatesCheck_eq_zero, h.clockedDataFlowCheck_eq_zero, h.emptyIoCheck_eq_zero, hzero]
  rfl

end Checks

section Run

variable {ntk : TechnologyNetwork} {V : FanoutView ntk} {T : ntk.TopoView}
  {ctn : ColoringContainer} {n : ℕ} {fuel : ℕ}

theorem fits_clockedLayout (clks : NumClks) (arrangement : Arrangement) :
    (clockedLayout ntk V T ctn clks arrangement).Fits := by
  have hfield : ∀ v : ℕ, CoordinateLayout.toField v < 2 ^ 31 := fun v =>
    Nat.mod_lt v (Nat.two_pow_pos 31)
  rw [CoordinateLayout.Fits, CoordinateLayout.x, CoordinateLayout.y, clockedLayout,
    determineLayoutSize]
  exact ⟨hfield _, hfield _⟩

/-- In the end, the inputs that are not used are the only nodes that still wait. -/
theorem Drawable.waits_iff (h : Drawable V T ctn) :
    Waits ntk T (nodes ntk T) (drivers ntk (nodes ntk T)) n ↔
      n ∈ ntk.inputs ∧ ntk.isPo n = false ∧ V.fanouts n = [] := by
  have hreader : ∀ m ∈ T.gates, m ∈ nodes ntk T := fun m hm => List.mem_append_right _ hm
  constructor
  · intro hw
    have hpo : ntk.isPo n = false := by
      rw [← Bool.not_eq_true]
      intro hpo
      apply hw.no_output
      rw [drivers, List.mem_filter, hw.not_constant, hpo]
      exact ⟨hw.mem, rfl⟩
    have hfanouts : V.fanouts n = [] := by
      apply List.eq_nil_iff_forall_not_mem.mpr
      intro m hm
      have hgate := h.mem_gates hm
      exact hw.no_reader m (hreader m hgate) hgate ((V.mem_fanouts n m).mp hm).2
    refine ⟨?_, hpo, hfanouts⟩
    apply (List.mem_append.mp ((mem_nodes hw.not_constant).mp hw.mem)).resolve_right
    intro hgate
    cases h.cone n ⟨T.gates_lt n hgate, not_source_of_mem hgate⟩ with
    | po ho =>
      rw [isPo, List.contains_eq_mem, decide_eq_false_iff_not] at hpo
      exact hpo ho
    | fanin hm hs hc =>
      have hm' := (hm.mem_gates (T := T)).resolve_left hs
      exact hw.no_reader _ (hreader _ hm') hm' hc
  · rintro ⟨hn, hpo, hfanouts⟩
    have hc := h.isConstant_of_input hn
    refine ⟨(mem_nodes hc).mpr (List.mem_append_left _ hn), hc, fun ho => ?_, fun m _ hm hchild => ?_⟩
    · rw [drivers, List.mem_filter, hpo, Bool.and_false] at ho
      exact Bool.false_ne_true ho.2
    · have hmem := mem_fanouts_of_mem V hm hchild
      rw [hfanouts] at hmem
      cases hmem

theorem Underway.finished {D : ClockedLayout} {pi2node : ℕ → ℕ} {st : PlacementState}
    (h : Underway V T ctn D pi2node (nodes ntk T) st) (hdraw : Drawable V T ctn)
    (hin : ∀ t ∈ st.canvas.used, D.Inside t) {clks : NumClks}
    (hD : D.clocking = (NamedScheme.twoddwaveClocking clks).clocking)
    (ha : D.arrangement = .cartesian) (hfits : D.Fits) :
    ∃ d, Finished D d st.canvas ∧ st.canvas.layout.foreachPi = ntk.foreachPi.map pi2node ∧
      ∀ t, IsEnd st.canvas t ↔ ∃ n ∈ ntk.inputs, ntk.isPo n = false ∧ V.fanouts n = [] ∧
        st.node2pos n = t := by
  obtain ⟨p, hp, -, -⟩ := h.exists_plan
  have hall := hp.represents
  have hforeach := foreachPi_eq_inputs hdraw.numPis
  have hmem : ∀ n ∈ ntk.inputs, n ∈ nodes ntk T := fun n hn =>
    List.mem_append_left _ (List.mem_append_right _ hn)
  refine ⟨p.drawing, ?_, hall.inputs, fun t => ?_⟩
  · constructor
    case toShows => exact hp.depicts.shown
    case inside => exact hin
    case waves => exact ⟨clks, hD⟩
    case cartesian => exact ha
    case fits => exact hfits
    case settled =>
      intro k hk hlt
      apply (hall.settled k hk hlt).resolve_right
      rintro ⟨m, hm, hnot, -⟩
      exact hnot (hmem m hm)
    case inputs =>
      intro k hk
      rw [hall.inputs, hforeach] at hk
      obtain ⟨n, hn, rfl⟩ := List.mem_map.mp hk
      obtain ⟨y, hon, -⟩ := hall.input n (hmem n hn) hn
      exact ⟨y, hon⟩
    case inputTile =>
      intro t ht hreads
      obtain ⟨m, -, hm, he⟩ := hall.inputTile t ht hreads
      rw [he, hall.inputs, hforeach]
      exact List.mem_map_of_mem hm
  · rw [hp.terminated t]
    constructor
    · rintro ⟨n, hw, rfl⟩
      obtain ⟨hn, hpo, hfanouts⟩ := hdraw.waits_iff.mp hw
      exact ⟨n, hn, hpo, hfanouts, rfl⟩
    · rintro ⟨n, hn, hpo, hfanouts, rfl⟩
      exact ⟨n, hdraw.waits_iff.mpr ⟨hn, hpo, hfanouts⟩, rfl⟩

theorem mem_drivers_iff {ntk : TechnologyNetwork} {T : ntk.TopoView} :
    n ∈ drivers ntk (nodes ntk T) ↔ n ∈ ntk.foreachPo ∧ isConstant n = false := by
  rw [drivers, List.mem_filter, Bool.and_eq_true, Bool.not_eq_true', isPo, List.contains_iff_mem]
  change _ ∧ _ ∧ n ∈ ntk.foreachPo ↔ _
  constructor
  · rintro ⟨-, hc, ho⟩
    exact ⟨ho, hc⟩
  · rintro ⟨ho, hc⟩
    refine ⟨(mem_nodes hc).mpr ?_, hc, ho⟩
    rcases T.outputs_mem n (List.mem_of_mem_take ho) with (hle | hin) | hgate
    · exact absurd hle (of_decide_eq_false hc)
    · exact List.mem_append_left _ hin
    · exact List.mem_append_right _ hgate

section Completed

variable {clks : NumClks} {st : PlacementState}

theorem Completed.finished (h : Completed V T ctn clks .cartesian st) :
    ∃ d, Finished (clockedLayout ntk V T ctn clks .cartesian) d st.canvas ∧
      st.canvas.layout.foreachPi ≠ [] ∧
      ∀ t, IsEnd st.canvas t ↔ ∃ n ∈ ntk.inputs, ntk.isPo n = false ∧ V.fanouts n = [] ∧
        st.node2pos n = t := by
  obtain ⟨d, hfinished, hinputs, hends⟩ := h.underway.finished h.drawable h.inside rfl rfl
    (fits_clockedLayout clks .cartesian)
  refine ⟨d, hfinished, ?_, hends⟩
  rw [hinputs, foreachPi_eq_inputs h.drawable.numPis, ← List.length_pos_iff, List.length_map,
    ← h.drawable.numPis]
  exact h.drawable.numPis_pos

theorem Completed.drvs_eq_zero_iff (h : Completed V T ctn clks .cartesian st) :
    (st.canvas.layout.gateLevelDrvs {}).drvs = 0 ↔
      ∀ n ∈ ntk.foreachPi, ntk.isPo n = true ∨ V.fanouts n ≠ [] := by
  obtain ⟨d, hfinished, hpi, hends⟩ := h.finished
  rw [hfinished.drvs_eq_zero_iff hpi, foreachPi_eq_inputs h.drawable.numPis]
  constructor
  · intro hnone n hn
    by_contra hnot
    rw [not_or, Bool.not_eq_true, not_not] at hnot
    exact hnone _ ((hends _).mpr ⟨n, hn, hnot.1, hnot.2, rfl⟩)
  · intro hall t ht
    obtain ⟨n, hn, hpo, hfanouts, -⟩ := (hends t).mp ht
    rcases hall n hn with hused | hused
    · exact Bool.noConfusion (hpo.symm.trans hused)
    · exact hused hfanouts

theorem Completed.outputs_ne_nil (h : Completed V T ctn clks .cartesian st)
    (ho : ∃ o ∈ ntk.foreachPo, isConstant o = false) : st.canvas.layout.outputs ≠ [] := by
  obtain ⟨o, ho, hc⟩ := ho
  obtain ⟨L⟩ := h.implements.exists_view
  intro hnil
  have hvalues := h.implements.outputs L fun _ => false
  rw [GateLevelLayout.outputValues, GateLevelLayout.foreachPo, hnil, List.take_nil, List.map_nil,
    eq_comm, List.map_eq_nil_iff] at hvalues
  have hmem : o ∈ drivers ntk (nodes ntk T) := mem_drivers_iff.mpr ⟨ho, hc⟩
  rw [hvalues] at hmem
  exact absurd hmem List.not_mem_nil

theorem Completed.drvs_eq_zero (h : Completed V T ctn clks .cartesian st)
    {ps : GateLevelLayout.GateLevelDrvParams} (hmissing : ps.missingConnections = false)
    (hio : ps.hasIo = true → ∃ o ∈ ntk.foreachPo, isConstant o = false) :
    (st.canvas.layout.gateLevelDrvs ps).drvs = 0 := by
  obtain ⟨d, hfinished, hpi, -⟩ := h.finished
  exact hfinished.drvs_eq_zero hpi hmissing fun hreq => h.outputs_ne_nil (hio hreq)

theorem Completed.warnings_eq_zero (h : Completed V T ctn clks .cartesian st) :
    (st.canvas.layout.gateLevelDrvs {}).warnings = 0 := by
  obtain ⟨d, hfinished, -, -⟩ := h.finished
  exact hfinished.warnings_eq_zero

end Completed

/-- The layout violates a design rule exactly if the network does not use one of its inputs. Even then
it meets the other rules, except that it has no outputs if no node drives one. There are no
warnings. -/
theorem run_drvs_iff (h : Orderly ntk T)
    (hcoloring : eastSouthEdgeColoring ntk V T fuel = some ctn) (hports : PortsAgree V T ctn)
    (eastFirst : Bool) (clks : NumClks) :
    ∃ st, run ntk V T ctn eastFirst clks .cartesian = some st ∧
      ((st.canvas.layout.gateLevelDrvs {}).drvs = 0 ↔
        ∀ n ∈ ntk.foreachPi, ntk.isPo n = true ∨ V.fanouts n ≠ []) ∧
      (∀ ps : GateLevelLayout.GateLevelDrvParams, ps.missingConnections = false →
        (ps.hasIo = true → ∃ o ∈ ntk.foreachPo, isConstant o = false) →
          (st.canvas.layout.gateLevelDrvs ps).drvs = 0) ∧
      (st.canvas.layout.gateLevelDrvs {}).warnings = 0 := by
  obtain ⟨st, hrun, hst⟩ := h.exists_completed hcoloring hports eastFirst clks .cartesian
  exact ⟨st, hrun, hst.drvs_eq_zero_iff, fun _ => hst.drvs_eq_zero, hst.warnings_eq_zero⟩

theorem run_drvs_iff_halfAdder :
    ∃ ctn, eastSouthEdgeColoring halfAdder halfAdder.fanoutView halfAdderView 10 = some ctn ∧
      ∃ st, run halfAdder halfAdder.fanoutView halfAdderView ctn true .four .cartesian = some st ∧
        ((st.canvas.layout.gateLevelDrvs {}).drvs = 0 ↔
          ∀ n ∈ halfAdder.foreachPi,
            halfAdder.isPo n = true ∨ halfAdder.fanoutView.fanouts n ≠ []) ∧
        (∀ ps : GateLevelLayout.GateLevelDrvParams, ps.missingConnections = false →
          (ps.hasIo = true → ∃ o ∈ halfAdder.foreachPo, isConstant o = false) →
            (st.canvas.layout.gateLevelDrvs ps).drvs = 0) ∧
        (st.canvas.layout.gateLevelDrvs {}).warnings = 0 := by
  obtain ⟨ctn, hcoloring, hports⟩ := halfAdder_colored
  exact ⟨ctn, hcoloring, run_drvs_iff halfAdder_orderly hcoloring hports true .four⟩

end Run

end Fiction.Orthogonal
