import Fiction.Layouts.LayoutFunctions
import Fiction.PhysicalDesign.OrthogonalProgress

/-!
# The function of orthogonal layouts

On a 2DDWave-clocked Cartesian layout, every tile in use is fed by the tiles in front of it that its
node reads. A simulator that follows the data flow of the layout therefore finds the values of the
network on the outputs.
-/

namespace Fiction.Orthogonal

open GridDrawing TechnologyNetwork
open GateLevelLayout (reads flowGraph IsPiTile FlowView perm_incomingDataFlow mem_children_of_mem
  element_of_occupied element_eq_none_iff element_dead)

/-- No operation of the placement has met an occupied tile, unless a wire crosses a wire. -/
structure WithoutOverlap (D : ClockedLayout) (cv : Canvas) : Prop where
  nodup : cv.used.Nodup
  mem_used : ∀ t, t ∈ cv.used ↔ t.isDead = false ∧ cv.layout.isEmptyTile t = false
  inside : ∀ t ∈ cv.used, D.Inside t
  crossing : ∀ t ∈ cv.used, t.z ≠ 0 → cv.layout.isWireTile t = true ∧
    .at2 t.x t.y ∈ cv.used ∧ cv.layout.isWireTile (.at2 t.x t.y) = true
  /-- every node reads tiles directly in the west or in the north -/
  children : ∀ t ∈ cv.used, ∀ c ∈ (cv.layout.node (cv.layout.getNode t)).children,
    c ∈ cv.used ∧ Precedes c t

section Shown

variable {D : ClockedLayout} {d : Drawing} {cv : Canvas} {t : Tile} {cs : List Signal}
  {f : TruthTable}

theorem Shows.element_eq (h : Shows D d cv) (ht : t ∈ cv.used) : cv.layout.element t =
    some ((cv.layout.node (cv.layout.getNode t)).children,
      (cv.layout.node (cv.layout.getNode t)).function) :=
  element_of_occupied (h.live ht) (h.isEmptyTile_eq_false ht)

theorem Shows.reads_eq (h : Shows D d cv) (ht : t ∈ cv.used) :
    cv.layout.reads t = (cv.layout.node (cv.layout.getNode t)).children := by
  rw [reads, h.element_eq ht]
  rfl

theorem Shows.isWireTile (h : Shows D d cv) (ht : t ∈ cv.used) (hd : d t.x t.y ≠ .vertex) :
    cv.layout.isWireTile t = true := by
  obtain ⟨s, hs⟩ := h.wire t ht hd
  rw [h.element_eq ht] at hs
  exact decide_eq_true (Prod.mk.inj (Option.some.inj hs)).2

theorem Shows.mem_of_child (h : Shows D d cv) (ht : t ∈ cv.used) {c : Tile}
    (hc : c ∈ (cv.layout.node (cv.layout.getNode t)).children) : c ∈ cv.used := by
  rw [← h.reads_eq ht] at hc
  exact h.mem_of_mem_reads ht hc

theorem Shows.withoutOverlap (h : Shows D d cv) (hin : ∀ t ∈ cv.used, D.Inside t) :
    WithoutOverlap D cv where
  nodup := h.nodup
  mem_used t := by
    constructor
    · intro ht
      exact ⟨h.live ht, h.isEmptyTile_eq_false ht⟩
    · rintro ⟨hlive, hempty⟩
      rw [← h.element, element_of_occupied hlive hempty]
      rfl
  inside := hin
  crossing t ht hz := by
    obtain ⟨-, ⟨hz', -⟩ | ⟨-, hcrossing⟩⟩ := (h.mem_used t).mp ht
    · exact absurd hz' hz
    · have hground : .at2 t.x t.y ∈ cv.used := by
        rw [h.mem_used]
        refine ⟨rfl, .inl ⟨rfl, ?_⟩⟩
        change d t.x t.y ≠ .blank
        rw [hcrossing]
        intro he
        cases he
      have hvertex : d t.x t.y ≠ .vertex := by
        rw [hcrossing]
        intro he
        cases he
      exact ⟨h.isWireTile ht hvertex, hground, h.isWireTile hground hvertex⟩
  children t ht c hc :=
    ⟨h.mem_of_child ht hc, h.precedes t _ _ (h.element_eq ht) c hc⟩

theorem isOutgoingClocked_twoddwave {clks : NumClks}
    (hD : D.clocking = (NamedScheme.twoddwaveClocking clks).clocking) {c t : Tile}
    (hp : Precedes c t) : D.isOutgoingClocked c t = true := by
  have hne : c ≠ t := by
    rintro rfl
    rcases hp with ⟨hx, -⟩ | ⟨-, hy⟩ <;> omega
  have hstep : ∀ n, 0 < n → ((c.y % n + c.x % n) % n + 1) % n = (t.y % n + t.x % n) % n := by
    intro n hn
    rw [← Nat.add_mod, ← Nat.add_mod, Nat.mod_add_mod]
    congr 1
    rcases hp with ⟨hx, hy⟩ | ⟨hx, hy⟩ <;> omega
  rw [ClockedLayout.isOutgoingClocked, if_neg hne, decide_eq_true_iff, ClockedLayout.getClockNumber,
    ClockedLayout.getClockNumber, ClockedLayout.numClocks, hD]
  cases clks with
  | three => exact hstep 3 (by decide)
  | four => exact hstep 4 (by decide)

theorem Shows.linked (h : Shows D d cv) (hin : ∀ t ∈ cv.used, D.Inside t)
    (ha : D.arrangement = .cartesian) (ht : t ∈ cv.used) {c : Tile}
    (hc : c ∈ (cv.layout.node (cv.layout.getNode t)).children) : cv.layout.Linked t c := by
  have hcu := h.mem_of_child ht hc
  have hzt := h.z_le ht
  have hzc := h.z_le hcu
  refine ⟨?_, by omega, by omega, hc⟩
  rw [h.clocked, CoordinateLayout.beside_cartesian_iff ha (hin t ht) (hin c hcu)]
  rcases h.precedes t _ _ (h.element_eq ht) c hc with ⟨hx, hy⟩ | ⟨hx, hy⟩
  · exact .inr ⟨hy.symm, .inl hx.symm⟩
  · exact .inl ⟨hx.symm, .inl hy.symm⟩

theorem Shows.isOutgoingClocked (h : Shows D d cv) {clks : NumClks}
    (hD : D.clocking = (NamedScheme.twoddwaveClocking clks).clocking) (ht : t ∈ cv.used)
    {c s r : Tile} (hc : c ∈ (cv.layout.node (cv.layout.getNode t)).children)
    (hs : s.x = c.x ∧ s.y = c.y) (hr : r.x = t.x ∧ r.y = t.y) :
    cv.layout.clocked.isOutgoingClocked s r = true := by
  rw [h.clocked]
  apply isOutgoingClocked_twoddwave hD
  rw [Precedes, hs.1, hs.2, hr.1, hr.2]
  exact h.precedes t _ _ (h.element_eq ht) c hc

theorem Shows.incomingDataFlow_perm (h : Shows D d cv) (hin : ∀ t ∈ cv.used, D.Inside t)
    {clks : NumClks} (hD : D.clocking = (NamedScheme.twoddwaveClocking clks).clocking)
    (ha : D.arrangement = .cartesian) (ht : t ∈ cv.used) :
    (cv.layout.incomingDataFlow t).Perm (cv.layout.node (cv.layout.getNode t)).children := by
  have hin' : ∀ s ∈ cv.used, cv.layout.clocked.Inside s := by
    rw [h.clocked]
    exact hin
  apply perm_incomingDataFlow (hin' t ht) (h.commutes t _ _ (h.element_eq ht)).nodup
  intro c hc
  exact ⟨hin' c (h.mem_of_child ht hc), h.linked hin ha ht hc,
    h.isOutgoingClocked hD ht hc ⟨rfl, rfl⟩ ⟨rfl, rfl⟩⟩

/-- A solution of the data flow is a steady state. -/
theorem Shows.steady_of_solves (h : Shows D d cv)
    (hflow : ∀ t ∈ cv.used,
      (cv.layout.incomingDataFlow t).Perm (cv.layout.node (cv.layout.getNode t)).children)
    {known : Tile → Prop} {base v : Tile → Bool} {tiles : List Tile}
    (hv : cv.layout.flowGraph.Solves known tiles base v)
    (htiles : ∀ t ∈ cv.used, cv.layout.reads t ≠ [] → t ∈ tiles) : cv.layout.Steady v := by
  intro t cs f he hcs
  have ht : t ∈ cv.used := (h.element t).mp (by rw [he]; rfl)
  have heq := h.element_eq ht
  rw [he] at heq
  obtain ⟨rfl, rfl⟩ := Prod.mk.inj (Option.some.inj heq)
  have htile : cv.layout.getTile (cv.layout.getNode t) = t :=
    GateLevelLayout.getTile_eq_of_map (h.placement.tile_of_node t _ (h.live ht)
      (GateLevelLayout.tileNodeMap_getNode (h.isEmptyTile_eq_false ht)))
  have hmem : t ∈ tiles := htiles t ht (by rw [h.reads_eq ht]; exact hcs)
  rw [hv.rule t hmem]
  calc cv.layout.compute (cv.layout.getNode t) ((cv.layout.incomingDataFlow t).map v)
      = (cv.layout.node (cv.layout.getNode t)).function.eval
          ((cv.layout.incomingDataFlow t).map v) :=
        GateLevelLayout.compute_incomingDataFlow htile v
    _ = (cv.layout.node (cv.layout.getNode t)).function.eval
          ((cv.layout.node (cv.layout.getNode t)).children.map v) :=
        (h.commutes t _ _ (h.element_eq ht)).eval_perm _ (hflow t ht) v

end Shown

theorem idxOf_map {l : List ℕ} {g : ℕ → ℕ} {n : ℕ} (hg : ∀ m ∈ l, g m = g n → m = n) :
    (l.map g).idxOf (g n) = l.idxOf n := by
  induction l with
  | nil => rfl
  | cons m l ih =>
    have hm : (g m == g n) = (m == n) := by
      rw [Bool.eq_iff_iff, beq_iff_eq, beq_iff_eq]
      exact ⟨hg m List.mem_cons_self, congrArg g⟩
    rw [List.map_cons, List.idxOf_cons, List.idxOf_cons, hm,
      ih fun k hk => hg k (List.mem_cons_of_mem m hk)]

section Represents

variable {ntk : TechnologyNetwork} {T : ntk.TopoView} {pi2node : ℕ → ℕ} {outs : List ℕ}
  {cv : Canvas} {node2pos : ℕ → Tile} {D : ClockedLayout} {d : Drawing} {t : Tile}

/-- All nodes have been placed. -/
abbrev RepresentsAll (ntk : TechnologyNetwork) (T : ntk.TopoView) (pi2node : ℕ → ℕ)
    (outs : List ℕ) (cv : Canvas) (node2pos : ℕ → Tile) : Prop :=
  Represents ntk T pi2node (nodes ntk T) (nodes ntk T) outs cv node2pos

theorem Represents.isPiTile_iff (h : RepresentsAll ntk T pi2node outs cv node2pos)
    (hs : Shows D d cv) (hnum : ntk.numPis = ntk.inputs.length) (ht : t ∈ cv.used) :
    cv.layout.IsPiTile t ↔ cv.layout.reads t = [] := by
  have hforeach := foreachPi_eq_inputs hnum
  have hpi : ∀ n, cv.layout.isPi n = true ↔ ∃ m ∈ ntk.inputs, pi2node m = n := by
    intro n
    rw [GateLevelLayout.isPi, List.contains_iff_mem, ← GateLevelLayout.foreachPi, h.inputs, hforeach,
      List.mem_map]
  rw [IsPiTile, hpi]
  constructor
  · rintro ⟨m, hm, he⟩
    obtain ⟨y, hon, -⟩ := h.input m (List.mem_append_left _ (List.mem_append_right _ hm)) hm
    rw [hs.eq_of_getNode_eq ht hon.mem (he.symm.trans hon.getNode.symm), reads, hon.element]
    rfl
  · intro hreads
    obtain ⟨m, -, hm, he⟩ := h.inputTile t ht hreads
    exact ⟨m, hm, he.symm⟩

/-- The tiles that read others, in the order in which they have been used. -/
def readers (cv : Canvas) : List Tile := cv.used.filter fun t => !(cv.layout.reads t).isEmpty

theorem mem_readers : t ∈ readers cv ↔ t ∈ cv.used ∧ cv.layout.reads t ≠ [] := by
  rw [readers, List.mem_filter, Bool.not_eq_true', List.isEmpty_eq_false_iff]

theorem Represents.sorted_readers (h : RepresentsAll ntk T pi2node outs cv node2pos)
    (hs : Shows D d cv) (hnum : ntk.numPis = ntk.inputs.length) :
    cv.layout.flowGraph.Sorted cv.layout.IsPiTile (readers cv) := by
  have hpi := fun {t} (ht : t ∈ cv.used) => h.isPiTile_iff hs hnum ht
  apply (hs.sorted.filter fun t => !(cv.layout.reads t).isEmpty).weaken
  · rintro t (hf | ⟨ht, hp⟩)
    · exact hf.elim
    · rw [hpi ht]
      simpa using hp
  · intro t ht
    obtain ⟨hused, hne⟩ := mem_readers.mp ht
    rwa [hpi hused]
  · intro t ht c hc
    change c ∈ cv.layout.reads t
    rw [hs.reads_eq (mem_readers.mp ht).1]
    exact mem_children_of_mem hc

theorem Represents.outputs_mem (h : RepresentsAll ntk T pi2node outs cv node2pos)
    (hs : Shows D d cv) (hnum : ntk.numPis = ntk.inputs.length) :
    ∀ o ∈ cv.layout.foreachPo, cv.layout.IsPiTile o ∨ o ∈ readers cv := by
  intro o ho
  have hused := hs.outputs o (List.mem_of_mem_take ho)
  rw [h.isPiTile_iff hs hnum hused, mem_readers]
  by_cases hreads : cv.layout.reads o = []
  · exact .inl hreads
  · exact .inr ⟨hused, hreads⟩

/-- A solution of the data flow yields a solution of the network. -/
theorem Represents.solves (h : RepresentsAll ntk T pi2node outs cv node2pos) (hs : Shows D d cv)
    (hnum : ntk.numPis = ntk.inputs.length)
    (hinj : InjectiveOn ntk.inputs pi2node) {a : ℕ → Bool} {v : Tile → Bool}
    (hv : cv.layout.flowGraph.Solves cv.layout.IsPiTile (readers cv) (cv.layout.inputValues a) v)
    (hsteady : cv.layout.Steady v) :
    ntk.graph.Solves ntk.IsSource T.gates (ntk.sourceValues a) (nodeValue node2pos v) := by
  have hforeach := foreachPi_eq_inputs hnum
  constructor
  case base =>
    intro n hn
    by_cases hle : n ≤ 1
    · have hconst : isConstant n = true := decide_eq_true hle
      rw [nodeValue, sourceValues, if_pos hle, if_pos hconst]
    · have hin : n ∈ ntk.inputs := hn.resolve_left hle
      have hmem : n ∈ nodes ntk T := List.mem_append_left _ (List.mem_append_right _ hin)
      obtain ⟨y, hon, hconducts⟩ := h.input n hmem hin
      have hpi : cv.layout.IsPiTile (.at2 0 y) := by
        rw [h.isPiTile_iff hs hnum hon.mem, reads, hon.element]
        rfl
      rw [nodeValue_of_not_constant (decide_eq_false hle), hconducts v hsteady, hv.base _ hpi,
        sourceValues, if_neg hle, GateLevelLayout.inputValues, hon.getNode, h.inputs, hforeach,
        idxOf_map fun m hm => hinj m hm n hin]
  case rule =>
    intro n hn
    rw [nodeValue_of_not_constant (isConstant_of_mem hn)]
    exact h.value v hsteady n (List.mem_append_right _ hn) hn

end Represents

section Run

variable {ntk : TechnologyNetwork} {V : FanoutView ntk} {T : ntk.TopoView}
  {ctn : ColoringContainer}

/-- The layout computes the outputs of the network, in the order in which their drivers are
visited. -/
structure Implements (ntk : TechnologyNetwork) (T : ntk.TopoView) (lyt : GateLevelLayout) : Prop where
  inputs : lyt.foreachPi.length = ntk.foreachPi.length
  exists_view : Nonempty lyt.FlowView
  outputs : ∀ (L : lyt.FlowView) (a : ℕ → Bool), lyt.outputValues L.tiles a =
    (drivers ntk (nodes ntk T)).map (ntk.simulate T.gates a)

theorem Underway.implements {D : ClockedLayout} {pi2node : ℕ → ℕ} {st : PlacementState}
    (h : Underway V T ctn D pi2node (nodes ntk T) st) (hdraw : Drawable V T ctn)
    (hinj : InjectiveOn ntk.inputs pi2node) (hin : ∀ t ∈ st.canvas.used, D.Inside t)
    {clks : NumClks} (hD : D.clocking = (NamedScheme.twoddwaveClocking clks).clocking)
    (ha : D.arrangement = .cartesian) : Implements ntk T st.canvas.layout := by
  obtain ⟨p, hp, -, -⟩ := h.exists_plan
  have hs := hp.depicts.shown
  have hall := hp.represents
  have hsorted := hall.sorted_readers hs hdraw.numPis
  have hout := hall.outputs_mem hs hdraw.numPis
  constructor
  case inputs => rw [hall.inputs, List.length_map]
  case exists_view => exact ⟨⟨readers st.canvas, hsorted, hout⟩⟩
  case outputs =>
    intro L a
    have hv := Graph.evaluate_solves hsorted (st.canvas.layout.inputValues a)
    have hsteady := hs.steady_of_solves (fun t ht => hs.incomingDataFlow_perm hin hD ha ht) hv
      fun t ht hne => mem_readers.mpr ⟨ht, hne⟩
    have hsolves := hall.solves hs hdraw.numPis hinj hv hsteady
    have hpos : st.canvas.layout.foreachPo = st.canvas.layout.outputs := by
      rw [GateLevelLayout.foreachPo, hs.numPos, List.take_length]
    rw [L.outputValues_eq hsorted hv hout, hpos, hall.outputs _ hsteady]
    apply List.map_congr_left
    intro n hn
    have hmem : ntk.IsSource n ∨ n ∈ T.gates := by
      have hn' := hall.outs_mem n hn
      rw [nodes, List.append_assoc, List.mem_append, List.mem_append] at hn'
      rcases hn' with hn' | hn' | hn'
      · left
        left
        simp only [List.mem_cons, List.not_mem_nil, or_false] at hn'
        omega
      · exact .inl (.inr hn')
      · exact .inr hn'
    exact hsolves.unique T.sorted (T.simulate_solves a) hmem

end Run

end Fiction.Orthogonal
