import Fiction.PhysicalDesign.OrthogonalInputs

/-!
# Nodes on canvases

The tiles of the placed nodes are different tiles in use. In every steady state, the tile of a gate
carries the value that the gate computes in the network from the values of its fan-ins, and the
outputs carry the values of their drivers.
-/

namespace Fiction.Orthogonal

open GridDrawing TechnologyNetwork
open GateLevelLayout (reads)

/-- The nodes `pre` have been placed, the inputs `taken` have been moved to their tiles and the
nodes `outs` have got outputs, in this order. -/
structure Represents (ntk : TechnologyNetwork) (T : ntk.TopoView) (pi2node : ℕ → ℕ)
    (pre taken outs : List ℕ) (cv : Canvas) (node2pos : ℕ → Tile) : Prop where
  used : ∀ m ∈ pre, isConstant m = false → node2pos m ∈ cv.used
  inj : ∀ m ∈ pre, ∀ m' ∈ pre, isConstant m = false → isConstant m' = false →
    node2pos m = node2pos m' → m = m'
  deps : ∀ m ∈ pre, m ∈ T.gates → ∀ c ∈ (ntk.node m).children, c ∈ pre
  reserved : ∀ m ∈ ntk.inputs, m ∉ taken → Reserved cv (pi2node m)
  settled : ∀ k, 2 ≤ k → k < cv.layout.size → (∃ t ∈ cv.used, cv.layout.getNode t = k) ∨
    ∃ m ∈ ntk.inputs, m ∉ taken ∧ pi2node m = k
  input : ∀ m ∈ pre, m ∈ ntk.inputs →
    ∃ y, InputOn cv (pi2node m) (.at2 0 y) ∧ Conducts cv (.at2 0 y) (node2pos m)
  value : ∀ val, cv.layout.Steady val → ∀ m ∈ pre, m ∈ T.gates →
    val (node2pos m) = (ntk.node m).function.eval ((ntk.node m).children.map (nodeValue node2pos val))
  outs_mem : ∀ o ∈ outs, o ∈ pre
  outputs : ∀ val, cv.layout.Steady val →
    cv.layout.outputs.map val = outs.map (nodeValue node2pos val)
  /-- only the inputs read nothing -/
  inputTile : ∀ t ∈ cv.used, cv.layout.reads t = [] →
    ∃ m ∈ taken, m ∈ ntk.inputs ∧ cv.layout.getNode t = pi2node m
  inputs : cv.layout.foreachPi = ntk.foreachPi.map pi2node

section Represents

variable {ntk : TechnologyNetwork} {T : ntk.TopoView} {pi2node : ℕ → ℕ}
  {pre taken outs : List ℕ} {cv cv' : Canvas} {node2pos : ℕ → Tile}
  {D : ClockedLayout} {d : Drawing} {moved : List ℕ} {pos : List Tile} {n : ℕ} {t : Tile}

theorem Represents.extends (taken' outs' : List ℕ)
    (h : Represents ntk T pi2node pre taken outs cv node2pos)
    (hs : Shows D d cv) (hext : Extends moved pos cv cv')
    (hinj : ∀ m ∈ ntk.inputs, ∀ m' ∈ ntk.inputs, pi2node m = pi2node m' → m = m')
    (htaken : ∀ m ∈ taken, m ∈ taken')
    (hmoved : ∀ k ∈ moved, ∃ m ∈ taken', m ∈ ntk.inputs ∧ k = pi2node m)
    (htakes : ∀ m ∈ ntk.inputs, m ∈ taken' → m ∉ taken → pi2node m ∈ moved)
    (houts : ∀ o ∈ outs', o ∈ pre)
    (hpos : ∀ val, cv'.layout.Steady val → pos.map val = outs'.map (nodeValue node2pos val)) :
    Represents ntk T pi2node pre taken' (outs ++ outs') cv' node2pos where
  used m hm hc := hext.mem _ (h.used m hm hc)
  inj := h.inj
  deps := h.deps
  reserved m hm hnot := by
    apply (h.reserved m hm fun hmem => hnot (htaken m hmem)).extends hext
    intro hmem
    obtain ⟨m', hm', hin, he⟩ := hmoved _ hmem
    obtain rfl := hinj m hm m' hin he
    exact hnot hm'
  settled k hk hlt := by
    by_cases hold : k < cv.layout.size
    · rcases h.settled k hk hold with ⟨t, ht, he⟩ | ⟨m, hm, hnot, rfl⟩
      · exact .inl ⟨t, hext.mem t ht, (hext.getNode t ht).trans he⟩
      · by_cases hm' : m ∈ taken'
        · exact .inl (hext.settles _ (htakes m hm hm' hnot))
        · exact .inr ⟨m, hm, hm', rfl⟩
    · exact .inl (hext.nodes k (not_lt.mp hold) hlt)
  input m hm hin := by
    obtain ⟨y, hon, hconducts⟩ := h.input m hm hin
    exact ⟨y, hon.extends hext, hconducts.extends hs hext⟩
  value val hval := h.value val (hext.steady hs hval)
  outs_mem o ho := (List.mem_append.mp ho).elim (h.outs_mem o) (houts o)
  outputs val hval := by
    rw [hext.outputs, List.map_append, List.map_append, hpos val hval,
      h.outputs val (hext.steady hs hval)]
  inputTile s hs' hreads := by
    by_cases hold : s ∈ cv.used
    · rw [reads, hext.element s hold] at hreads
      rw [hext.getNode s hold]
      obtain ⟨m, hm, hin, he⟩ := h.inputTile s hold hreads
      exact ⟨m, htaken m hm, hin, he⟩
    · rcases hext.new s hs' hold with ⟨-, hne⟩ | hmem
      · exact absurd hreads hne
      · exact hmoved _ hmem
  inputs := hext.inputs.trans h.inputs

/-- A node is placed on a tile that no other node has. -/
theorem Represents.place (h : Represents ntk T pi2node pre taken outs cv node2pos)
    (hn : n ∉ pre) (hused : t ∈ cv.used)
    (hfresh : ∀ m ∈ pre, isConstant m = false → node2pos m ≠ t)
    (hin : n ∈ ntk.inputs → ∃ y, InputOn cv (pi2node n) (.at2 0 y) ∧ Conducts cv (.at2 0 y) t)
    (hdeps : n ∈ T.gates → ∀ c ∈ (ntk.node n).children, c ∈ pre)
    (hvalue : n ∈ T.gates → ∀ val, cv.layout.Steady val → val t =
      (ntk.node n).function.eval ((ntk.node n).children.map (nodeValue node2pos val))) :
    Represents ntk T pi2node (pre ++ [n]) taken outs cv (Function.update node2pos n t) := by
  have hold : ∀ m ∈ pre, Function.update node2pos n t m = node2pos m := by
    intro m hm
    apply Function.update_of_ne
    rintro rfl
    exact hn hm
  have hself : Function.update node2pos n t n = t := Function.update_self ..
  have holdValue : ∀ val, ∀ cs : List ℕ, (∀ c ∈ cs, c ∈ pre) →
      cs.map (nodeValue (Function.update node2pos n t) val) = cs.map (nodeValue node2pos val) := by
    intro val cs hcs
    apply List.map_congr_left
    intro c hc
    rw [nodeValue, nodeValue, hold c (hcs c hc)]
  constructor
  case used =>
    intro m hm hc
    rcases List.mem_append.mp hm with hm | hm
    · rw [hold m hm]
      exact h.used m hm hc
    · rw [List.mem_singleton.mp hm, hself]
      exact hused
  case inj =>
    intro m hm m' hm' hc hc' he
    rcases List.mem_append.mp hm with hm | hm <;> rcases List.mem_append.mp hm' with hm' | hm'
    · rw [hold m hm, hold m' hm'] at he
      exact h.inj m hm m' hm' hc hc' he
    · rw [hold m hm, List.mem_singleton.mp hm', hself] at he
      exact absurd he (hfresh m hm hc)
    · rw [hold m' hm', List.mem_singleton.mp hm, hself] at he
      exact absurd he.symm (hfresh m' hm' hc')
    · rw [List.mem_singleton.mp hm, List.mem_singleton.mp hm']
  case deps =>
    intro m hm hgate c hc
    apply List.mem_append_left
    rcases List.mem_append.mp hm with hm | hm
    · exact h.deps m hm hgate c hc
    · obtain rfl := List.mem_singleton.mp hm
      exact hdeps hgate c hc
  case reserved => exact h.reserved
  case settled => exact h.settled
  case input =>
    intro m hm hmin
    rcases List.mem_append.mp hm with hm | hm
    · rw [hold m hm]
      exact h.input m hm hmin
    · obtain rfl := List.mem_singleton.mp hm
      rw [hself]
      exact hin hmin
  case value =>
    intro val hval m hm hgate
    rcases List.mem_append.mp hm with hm | hm
    · rw [hold m hm, holdValue val _ (h.deps m hm hgate)]
      exact h.value val hval m hm hgate
    · obtain rfl := List.mem_singleton.mp hm
      rw [hself, holdValue val _ (hdeps hgate)]
      exact hvalue hgate val hval
  case outs_mem => exact fun o ho => List.mem_append_left _ (h.outs_mem o ho)
  case outputs =>
    intro val hval
    rw [holdValue val outs h.outs_mem]
    exact h.outputs val hval
  case inputTile => exact h.inputTile
  case inputs => exact h.inputs

/-- Constants are not placed. -/
theorem Represents.skip (h : Represents ntk T pi2node pre taken outs cv node2pos)
    (hn : isConstant n = true) (hin : n ∉ ntk.inputs) (hgate : n ∉ T.gates) :
    Represents ntk T pi2node (pre ++ [n]) (taken ++ [n]) outs cv node2pos := by
  have hmem : ∀ m ∈ pre ++ [n], m ≠ n → m ∈ pre := fun m hm hne =>
    (List.mem_append.mp hm).resolve_right fun he => hne (List.mem_singleton.mp he)
  have hconst : ∀ m, isConstant m = false → m ≠ n := by
    rintro m hm rfl
    exact Bool.noConfusion (hm.symm.trans hn)
  have hinput : ∀ m ∈ ntk.inputs, m ≠ n := by
    rintro m hm rfl
    exact hin hm
  have hgates : ∀ m ∈ T.gates, m ≠ n := by
    rintro m hm rfl
    exact hgate hm
  constructor
  case used => exact fun m hm hc => h.used m (hmem m hm (hconst m hc)) hc
  case inj =>
    exact fun m hm m' hm' hc hc' =>
      h.inj m (hmem m hm (hconst m hc)) m' (hmem m' hm' (hconst m' hc')) hc hc'
  case deps =>
    exact fun m hm hg c hc => List.mem_append_left _ (h.deps m (hmem m hm (hgates m hg)) hg c hc)
  case reserved => exact fun m hm hnot => h.reserved m hm fun ht => hnot (List.mem_append_left _ ht)
  case settled =>
    intro k hk hlt
    apply (h.settled k hk hlt).imp_right
    rintro ⟨m, hm, hnot, he⟩
    refine ⟨m, hm, fun ht => ?_, he⟩
    rcases List.mem_append.mp ht with ht | ht
    · exact hnot ht
    · exact hinput m hm (List.mem_singleton.mp ht)
  case input => exact fun m hm hmin => h.input m (hmem m hm (hinput m hmin)) hmin
  case value => exact fun val hval m hm hg => h.value val hval m (hmem m hm (hgates m hg)) hg
  case outs_mem => exact fun o ho => List.mem_append_left _ (h.outs_mem o ho)
  case outputs => exact h.outputs
  case inputTile =>
    intro t ht hreads
    obtain ⟨m, hm, hmin, he⟩ := h.inputTile t ht hreads
    exact ⟨m, List.mem_append_left _ hm, hmin, he⟩
  case inputs => exact h.inputs

theorem Reserves.represents {lyt : GateLevelLayout} (h : Reserves ntk D lyt pi2node)
    (hnum : ntk.numPis = ntk.inputs.length) :
    Represents ntk T pi2node [] [] [] ⟨lyt, []⟩ fun _ => .at2 0 0 where
  used m hm := absurd hm List.not_mem_nil
  inj m hm := absurd hm List.not_mem_nil
  deps m hm := absurd hm List.not_mem_nil
  reserved m hm _ := by
    apply h.reserved
    rwa [TechnologyNetwork.foreachPi, hnum, List.take_length]
  settled k hk hlt := by
    obtain ⟨m, hm, he⟩ := h.nodes k hk hlt
    exact .inr ⟨m, List.mem_of_mem_take hm, List.not_mem_nil, he⟩
  input m hm := absurd hm List.not_mem_nil
  value _ _ m hm := absurd hm List.not_mem_nil
  outs_mem o ho := absurd ho List.not_mem_nil
  outputs val _ := by
    have hnone : lyt.outputs = [] := List.eq_nil_iff_forall_not_mem.mpr fun o ho =>
      absurd (h.shown.outputs o ho) List.not_mem_nil
    change lyt.outputs.map val = _
    rw [hnone]
    rfl
  inputTile t ht := absurd ht List.not_mem_nil
  inputs := h.inputs

end Represents

/-- The node `m` has been placed, and neither an output nor another node has been put behind it. -/
structure Waits (ntk : TechnologyNetwork) (T : ntk.TopoView) (pre outs : List ℕ) (m : ℕ) : Prop where
  mem : m ∈ pre
  not_constant : isConstant m = false
  no_output : m ∉ outs
  no_reader : ∀ k ∈ pre, k ∈ T.gates → m ∉ (ntk.node k).children

/-- The tiles at which nothing goes on, outputs apart. -/
def IsEnd (cv : Canvas) (t : Tile) : Prop :=
  t ∈ cv.used ∧ ¬ IsRead cv t ∧ t ∉ cv.layout.outputs

/-- Only nodes that wait are at an end. -/
def Terminated (ntk : TechnologyNetwork) (T : ntk.TopoView) (pre outs : List ℕ) (cv : Canvas)
    (node2pos : ℕ → Tile) : Prop :=
  ∀ t, IsEnd cv t ↔ ∃ m, Waits ntk T pre outs m ∧ node2pos m = t

section Terminated

variable {ntk : TechnologyNetwork} {T : ntk.TopoView} {pi2node : ℕ → ℕ}
  {pre taken outs moved : List ℕ} {cv cv' : Canvas} {node2pos : ℕ → Tile} {pos ss : List Tile}
  {D : ClockedLayout} {d : Drawing} {n : ℕ} {s t : Tile}

/-- The end is at `t` afterwards, and not at the tiles `ss`. -/
theorem Links.isEnd_iff (h : Links ss t cv cv') (hext : Extends moved pos cv cv')
    (hs : Shows D d cv) (ht : t ∉ cv.used) (hmem : t ∈ cv'.used) (hpos : ∀ o ∈ pos, o = t) :
    IsEnd cv' s ↔ s = t ∧ t ∉ pos ∨ IsEnd cv s ∧ s ∉ ss := by
  have hout : ∀ u, u ∈ cv'.layout.outputs ↔ u ∈ cv.layout.outputs ∨ u ∈ pos := by
    intro u
    rw [hext.outputs, List.mem_append]
  simp only [IsEnd, h.isRead_iff, hout]
  constructor
  · rintro ⟨hused, hread, hno⟩
    rw [not_or] at hread hno
    by_cases heq : s = t
    · exact .inl ⟨heq, heq ▸ hno.2⟩
    · have hnot : ¬ (s ∈ ss ∨ s ∈ cv'.used ∧ s ∉ cv.used) := fun hall => hread.2 ⟨heq, hall⟩
      rw [not_or] at hnot
      exact .inr ⟨⟨not_not.mp fun hold => hnot.2 ⟨hused, hold⟩, hread.1, hno.1⟩, hnot.1⟩
  · rintro (⟨rfl, hp⟩ | ⟨⟨hused, hread, hno⟩, hnot⟩)
    · refine ⟨hmem, ?_, ?_⟩
      · rintro (⟨r, hr, hread⟩ | ⟨hne, -⟩)
        · exact ht (hs.mem_of_mem_reads hr hread)
        · exact hne rfl
      · rintro (ho | ho)
        · exact ht (hs.outputs s ho)
        · exact hp ho
    · refine ⟨hext.mem s hused, ?_, ?_⟩
      · rintro (hr | ⟨-, hmem' | ⟨-, hnew⟩⟩)
        · exact hread hr
        · exact hnot hmem'
        · exact hnew hused
      · rintro (ho | ho)
        · exact hno ho
        · exact ht (hpos s ho ▸ hused)

theorem Terminated.place (h : Terminated ntk T pre outs cv node2pos)
    (hrep : Represents ntk T pi2node pre taken outs cv node2pos) (hs : Shows D d cv)
    (hext : Extends moved [] cv cv') (hlinks : Links ss t cv cv') (ht : t ∉ cv.used)
    (hmem : t ∈ cv'.used) (hn : n ∉ pre) (hc : isConstant n = false)
    (hchildren : n ∈ T.gates → ∀ c ∈ (ntk.node n).children, c ∈ pre)
    (hss : ∀ s, s ∈ ss ↔ n ∈ T.gates ∧
      s ∈ ((ntk.node n).children.filter (!isConstant ·)).map node2pos) :
    Terminated ntk T (pre ++ [n]) outs cv' (Function.update node2pos n t) := by
  have hself : Waits ntk T (pre ++ [n]) outs n := by
    refine ⟨List.mem_append_right _ (List.mem_singleton_self n), hc,
      fun ho => hn (hrep.outs_mem n ho), fun k hk hgate hchild => ?_⟩
    rcases List.mem_append.mp hk with hk | hk
    · exact hn (hrep.deps k hk hgate n hchild)
    · obtain rfl := List.mem_singleton.mp hk
      exact hn (hchildren hgate k hchild)
  have hwaits : ∀ m, m ≠ n → (Waits ntk T (pre ++ [n]) outs m ↔
      Waits ntk T pre outs m ∧ node2pos m ∉ ss) := by
    intro m hne
    constructor
    · intro hw
      have hm : m ∈ pre := (List.mem_append.mp hw.mem).resolve_right fun he =>
        hne (List.mem_singleton.mp he)
      refine ⟨⟨hm, hw.not_constant, hw.no_output, fun k hk =>
        hw.no_reader k (List.mem_append_left _ hk)⟩, fun hin => ?_⟩
      obtain ⟨hgate, hin⟩ := (hss _).mp hin
      obtain ⟨c, hcmem, he⟩ := List.mem_map.mp hin
      obtain ⟨hchild, hcc⟩ := List.mem_filter.mp hcmem
      obtain rfl := hrep.inj c (hchildren hgate c hchild) m hm (by simpa using hcc)
        hw.not_constant he
      exact hw.no_reader n (List.mem_append_right _ (List.mem_singleton_self n)) hgate hchild
    · rintro ⟨hw, hnot⟩
      refine ⟨List.mem_append_left _ hw.mem, hw.not_constant, hw.no_output,
        fun k hk hgate hchild => ?_⟩
      rcases List.mem_append.mp hk with hk | hk
      · exact hw.no_reader k hk hgate hchild
      · obtain rfl := List.mem_singleton.mp hk
        refine hnot ((hss _).mpr ⟨hgate, List.mem_map_of_mem (List.mem_filter.mpr ⟨hchild, ?_⟩)⟩)
        rw [hw.not_constant]
        rfl
  intro s
  rw [hlinks.isEnd_iff hext hs ht hmem fun o ho => absurd ho List.not_mem_nil, h s]
  constructor
  · rintro (⟨rfl, -⟩ | ⟨⟨m, hw, rfl⟩, hnot⟩)
    · exact ⟨n, hself, Function.update_self ..⟩
    · have hne : m ≠ n := by
        rintro rfl
        exact hn hw.mem
      exact ⟨m, (hwaits m hne).mpr ⟨hw, hnot⟩, Function.update_of_ne hne ..⟩
  · rintro ⟨m, hw, rfl⟩
    by_cases hne : m = n
    · left
      rw [hne, Function.update_self]
      exact ⟨rfl, List.not_mem_nil⟩
    · rw [Function.update_of_ne hne]
      obtain ⟨hw', hnot⟩ := (hwaits m hne).mp hw
      exact .inr ⟨⟨m, hw', rfl⟩, hnot⟩

theorem Terminated.output (h : Terminated ntk T pre outs cv node2pos)
    (hrep : Represents ntk T pi2node pre taken outs cv node2pos) (hs : Shows D d cv)
    (hext : Extends [] [t] cv cv') (hlinks : Links [node2pos n] t cv cv') (ht : t ∉ cv.used)
    (hmem : t ∈ cv'.used) (hn : n ∈ pre) (hc : isConstant n = false) :
    Terminated ntk T pre (outs ++ [n]) cv' node2pos := by
  intro s
  rw [hlinks.isEnd_iff hext hs ht hmem fun o ho => List.mem_singleton.mp ho, h s]
  constructor
  · rintro (⟨-, hnot⟩ | ⟨⟨m, hw, rfl⟩, hnot⟩)
    · exact absurd (List.mem_singleton_self t) hnot
    · refine ⟨m, ⟨hw.mem, hw.not_constant, fun ho => ?_, hw.no_reader⟩, rfl⟩
      rcases List.mem_append.mp ho with ho | ho
      · exact hw.no_output ho
      · rw [List.mem_singleton.mp ho] at hnot
        exact hnot (List.mem_singleton_self _)
  · rintro ⟨m, hw, rfl⟩
    refine .inr ⟨⟨m, ⟨hw.mem, hw.not_constant, fun ho => hw.no_output (List.mem_append_left _ ho),
      hw.no_reader⟩, rfl⟩, fun he => ?_⟩
    obtain rfl := hrep.inj m hw.mem n hn hw.not_constant hc (List.mem_singleton.mp he)
    exact hw.no_output (List.mem_append_right _ (List.mem_singleton_self m))

theorem Terminated.skip (h : Terminated ntk T pre outs cv node2pos) (hc : isConstant n = true)
    (hn : n ∉ T.gates) : Terminated ntk T (pre ++ [n]) outs cv node2pos := by
  intro s
  rw [h s]
  constructor
  · rintro ⟨m, hw, rfl⟩
    refine ⟨m, ⟨List.mem_append_left _ hw.mem, hw.not_constant, hw.no_output,
      fun k hk hgate => ?_⟩, rfl⟩
    rcases List.mem_append.mp hk with hk | hk
    · exact hw.no_reader k hk hgate
    · rw [List.mem_singleton.mp hk] at hgate
      exact absurd hgate hn
  · rintro ⟨m, hw, rfl⟩
    refine ⟨m, ⟨?_, hw.not_constant, hw.no_output,
      fun k hk => hw.no_reader k (List.mem_append_left _ hk)⟩, rfl⟩
    apply (List.mem_append.mp hw.mem).resolve_right
    intro he
    have hm := hw.not_constant
    rw [List.mem_singleton.mp he, hc] at hm
    cases hm

end Terminated

end Fiction.Orthogonal
