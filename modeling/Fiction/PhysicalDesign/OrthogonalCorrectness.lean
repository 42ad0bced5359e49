import Fiction.PhysicalDesign.OrthogonalFunction

/-!
# Correctness of the orthogonal placement

`orthogonal` places networks whose fan-outs have been substituted. If all gates are coloured and no
driver of an output in the east has a fan-out in the east, then the placement never uses a tile
twice, and the layout computes what the network computes.
-/

namespace Fiction.Orthogonal

open TechnologyNetwork Propagation

variable {ntk : TechnologyNetwork} {V : FanoutView ntk} {T : ntk.TopoView}
  {ctn : ColoringContainer} {n : ℕ}

/-- A combinational network that passes `is_fanout_substituted`, whose gates can be placed and are
needed for some output. -/
structure Orderly (ntk : TechnologyNetwork) (T : ntk.TopoView) : Prop where
  inputs_nodup : ntk.inputs.Nodup
  input : ∀ n ∈ ntk.inputs, 2 ≤ n ∧ n < ntk.size
  numPis : ntk.numPis = ntk.inputs.length
  numPis_pos : 0 < ntk.numPis
  size : 2 * (nodes ntk T).length < 2 ^ 31
  substituted : FanoutSubstitution.isFanoutSubstituted ntk {} = true
  cone : ∀ n, ntk.IsGate n → InPoCone ntk n
  supported : ∀ n ∈ T.gates, Supported ntk n

/-- No gate is without a colour, and no output gets in the way of an edge. -/
structure PortsAgree (V : FanoutView ntk) (T : ntk.TopoView) (ctn : ColoringContainer) : Prop where
  colored : ∀ n ∈ T.gates, (ctn.color n).isSome
  output : ∀ n ∈ T.gates, ntk.isPo n = true → ctn.color n = some .east →
    ∀ m ∈ V.fanouts n, ctn.color m ≠ some .east

section Colors

theorem sharedColor_eq {s : Edge → Option Color} {c : Color} (h : sharedColor ntk s n = some c) :
    ∀ fe ∈ faninEdges ntk n, s fe = some c := by
  intro fe hfe
  rw [sharedColor] at h
  split_ifs at h with heast hsouth
  · obtain rfl := Option.some.inj h
    exact of_decide_eq_true (List.all_eq_true.mp heast fe hfe)
  · obtain rfl := Option.some.inj h
    exact of_decide_eq_true (List.all_eq_true.mp hsouth fe hfe)

theorem colored_of_coloring {fuel : ℕ} (h : eastSouthEdgeColoring ntk V T fuel = some ctn) :
    Colored ntk T.gates.reverse ctn := by
  obtain ⟨ctn', hrun, hcolored⟩ := exists_coloring V T
  have hmore := hrun (max fuel ((edges ntk).card + 1))
    ((Nat.lt_succ_self _).trans_le (le_max_right _ _))
  have hsame : eastSouthEdgeColoring ntk V T (max fuel ((edges ntk).card + 1)) = some ctn :=
    foldlM_mono (fun _ _ _ => colorGate_mono (le_max_left _ _)) h
  rw [hmore] at hsame
  obtain rfl := Option.some.inj hsame
  exact hcolored

theorem oppositeColor_ne (c : Color) : oppositeColor c ≠ c := by
  cases c <;> decide

end Colors

section Fanouts

theorem length_fanouts_add_le (V : FanoutView ntk) (n : ℕ) :
    (V.fanouts n).length + (if ntk.isPo n then 1 else 0) ≤ ntk.fanoutSize n := by
  let V' : FanoutView { ntk with outputs := [] } := ⟨V.fanouts, V.nodup, V.mem_fanouts⟩
  have huses : (V.fanouts n).length ≤
      (ntk.nodes.map fun data => data.children.countP fun c => c = n).sum + 0 :=
    length_fanouts_le V' n
  have hout : (if ntk.isPo n then 1 else 0) ≤ ntk.outputs.countP fun c => c = n := by
    split_ifs with hpo
    · rw [isPo, List.contains_iff_mem] at hpo
      exact List.countP_pos_iff.mpr ⟨n, List.mem_of_mem_take hpo, decide_eq_true rfl⟩
    · exact Nat.zero_le _
  rw [fanoutSize, numUses]
  omega

theorem Orderly.fanoutSize_le (h : Orderly ntk T) (htwo : 2 ≤ n) (hn : n < ntk.size) :
    ntk.fanoutSize n ≤ if ntk.isBuf n then 2 else 1 := by
  have hall := List.all_eq_true.mp h.substituted n (List.mem_range.mpr hn)
  exact (FanoutSubstitution.isNodeSubstituted_iff (by decide) (by decide) htwo).mp hall

theorem Orderly.mem_gates_of_fanout (h : Orderly ntk T) {m : ℕ} (hm : m ∈ V.fanouts n) :
    m ∈ T.gates := by
  obtain ⟨hgate, -⟩ := (V.mem_fanouts n m).mp hm
  rcases (h.cone m hgate).mem_gates with hsource | hmem
  · exact absurd hsource hgate.2
  · exact hmem

theorem Orderly.lt_size_of_fanout (h : Orderly ntk T) {m : ℕ} (hc : isConstant n = false)
    (hm : m ∈ V.fanouts n) : n < ntk.size := by
  obtain ⟨-, hchild⟩ := (V.mem_fanouts n m).mp hm
  rcases T.sorted.deps (h.mem_gates_of_fanout hm) hchild with hsource | hn
  · have hnot : ¬ n ≤ 1 := of_decide_eq_false hc
    exact (h.input n (hsource.resolve_left hnot)).2
  · exact T.gates_lt n hn

theorem Orderly.length_fanouts_le_two (h : Orderly ntk T) (hc : isConstant n = false) :
    (V.fanouts n).length ≤ 2 := by
  cases hf : V.fanouts n with
  | nil => exact Nat.zero_le 2
  | cons m ms =>
    have hlt : n < ntk.size := h.lt_size_of_fanout hc (by rw [hf]; exact List.mem_cons_self)
    have htwo : 2 ≤ n := not_le.mp (of_decide_eq_false hc)
    have hsize := h.fanoutSize_le htwo hlt
    have hle := length_fanouts_add_le V n
    rw [hf] at hle
    split_ifs at hsize <;> omega

end Fanouts

theorem Orderly.drawable (h : Orderly ntk T) {fuel : ℕ}
    (hcoloring : eastSouthEdgeColoring ntk V T fuel = some ctn) (hports : PortsAgree V T ctn) :
    Drawable V T ctn := by
  have hcolored := colored_of_coloring hcoloring
  have hin : ∀ n ∈ ntk.inputs, ntk.isBuf n = false := by
    intro n hn
    have hci : ntk.isCi n = true := List.contains_iff_mem.mpr hn
    rw [isBuf, hci, decide_eq_false_iff_not]
    exact fun hbuf => hbuf.2 rfl
  constructor
  case inputs_nodup => exact h.inputs_nodup
  case two_le => exact fun n hn => (h.input n hn).1
  case numPis => exact h.numPis
  case numPis_pos => exact h.numPis_pos
  case size => exact h.size
  case input_fanout =>
    intro n hn
    obtain ⟨htwo, hlt⟩ := h.input n hn
    have hsize := h.fanoutSize_le htwo hlt
    rw [hin n hn, if_neg Bool.false_ne_true] at hsize
    exact (length_fanouts_add_le V n).trans hsize
  case output_fanout =>
    intro n hn hpo
    have htwo : 2 ≤ n := not_le.mp fun hle => not_source_of_mem hn (.inl hle)
    have hsize := h.fanoutSize_le htwo (T.gates_lt n hn)
    have hle := length_fanouts_add_le V n
    rw [hpo, if_pos rfl] at hle
    split_ifs at hsize <;> omega
  case supported => exact h.supported
  case cone => exact h.cone
  case colored => exact hports.colored
  case siblings =>
    intro n hc m hm m' hm' hne heq
    have hfanouts : AtMostTwoFanouts V := fun n hc =>
      (List.toFinset_card_le _).trans (h.length_fanouts_le_two hc)
    have hedge : ∀ k ∈ V.fanouts n, ∀ c, ctn.color k = some c → ctn.edgeColor ⟨n, k⟩ = some c := by
      intro k hk c hkc
      obtain ⟨-, hchild⟩ := (V.mem_fanouts n k).mp hk
      rw [hcolored.color k (List.mem_reverse.mpr (h.mem_gates_of_fanout hk))] at hkc
      exact sharedColor_eq hkc _ (mem_faninEdges.mpr ⟨rfl, hchild, hc⟩)
    obtain ⟨c, hmc⟩ := Option.isSome_iff_exists.mp (hports.colored m (h.mem_gates_of_fanout hm))
    have hopposite := settled_coloring hfanouts hcoloring ⟨n, m⟩ ⟨n, m'⟩ ⟨hc, rfl, hne, hm, hm'⟩ c
      (hedge m hm c hmc)
    rw [hedge m' hm' c (heq ▸ hmc)] at hopposite
    exact oppositeColor_ne c (Option.some.inj hopposite).symm
  case output_color => exact hports.output

section HalfAdder

/-- A half adder that reads its inputs through fan-out nodes. -/
def halfAdder : TechnologyNetwork :=
  let (ntk, a) := empty.createPi
  let (ntk, b) := ntk.createPi
  let (ntk, f) := ntk.createBuf a
  let (ntk, g) := ntk.createBuf b
  let (ntk, x) := ntk.createXor f g
  let (ntk, y) := ntk.createAnd f g
  (ntk.createPo x).createPo y

def halfAdderView : halfAdder.TopoView := creationView (by decide) (by decide)

theorem halfAdder_orderly : Orderly halfAdder halfAdderView where
  inputs_nodup := by decide
  input := by decide
  numPis := rfl
  numPis_pos := by decide
  size := by decide
  substituted := by decide
  cone n hn := by
    have hx : InPoCone halfAdder 6 := .po (by decide)
    have hy : InPoCone halfAdder 7 := .po (by decide)
    have h : ∀ m < 8, halfAdder.IsGate m → m = 4 ∨ m = 5 ∨ m = 6 ∨ m = 7 := by decide
    rcases h n hn.1 hn with rfl | rfl | rfl | rfl
    · exact .fanin hx (by decide) (by decide)
    · exact .fanin hx (by decide) (by decide)
    · exact hx
    · exact hy
  supported n hn := by
    have h : ∀ m ∈ halfAdderView.gates, m = 4 ∨ m = 5 ∨ m = 6 ∨ m = 7 := by decide
    rcases h n hn with rfl | rfl | rfl | rfl
    · exact .unary rfl (by decide) (by decide)
    · exact .unary rfl (by decide) (by decide)
    · exact .binary rfl (by decide) (by decide) (by decide) (by decide) (by decide)
    · exact .binary rfl (by decide) (by decide) (by decide) (by decide) (by decide)

theorem halfAdder_colored :
    ∃ ctn, eastSouthEdgeColoring halfAdder halfAdder.fanoutView halfAdderView 10 = some ctn ∧
      PortsAgree halfAdder.fanoutView halfAdderView ctn := by
  have hcolors : (eastSouthEdgeColoring halfAdder halfAdder.fanoutView halfAdderView 10).map
      (fun ctn => decide (∀ n ∈ halfAdderView.gates, (ctn.color n).isSome)) = some true := by
    decide +kernel
  obtain ⟨ctn, hctn, hgates⟩ := Option.map_eq_some_iff.mp hcolors
  refine ⟨ctn, hctn, of_decide_eq_true hgates, fun n hn hpo _ m hm => ?_⟩
  have hnone : ∀ n ∈ halfAdderView.gates, halfAdder.isPo n = true →
      halfAdder.fanoutView.fanouts n = [] := by decide
  rw [hnone n hn hpo] at hm
  exact absurd hm List.not_mem_nil

end HalfAdder

section Results

variable {fuel : ℕ} {clks : NumClks} {arrangement : Arrangement} {st : PlacementState}

/-- The state after the run. No tile lies outside the computed size. -/
structure Completed (V : FanoutView ntk) (T : ntk.TopoView) (ctn : ColoringContainer)
    (clks : NumClks) (arrangement : Arrangement) (st : PlacementState) : Prop where
  drawable : Drawable V T ctn
  underway : Underway V T ctn (clockedLayout ntk V T ctn clks arrangement)
    (reserveInputNodes ntk (.empty (clockedLayout ntk V T ctn clks arrangement) "")).2
    (nodes ntk T) st
  inside : ∀ t ∈ st.canvas.used, (clockedLayout ntk V T ctn clks arrangement).Inside t

theorem Orderly.exists_completed (h : Orderly ntk T)
    (hcoloring : eastSouthEdgeColoring ntk V T fuel = some ctn) (hports : PortsAgree V T ctn)
    (eastFirst : Bool) (clks : NumClks) (arrangement : Arrangement) :
    ∃ st, run ntk V T ctn eastFirst clks arrangement = some st ∧
      Completed V T ctn clks arrangement st := by
  have hdraw := h.drawable hcoloring hports
  obtain ⟨st, hrun, hst⟩ := hdraw.exists_run eastFirst clks arrangement
  have hpis : ∀ n ∈ ntk.foreachPi, (V.fanouts n).length ≤ 1 := fun n hn => by
    have := hdraw.input_fanout n (List.mem_of_mem_take hn)
    omega
  obtain ⟨st', hrun', hagrees⟩ := (agrees_iff hdraw.inputs_nodup hdraw.two_le h.numPis.le hpis
    (colored_of_coloring hcoloring) h.size eastFirst clks arrangement).mpr
      ⟨h.numPis_pos, isPlaceable_of_run hdraw.two_le hrun⟩
  rw [hrun] at hrun'
  obtain rfl := Option.some.inj hrun'
  exact ⟨st, hrun, hdraw, hst, hagrees.inside⟩

theorem Completed.withoutOverlap (h : Completed V T ctn clks arrangement st) :
    WithoutOverlap (clockedLayout ntk V T ctn clks arrangement) st.canvas := by
  obtain ⟨p, hp, -, -⟩ := h.underway.exists_plan
  exact hp.depicts.shown.withoutOverlap h.inside

theorem Completed.implements (h : Completed V T ctn clks .cartesian st) :
    Implements ntk T st.canvas.layout :=
  h.underway.implements h.drawable (h.drawable.injectiveOn_reserveInputNodes _)
    h.inside rfl rfl

/-- The placement succeeds and no tile is used twice. -/
theorem run_withoutOverlap (h : Orderly ntk T)
    (hcoloring : eastSouthEdgeColoring ntk V T fuel = some ctn) (hports : PortsAgree V T ctn)
    (eastFirst : Bool) (clks : NumClks) (arrangement : Arrangement) :
    ∃ st, run ntk V T ctn eastFirst clks arrangement = some st ∧
      WithoutOverlap (clockedLayout ntk V T ctn clks arrangement) st.canvas := by
  obtain ⟨st, hrun, hst⟩ := h.exists_completed hcoloring hports eastFirst clks arrangement
  exact ⟨st, hrun, hst.withoutOverlap⟩

theorem run_withoutOverlap_halfAdder :
    ∃ ctn, eastSouthEdgeColoring halfAdder halfAdder.fanoutView halfAdderView 10 = some ctn ∧
      ∃ st, run halfAdder halfAdder.fanoutView halfAdderView ctn true .four .cartesian = some st ∧
        WithoutOverlap
          (clockedLayout halfAdder halfAdder.fanoutView halfAdderView ctn .four .cartesian)
          st.canvas := by
  obtain ⟨ctn, hcoloring, hports⟩ := halfAdder_colored
  exact ⟨ctn, hcoloring, run_withoutOverlap halfAdder_orderly hcoloring hports true .four .cartesian⟩

/-- The layout computes the outputs of the network. -/
theorem run_implements (h : Orderly ntk T)
    (hcoloring : eastSouthEdgeColoring ntk V T fuel = some ctn) (hports : PortsAgree V T ctn)
    (eastFirst : Bool) (clks : NumClks) :
    ∃ st, run ntk V T ctn eastFirst clks .cartesian = some st ∧
      Implements ntk T st.canvas.layout := by
  obtain ⟨st, hrun, hst⟩ := h.exists_completed hcoloring hports eastFirst clks .cartesian
  exact ⟨st, hrun, hst.implements⟩

theorem run_implements_halfAdder :
    ∃ ctn, eastSouthEdgeColoring halfAdder halfAdder.fanoutView halfAdderView 10 = some ctn ∧
      ∃ st, run halfAdder halfAdder.fanoutView halfAdderView ctn true .four .cartesian = some st ∧
        Implements halfAdder halfAdderView st.canvas.layout := by
  obtain ⟨ctn, hcoloring, hports⟩ := halfAdder_colored
  exact ⟨ctn, hcoloring, run_implements halfAdder_orderly hcoloring hports true .four⟩

end Results

end Fiction.Orthogonal
