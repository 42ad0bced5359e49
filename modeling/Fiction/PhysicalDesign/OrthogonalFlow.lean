import Fiction.PhysicalDesign.OrthogonalDesignRules
import Fiction.NetworkTransformation.FanoutUses

/-!
# The orthogonal design flow

`orthogonal` substitutes the fan-outs of the network before it places the result. A combinational
network whose gates are used and can be placed is turned into one that meets the requirements of the
placement, so that the layout computes the outputs of the original network.
-/

namespace Fiction.Orthogonal

open TechnologyNetwork FanoutSubstitution

section Cones

variable {ntk : TechnologyNetwork} {n : ℕ}

/-- If no gate is without uses, then all gates are needed for some output. -/
theorem inPoCone_of_fanoutSize_pos (hchild : ∀ m < ntk.size, ∀ c ∈ (ntk.node m).children, c < m)
    (hsource : ∀ m, ntk.IsSource m → (ntk.node m).children = [])
    (hnum : ntk.numPos = ntk.outputs.length)
    (hpos : ∀ m, ntk.IsGate m → 0 < ntk.fanoutSize m) (hn : ntk.IsGate n) : InPoCone ntk n := by
  induction hk : ntk.size - n using Nat.strong_induction_on generalizing n with
  | _ k ih =>
    rcases fanoutSize_pos_iff.mp (hpos n hn) with ho | ⟨m, hm, hc⟩
    · apply InPoCone.po
      rwa [foreachPo, hnum, List.take_length]
    · have hs : ¬ ntk.IsSource m := by
        intro hs
        rw [hsource m hs] at hc
        cases hc
      have hlt := hchild m hm n hc
      exact .fanin (ih _ (by omega) ⟨hm, hs⟩ rfl) hs hc

theorem InPoCone.fanoutSize_pos (h : InPoCone ntk n) (T : ntk.TopoView) : 0 < ntk.fanoutSize n := by
  rw [fanoutSize_pos_iff]
  cases h with
  | po ho => exact .inl (List.mem_of_mem_take ho)
  | fanin hm hs hc => exact .inr ⟨_, T.gates_lt _ (hm.mem_gates.resolve_left hs), hc⟩

theorem Supported.nodup_children (h : Supported ntk n) : (ntk.node n).children.Nodup := by
  have hne : ∀ {a b : ℕ}, isConstant a = true → isConstant b = false → a ≠ b := by
    rintro a b ha hb rfl
    exact Bool.noConfusion (ha.symm.trans hb)
  cases h with
  | unary hc _ _ =>
    rw [hc]
    exact List.nodup_singleton _
  | binary hc _ _ hab _ _ =>
    rw [hc]
    simpa using hab
  | maj hc hk ha hb hab _ =>
    have hka := hne hk ha
    have hkb := hne hk hb
    rcases hc with hc | hc | hc
    · simp [hc, hka, hkb, hab]
    · simp [hc, hka.symm, hkb, hab]
    · simp [hc, hka.symm, hkb.symm, hab]

end Cones

/-- A combinational network without dangling gates whose gates can be placed. -/
structure Suitable (src : TechnologyNetwork) (S : src.TopoView) : Prop where
  wellFormed : src.WellFormed
  numPis : src.numPis = src.inputs.length
  numPis_pos : 0 < src.numPis
  numPos : src.numPos = src.outputs.length
  source : ∀ n, src.IsSource n → (src.node n).children = []
  cone : ∀ n, src.IsGate n → InPoCone src n
  supported : ∀ n ∈ S.gates, Supported src n

section Copies

variable {src : TechnologyNetwork} {S : src.TopoView} {s : State} {g : Ghost} {n m : ℕ}

theorem Suitable.numUses (h : Suitable src S) (n : ℕ) :
    (usesOf (useGroups src S.gates) n).sum = src.fanoutSize n := by
  apply sum_usesOf_useGroups_eq S.sorted.nodup S.gates_lt
  intro m hm hmg
  apply h.source
  by_contra hs
  exact hmg ((h.cone m ⟨hm, hs⟩).mem_gates.resolve_left hs)

theorem Suitable.balanced (h : Suitable src S) (n : ℕ) : Balanced src {} S.gates n :=
  balanced_of_simple h.wellFormed (by decide) (by decide) S.sorted.nodup S.gates_lt
    (fun m hm => List.nodup_iff_count_le_one.mp (h.supported m hm).nodup_children n)
    fun _ => .inl (by decide)

/-- The state after the run on a suitable network. -/
structure Copied (src : TechnologyNetwork) (S : src.TopoView) (s : State) (g : Ghost) : Prop where
  invariant : Invariant src {} S.gates (src.inputs ++ S.gates) src.outputs s g
  trees : ∀ n ∈ src.inputs ++ S.gates, g.trees n = treeSize src {} n
  uses : ∀ n, g.uses n = usesOf (useGroups src S.gates) n

theorem Copied.isConstant_owner (h : Copied src S s g) (hm : m < s.substituted.size) :
    isConstant (g.owner m) = isConstant m := by
  by_cases hle : m ≤ 1
  · rw [h.invariant.copy.constant m hle]
  · have hplaced := (h.invariant.member m hm (by omega)).1
    have htwo := h.invariant.two_le_placed _ hplaced
    rw [isConstant, isConstant, decide_eq_false hle, decide_eq_false (by omega)]

theorem Copied.checked (h : Copied src S s g) (hS : Suitable src S)
    (hn : n ∈ src.inputs ++ S.gates) :
    ∀ m ∈ family s g n, isNodeSubstituted s.substituted {} m = true := by
  obtain ⟨hs, hdist, hl⟩ := (h.invariant.served n hn).loaded
  rw [(h.invariant.served n hn).check_iff (by decide) (by decide)
    (fun m => h.invariant.two_le_of_mem_family hn) hdist hl]
  rw [h.trees n hn, h.uses n] at hdist
  exact (withinLimits_holders_iff (by decide) hdist).mpr (hS.balanced n)

theorem Copied.fanoutSize_pos (h : Copied src S s g) (hS : Suitable src S)
    (hn : n ∈ src.inputs ++ S.gates) (hpos : 0 < src.fanoutSize n) :
    ∀ m ∈ family s g n, 0 < s.substituted.fanoutSize m := by
  apply (h.invariant.served n hn).fanoutSize_pos (hS.wellFormed.fanoutSize_lt n) (h.trees n hn)
  · rw [h.uses n, hS.numUses n]
  · exact h.checked hS hn
  · exact fun m => h.invariant.two_le_of_mem_family hn
  · exact hpos

/-- An input is used if and only if its copy is. -/
theorem Copied.fanoutSize_root_pos_iff (h : Copied src S s g) (hS : Suitable src S)
    (hn : n ∈ src.inputs) :
    0 < s.substituted.fanoutSize (s.old2new n) ↔ 0 < src.fanoutSize n := by
  have hplaced : n ∈ src.inputs ++ S.gates := List.mem_append_left _ hn
  constructor
  · intro hpos
    rw [Nat.pos_iff_ne_zero] at hpos ⊢
    intro hzero
    apply hpos
    apply (h.invariant.served n hplaced).fanoutSize_root_eq_zero (h.trees n hplaced)
    · rw [h.uses n, hS.numUses n]
    · exact hzero
  · intro hpos
    exact h.fanoutSize_pos hS hplaced hpos _ List.mem_cons_self

/-- The substitution leaves no gate without uses. -/
theorem Copied.gate_fanoutSize_pos (h : Copied src S s g) (hS : Suitable src S)
    (hm : s.substituted.IsGate m) : 0 < s.substituted.fanoutSize m := by
  obtain ⟨hlt, hs⟩ := hm
  have htwo : 2 ≤ m := not_le.mp fun hle => hs (.inl hle)
  obtain ⟨hplaced, hmem⟩ := h.invariant.member m hlt htwo
  apply h.fanoutSize_pos hS hplaced _ m hmem
  rcases List.mem_append.mp hplaced with hin | hgate
  · rcases List.mem_cons.mp hmem with hroot | htree
    · apply absurd _ hs
      right
      rw [h.invariant.inputs, hroot]
      exact List.mem_map_of_mem hin
    · have htrees : 0 < g.trees (g.owner m) := by
        rw [treeBuffers, List.mem_range'_1] at htree
        omega
      rw [h.trees _ hplaced, treeSize] at htrees
      split_ifs at htrees
      · exact absurd htrees (lt_irrefl 0)
      · rw [numFanouts_default (hS.wellFormed.fanoutSize_lt _)] at htrees
        omega
  · exact (hS.cone _ ⟨S.gates_lt _ hgate, S.sorted.not_known _ hgate⟩).fanoutSize_pos S

theorem Copied.isConstant_child (h : Copied src S s g) (hlt : m < s.substituted.size) {c : ℕ}
    (hc : c ∈ (s.substituted.node m).children) : isConstant (g.owner c) = isConstant c :=
  h.isConstant_owner ((h.invariant.copy.child_lt m hlt c hc).trans hlt)

theorem Copied.supported (h : Copied src S s g) (hS : Suitable src S)
    (hm : s.substituted.IsGate m) : Supported s.substituted m := by
  obtain ⟨hlt, hs⟩ := hm
  have hci : s.substituted.isCi m = false := by
    rw [isCi, List.contains_eq_mem, decide_eq_false_iff_not]
    exact fun hin => hs (.inr hin)
  have hchild := fun c => @Copied.isConstant_child _ _ _ _ m h hlt c
  cases h.invariant.shape m hlt hs with
  | @buffer c hnode howner =>
    have hc : c ∈ (s.substituted.node m).children := by
      rw [hnode]
      exact List.mem_singleton_self c
    apply Supported.unary (m := c)
    · rw [hnode]
    · rw [← hchild c hc, howner, h.isConstant_owner hlt]
      exact decide_eq_false fun hle => hs (.inl hle)
    · right
      rw [isBuf, hnode, hci]
      rfl
  | gate hmem hfunction hmap =>
    have hcopy : ∀ {l : List ℕ}, (s.substituted.node m).children = l →
        ∀ c ∈ l, isConstant (g.owner c) = isConstant c := by
      rintro _ rfl c hc
      exact hchild c hc
    have hnot : src.isCi (g.owner m) = false := by
      rw [isCi, List.contains_eq_mem, decide_eq_false_iff_not]
      exact fun hin => S.sorted.not_known _ hmem (.inr hin)
    cases hS.supported _ hmem with
    | @unary a hchildren ha hfun =>
      rw [hchildren, List.map_eq_singleton_iff] at hmap
      obtain ⟨a', hl, rfl⟩ := hmap
      have hk := hcopy hl
      apply Supported.unary hl
      · rw [← hk a' (by simp), ha]
      · rwa [isInv, isBuf, hfunction, hci, ← hnot]
    | @binary a b hchildren ha hb hab hmaj hsymm =>
      rw [hchildren] at hmap
      obtain ⟨a', b', hl, rfl, rfl⟩ : ∃ a' b', (s.substituted.node m).children = [a', b'] ∧
          g.owner a' = a ∧ g.owner b' = b := by
        simpa [List.map_eq_cons_iff] using hmap
      have hk := hcopy hl
      apply Supported.binary hl
      · rw [← hk a' (by simp), ha]
      · rw [← hk b' (by simp), hb]
      · exact fun heq => hab (congrArg g.owner heq)
      · rwa [isMaj, hfunction]
      · rwa [hfunction]
    | @maj k a b hchildren hk ha hb hab hmaj =>
      have hkeep : ∀ x y z, (src.node (g.owner m)).children = [x, y, z] →
          ∃ x' y' z', (s.substituted.node m).children = [x', y', z'] ∧ g.owner x' = x ∧
            g.owner y' = y ∧ g.owner z' = z := by
        intro x y z hxyz
        rw [hxyz] at hmap
        simpa [List.map_eq_cons_iff] using hmap
      have hmajority : s.substituted.isMaj m = true := by rwa [isMaj, hfunction]
      rcases hchildren with hc | hc | hc
      · obtain ⟨k', a', b', hl, rfl, rfl, rfl⟩ := hkeep _ _ _ hc
        have hk' := hcopy hl
        exact .maj (.inl hl) (hk' k' (by simp) ▸ hk) (hk' a' (by simp) ▸ ha)
          (hk' b' (by simp) ▸ hb) (fun heq => hab (congrArg g.owner heq)) hmajority
      · obtain ⟨a', k', b', hl, rfl, rfl, rfl⟩ := hkeep _ _ _ hc
        have hk' := hcopy hl
        exact .maj (.inr (.inl hl)) (hk' k' (by simp) ▸ hk) (hk' a' (by simp) ▸ ha)
          (hk' b' (by simp) ▸ hb) (fun heq => hab (congrArg g.owner heq)) hmajority
      · obtain ⟨a', b', k', hl, rfl, rfl, rfl⟩ := hkeep _ _ _ hc
        have hk' := hcopy hl
        exact .maj (.inr (.inr hl)) (hk' k' (by simp) ▸ hk) (hk' a' (by simp) ▸ ha)
          (hk' b' (by simp) ▸ hb) (fun heq => hab (congrArg g.owner heq)) hmajority

theorem Copied.orderly (h : Copied src S s g) (hS : Suitable src S) (T : s.substituted.TopoView)
    (hsize : 2 * (nodes s.substituted T).length < 2 ^ 31) : Orderly s.substituted T := by
  have hcopy := h.invariant.copy
  have hinputs : s.substituted.inputs.length = src.inputs.length := by
    rw [← hcopy.inputs, List.length_map]
  have hnum : s.substituted.numPos = s.substituted.outputs.length := by
    rw [h.invariant.numPos, hS.numPos, min_self, ← h.invariant.outputs, List.length_map]
  constructor
  case inputs_nodup => exact List.Nodup.of_map g.owner (hcopy.inputs ▸ hS.wellFormed.inputs_nodup)
  case input => exact hcopy.input_bounds
  case numPis => rw [hcopy.numPis, hS.numPis, hinputs]
  case numPis_pos =>
    rw [hcopy.numPis]
    exact hS.numPis_pos
  case size => exact hsize
  case substituted =>
    rw [h.invariant.isFanoutSubstituted_iff]
    intro n hn
    exact h.checked hS hn
  case cone =>
    intro n hn
    apply inPoCone_of_fanoutSize_pos hcopy.child_lt h.invariant.source hnum _ hn
    intro m hm
    exact h.gate_fanoutSize_pos hS hm
  case supported =>
    intro n hn
    exact h.supported hS ⟨T.gates_lt n hn, T.sorted.not_known n hn⟩

theorem exists_copied [CopyInitializer] (hS : Suitable src S) :
    ∃ s g, FanoutSubstitution.run src {} S.gates = some s.substituted ∧ Copied src S s g := by
  obtain ⟨s, hrun, g, hI, htrees, huses⟩ :=
    @run_reached src {} _ hS.wellFormed S (by decide)
  have hsame := src.restoreNames_sameLogic s.substituted S.gates s.old2new
  exact ⟨{ s with substituted := src.restoreNames s.substituted S.gates s.old2new }, g, hrun,
    hI.rename hsame, htrees, huses⟩

end Copies

section Results

variable {src : TechnologyNetwork} {S : src.TopoView} {s : State} {g : Ghost} {n m : ℕ}

/-- The layout computes the outputs of `src`. They are those of the substituted network `ntk`, where
every output still stands for the output of `src` at its position. The layout has them in the order
in which their drivers are visited, with one output for each driver and none for a constant. -/
structure Realizes (src : TechnologyNetwork) (S : src.TopoView) (ntk : TechnologyNetwork)
    (T : ntk.TopoView) (lyt : GateLevelLayout) : Prop where
  inputs : lyt.foreachPi.length = src.foreachPi.length
  exists_view : Nonempty lyt.FlowView
  outputs : ∃ owner : ℕ → ℕ, ntk.foreachPo.map owner = src.foreachPo ∧
    (∀ o ∈ ntk.foreachPo, isConstant (owner o) = isConstant o) ∧
    ∀ (L : lyt.FlowView) (a : ℕ → Bool), lyt.outputValues L.tiles a =
      (drivers ntk (nodes ntk T)).map fun n => src.simulate S.gates a (owner n)

/-- The outputs of the result belong to the outputs of the source. -/
theorem Copied.realizes (h : Copied src S s g) (hS : Suitable src S)
    {T : s.substituted.TopoView} {lyt : GateLevelLayout}
    (himpl : Implements s.substituted T lyt) : Realizes src S s.substituted T lyt := by
  have hcopy := h.invariant.copy
  have hpos : s.substituted.foreachPo = s.substituted.outputs := by
    apply foreachPo_eq_outputs
    rw [h.invariant.numPos, hS.numPos, min_self, ← h.invariant.outputs, List.length_map]
  constructor
  case inputs =>
    rw [himpl.inputs, foreachPi, foreachPi, hcopy.numPis, List.length_take, List.length_take,
      ← hcopy.inputs, List.length_map]
  case exists_view => exact himpl.exists_view
  case outputs =>
    refine ⟨g.owner, ?_, fun o ho => ?_, fun L a => ?_⟩
    · rw [hpos, foreachPo_eq_outputs hS.numPos, h.invariant.outputs]
    · exact h.isConstant_owner (h.invariant.output_lt o (hpos ▸ ho))
    · rw [himpl.outputs L a]
      apply List.map_congr_left
      intro m hm
      have ho := List.mem_of_mem_take (mem_drivers_iff.mp hm).1
      exact hcopy.simulation.simulate_eq hS.wellFormed T a (T.outputs_mem m ho)

theorem fanoutSize_pos_iff_fanouts {ntk : TechnologyNetwork} (V : FanoutView ntk)
    (hsource : ∀ m, ntk.IsSource m → (ntk.node m).children = [])
    (hnum : ntk.numPos = ntk.outputs.length) :
    0 < ntk.fanoutSize n ↔ ntk.isPo n = true ∨ V.fanouts n ≠ [] := by
  rw [fanoutSize_pos_iff, isPo, List.contains_iff_mem, hnum, List.take_length]
  apply or_congr_right
  rw [Ne, List.eq_nil_iff_forall_not_mem, not_forall_not]
  apply exists_congr
  intro m
  rw [V.mem_fanouts, IsGate, and_assoc]
  apply and_congr_right
  intro _
  rw [iff_and_self]
  intro hc hs
  rw [hsource m hs] at hc
  cases hc

theorem Copied.inputs_used_iff (h : Copied src S s g) (hS : Suitable src S)
    (V : FanoutView s.substituted) :
    (∀ n ∈ s.substituted.foreachPi, s.substituted.isPo n = true ∨ V.fanouts n ≠ []) ↔
      ∀ n ∈ src.foreachPi, 0 < src.fanoutSize n := by
  have hcopy := h.invariant.copy
  have hnum : s.substituted.numPos = s.substituted.outputs.length := by
    rw [h.invariant.numPos, hS.numPos, min_self, ← h.invariant.outputs, List.length_map]
  have hpis : s.substituted.numPis = s.substituted.inputs.length := by
    rw [hcopy.numPis, hS.numPis, ← hcopy.inputs, List.length_map]
  rw [foreachPi_eq_inputs hpis, foreachPi_eq_inputs hS.numPis, h.invariant.inputs,
    List.forall_mem_map]
  apply forall₂_congr
  intro n hn
  rw [← fanoutSize_pos_iff_fanouts V h.invariant.source hnum, h.fanoutSize_root_pos_iff hS hn]

/-- The design flow turns a suitable network into a layout that computes its outputs, unless the
colours of the fan-outs get in the way. The design rules are met if all inputs are used. -/
theorem orthogonal_realizes [CopyInitializer] (hS : Suitable src S) :
    ∃ ntk, FanoutSubstitution.run src {} S.gates = some ntk ∧ Nonempty ntk.TopoView ∧
      ∀ (V : FanoutView ntk) (T : ntk.TopoView), 2 * (nodes ntk T).length < 2 ^ 31 →
        (∃ fuel ctn, eastSouthEdgeColoring ntk V T fuel = some ctn) ∧
        ∀ fuel ctn, eastSouthEdgeColoring ntk V T fuel = some ctn → PortsAgree V T ctn →
          ∀ eastFirst clks, ∃ st, run ntk V T ctn eastFirst clks .cartesian = some st ∧
            WithoutOverlap (clockedLayout ntk V T ctn clks .cartesian) st.canvas ∧
            Realizes src S ntk T st.canvas.layout ∧
            ((st.canvas.layout.gateLevelDrvs {}).drvs = 0 ↔
              ∀ n ∈ src.foreachPi, 0 < src.fanoutSize n) := by
  obtain ⟨s, g, hrun, h⟩ := exists_copied hS
  refine ⟨_, hrun, h.invariant.copy.nonempty_topoView h.invariant.output_lt, fun V T hsize => ?_⟩
  constructor
  · obtain ⟨ctn, hcoloring, -⟩ := exists_coloring V T
    exact ⟨_, ctn, hcoloring _ (Nat.lt_succ_self _)⟩
  · intro fuel ctn hcoloring hports eastFirst clks
    have horderly := h.orderly hS T hsize
    obtain ⟨st, hst, hcompleted⟩ :=
      horderly.exists_completed hcoloring hports eastFirst clks .cartesian
    refine ⟨st, hst, hcompleted.withoutOverlap, h.realizes hS hcompleted.implements, ?_⟩
    rw [hcompleted.drvs_eq_zero_iff, h.inputs_used_iff hS V]

/-- A half adder whose inputs both gates read. -/
def plainHalfAdder : TechnologyNetwork :=
  let (ntk, a) := empty.createPi
  let (ntk, b) := ntk.createPi
  let (ntk, x) := ntk.createXor a b
  let (ntk, y) := ntk.createAnd a b
  (ntk.createPo x).createPo y

def plainHalfAdderView : plainHalfAdder.TopoView := creationView (by decide) (by decide)

theorem plainHalfAdder_suitable : Suitable plainHalfAdder plainHalfAdderView where
  wellFormed := wellFormed_of_forall_lt (by decide) (by decide) (by decide) (by decide)
    (by decide) (by decide) (by decide)
  numPis := rfl
  numPis_pos := by decide
  numPos := rfl
  source n hn := by
    rcases hn with hn | hn
    · have h : ∀ m ≤ 1, (plainHalfAdder.node m).children = [] := by decide
      exact h n hn
    · have h : ∀ m ∈ plainHalfAdder.inputs, (plainHalfAdder.node m).children = [] := by decide
      exact h n hn
  cone n hn := by
    have h : ∀ m < 6, plainHalfAdder.IsGate m → m ∈ plainHalfAdder.foreachPo := by decide
    exact .po (h n hn.1 hn)
  supported n hn := by
    have h : ∀ m ∈ plainHalfAdderView.gates, m = 4 ∨ m = 5 := by decide
    rcases h n hn with rfl | rfl
    · exact .binary rfl (by decide) (by decide) (by decide) (by decide) (by decide)
    · exact .binary rfl (by decide) (by decide) (by decide) (by decide) (by decide)

def substitutedHalfAdder : TechnologyNetwork :=
  (FanoutSubstitution.run plainHalfAdder {} plainHalfAdderView.gates).getD empty

def substitutedHalfAdderView : substitutedHalfAdder.TopoView :=
  creationView (by decide) (by decide)

theorem substitutedHalfAdder_colored :
    ∃ ctn, eastSouthEdgeColoring substitutedHalfAdder substitutedHalfAdder.fanoutView
      substitutedHalfAdderView 10 = some ctn ∧
      PortsAgree substitutedHalfAdder.fanoutView substitutedHalfAdderView ctn := by
  have hcolors : (eastSouthEdgeColoring substitutedHalfAdder substitutedHalfAdder.fanoutView
      substitutedHalfAdderView 10).map
      (fun ctn => decide (∀ n ∈ substitutedHalfAdderView.gates, (ctn.color n).isSome)) =
        some true := by
    decide +kernel
  obtain ⟨ctn, hctn, hgates⟩ := Option.map_eq_some_iff.mp hcolors
  refine ⟨ctn, hctn, of_decide_eq_true hgates, fun n hn hpo _ m hm => ?_⟩
  have hnone : ∀ n ∈ substitutedHalfAdderView.gates, substitutedHalfAdder.isPo n = true →
      substitutedHalfAdder.fanoutView.fanouts n = [] := by decide
  rw [hnone n hn hpo] at hm
  exact absurd hm List.not_mem_nil

theorem orthogonal_realizes_halfAdder :
    ∃ ctn, eastSouthEdgeColoring substitutedHalfAdder substitutedHalfAdder.fanoutView
        substitutedHalfAdderView 10 = some ctn ∧
      ∃ st, run substitutedHalfAdder substitutedHalfAdder.fanoutView substitutedHalfAdderView ctn
          true .four .cartesian = some st ∧
        Realizes plainHalfAdder plainHalfAdderView substitutedHalfAdder substitutedHalfAdderView
          st.canvas.layout ∧
        (st.canvas.layout.gateLevelDrvs {}).drvs = 0 := by
  obtain ⟨ctn, hcoloring, hports⟩ := substitutedHalfAdder_colored
  obtain ⟨ntk, hrun, -, hall⟩ := orthogonal_realizes plainHalfAdder_suitable
  obtain rfl : substitutedHalfAdder = ntk := by
    rw [substitutedHalfAdder, hrun]
    rfl
  obtain ⟨-, hplace⟩ :=
    hall substitutedHalfAdder.fanoutView substitutedHalfAdderView (by decide)
  obtain ⟨st, hst, -, hrealizes, hdrvs⟩ := hplace 10 ctn hcoloring hports true .four
  exact ⟨ctn, hcoloring, st, hst, hrealizes, hdrvs.mpr (by decide)⟩

end Results

end Fiction.Orthogonal
