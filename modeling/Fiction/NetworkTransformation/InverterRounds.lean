import Fiction.NetworkTransformation.InverterEquivalence

/-!
# The networks between the rounds of inverter balancing

A round turns a network that creation functions have built into another one of this kind. Every gate
contributes one node at most, and a deleted inverter contributes none. A round that balances no node
copies all gates in the order of the view.
-/

namespace Fiction.InverterBalancing

open TechnologyNetwork

/-- All uses of nodes by gates and outputs. -/
def totalUses (ntk : TechnologyNetwork) : ℕ :=
  (ntk.nodes.map fun x => x.children.length).sum + ntk.outputs.length

/-- Networks that creation functions build with fewer uses than a counter of 31 bits can count. -/
structure Built (ntk : TechnologyNetwork) : Prop where
  wellFormed : ntk.WellFormed
  functionsFit : FunctionsFit ntk
  child_lt : ∀ n < ntk.size, ∀ c ∈ (ntk.node n).children, c < n
  output_lt : ∀ o ∈ ntk.outputs, o < ntk.size
  totalUses_lt : totalUses ntk < 2 ^ 31

theorem built_of_forall_lt {ntk : TechnologyNetwork} (hw : ntk.WellFormed)
    (hf : ∀ n < ntk.size, 2 ≤ n → n ∉ ntk.inputs →
      (ntk.node n).children.length = (ntk.node n).function.numVars)
    (hc : ∀ n < ntk.size, ∀ c ∈ (ntk.node n).children, c < n)
    (ho : ∀ o ∈ ntk.outputs, o < ntk.size) (hu : totalUses ntk < 2 ^ 31) : Built ntk :=
  ⟨hw, fun n h2 hlt hn => hf n hlt h2 hn, hc, ho, hu⟩

variable {ntk : TechnologyNetwork} {V : ntk.TopoView} {pre suf : List ℕ} {s : State} {g : ℕ}

section Step

/-- A node for gate `g` with as many children. -/
def Appended (ntk : TechnologyNetwork) (g : ℕ) (dest dest' : TechnologyNetwork) : Prop :=
  ∃ children function, dest' = (dest.pushNode children function).1 ∧
    (∀ c ∈ children, c < dest.size) ∧ children.length = function.numVars ∧
      children.length = (ntk.node g).children.length

theorem appended_pushNode {dest : TechnologyNetwork} {children : List ℕ} {function : TruthTable}
    (hc : ∀ c ∈ children, c < dest.size) (hf : children.length = function.numVars)
    (hlen : children.length = (ntk.node g).children.length) :
    Appended ntk g dest (dest.pushNode children function).1 :=
  ⟨children, function, rfl, hc, hf, hlen⟩

theorem gatherFaninSignals_eq (s : State) :
    gatherFaninSignals ntk (recordBalance ntk V.gates s g) g =
      (ntk.node g).children.map fun fn =>
        s.old2new (replaceDeleted (recordBalance ntk V.gates s g) fn) := by
  rw [gatherFaninSignals, (@recordBalance_frame ntk V s g).2]

/-- Every gate succeeds, and all but the deleted inverters may contribute a node. -/
theorem balanceGate_cases (hw : ntk.WellFormed) (hf : FunctionsFit ntk)
    (hV : V.gates = pre ++ g :: suf) (hrec : Recorded ntk V.gates pre s)
    (himg : ∀ n, s.old2new n < s.ntkDest.size) (h2 : 2 ≤ s.ntkDest.size) :
    ∃ created : TechnologyNetwork × ℕ,
      balanceGate ntk V.gates s g = some ((recordBalance ntk V.gates s g).define g created) ∧
      created.2 < created.1.size ∧
      (created.1 = s.ntkDest ∨
        ¬ IsDeleted ntk V.gates g ∧ Appended ntk g s.ntkDest created.1) := by
  obtain ⟨hdest, hmap⟩ := @recordBalance_frame ntk V s g
  have hg := mem_of_eq_append hV
  obtain ⟨hg2, hglt, hgi⟩ := gate_bounds hg
  have hrec' := hrec.recordBalance g
  have hgather := @gatherFaninSignals_eq ntk V g s
  have hfits := hf g hg2 hglt hgi
  have hself : (recordBalance ntk V.gates s g).define g (s.ntkDest, s.old2new g) =
      recordBalance ntk V.gates s g := by
    rw [State.define, hmap, Function.update_eq_self, ← hmap, ← hdest]
  have hsingle : (ntk.node g).function.numVars = 1 → ∃ c, (ntk.node g).children = [c] := fun h1 =>
    List.length_eq_one_iff.mp (hfits.trans h1)
  unfold balanceGate
  by_cases hnew : ntk.isInv g = true ∧ g ∈ (recordBalance ntk V.gates s g).newInv
  · rw [if_pos hnew]
    have hfun : (ntk.node g).function = .not := of_decide_eq_true hnew.1
    obtain ⟨c, hc⟩ := hsingle (by rw [hfun]; rfl)
    rw [hgather, hc, hdest]
    refine ⟨s.ntkDest.createBuf (s.old2new (replaceDeleted (recordBalance ntk V.gates s g) c)), rfl,
      ?_, .inr ⟨?_, appended_pushNode (by simpa using himg _) rfl (by rw [hc]; rfl)⟩⟩
    · change s.ntkDest.size < (s.ntkDest.pushNode _ _).1.size
      rw [size_pushNode]
      exact Nat.lt_succ_self _
    · have hmem := hnew.2
      rw [hrec'.newInv] at hmem
      obtain ⟨b, hb, rfl⟩ := List.mem_map.mp hmem
      exact inv₀_not_isDeleted hf (recorded_mem hV hb).2
  rw [if_neg hnew]
  by_cases hdel : ntk.isInv g = true ∧ g ∈ (recordBalance ntk V.gates s g).delInv
  · rw [if_pos hdel]
    exact ⟨(s.ntkDest, s.old2new g), congrArg some hself.symm, himg g, .inl rfl⟩
  rw [if_neg hdel]
  -- an inverter that is deleted has been recorded with its balanced node
  have hkept : ¬ IsDeleted ntk V.gates g := by
    rintro ⟨b, hb, hbal, rfl⟩
    have hfan := inv₁_mem hbal
    have hbpre := (known_of_mem_children hV (mem_fanoutsIn.mp hfan).2).resolve_left
      (V.sorted.not_known b hb)
    refine hdel ⟨(isBalanced_iff.mp hbal).2.1 _ hfan, ?_⟩
    rw [hrec'.delInv]
    exact List.mem_map_of_mem (List.mem_filter.mpr ⟨List.mem_append_left _ hbpre, hbal⟩)
  by_cases hblc : ntk.isBuf g = true ∧ g ∈ (recordBalance ntk V.gates s g).blcFos
  · rw [if_pos hblc]
    have hfun : (ntk.node g).function = .identity := (of_decide_eq_true hblc.1).1
    obtain ⟨c, hc⟩ := hsingle (by rw [hfun]; rfl)
    rw [hgather, hc, hdest]
    refine ⟨s.ntkDest.createNot (s.old2new (replaceDeleted (recordBalance ntk V.gates s g) c)), rfl,
      ?_⟩
    unfold createNot
    split_ifs with hconst
    · refine ⟨?_, .inl rfl⟩
      change getConstant _ < s.ntkDest.size
      unfold getConstant
      split_ifs <;> omega
    · refine ⟨?_, .inr ⟨hkept, appended_pushNode (by simpa using himg _) rfl (by rw [hc]; rfl)⟩⟩
      rw [pushNode_snd, size_pushNode]
      exact Nat.lt_succ_self _
  · rw [if_neg hblc]
    have hlen : (gatherFaninSignals ntk (recordBalance ntk V.gates s g) g).length =
        (ntk.node g).children.length := by
      rw [hgather, List.length_map]
    have hcopy := @copyGate_eq ntk g (gatherFaninSignals ntk (recordBalance ntk V.gates s g) g)
      (hlen.trans hfits) (by
        rw [← List.length_pos_iff, hlen, List.length_pos_iff]
        exact hw.children_ne_nil g hg2 hglt hgi) (recordBalance ntk V.gates s g)
    rw [hdest] at hcopy
    refine ⟨_, hcopy, ?_, .inr ⟨hkept, appended_pushNode ?_ (hlen.trans hfits) hlen⟩⟩
    · rw [pushNode_snd, size_pushNode]
      exact Nat.lt_succ_self _
    · intro c hc
      rw [hgather] at hc
      obtain ⟨fn, -, rfl⟩ := List.mem_map.mp hc
      exact himg _

end Step

section Round

/-- The copy after the gates `pre`. -/
structure Copying (ntk : TechnologyNetwork) (V : ntk.TopoView) (pre : List ℕ) (s : State) : Prop where
  recorded : Recorded ntk V.gates pre s
  inputs : s.ntkDest.inputs = List.range' 2 ntk.inputs.length
  numPis : s.ntkDest.numPis = ntk.numPis
  outputs : s.ntkDest.outputs = []
  numPos : s.ntkDest.numPos = 0
  image_lt : ∀ n, s.old2new n < s.ntkDest.size
  two_add_le : 2 + ntk.inputs.length ≤ s.ntkDest.size
  child_lt : ∀ m < s.ntkDest.size, ∀ c ∈ (s.ntkDest.node m).children, c < m
  fits : ∀ m, 2 + ntk.inputs.length ≤ m → m < s.ntkDest.size → (s.ntkDest.node m).children ≠ [] ∧
    (s.ntkDest.node m).children.length = (s.ntkDest.node m).function.numVars
  uses_le : (s.ntkDest.nodes.map fun x => x.children.length).sum ≤
    (pre.map fun g => (ntk.node g).children.length).sum
  size_le : s.ntkDest.size ≤ 2 + ntk.inputs.length + pre.length
  size_lt : (∃ g ∈ pre, IsDeleted ntk V.gates g) →
    s.ntkDest.size < 2 + ntk.inputs.length + pre.length

theorem initialState_copying [CopyInitializer] (hw : ntk.WellFormed) (V : ntk.TopoView) :
    Copying ntk V [] (initialState ntk) := by
  have h := initializeCopyNetwork_copies hw
  have hfresh : FreshCopy ntk (initialState ntk).ntkDest (initialState ntk).old2new :=
    initializeCopyNetwork_freshCopy hw
  refine ⟨⟨rfl, rfl, rfl⟩, h.inputs, hfresh.numPis, h.outputs, h.numPos, hfresh.image_lt,
    hfresh.size.ge, ?_, ?_, ?_, hfresh.size.le, ?_⟩
  · intro m _ c hc
    rw [hfresh.children] at hc
    cases hc
  · intro m hm hlt
    rw [hfresh.size] at hlt
    omega
  · have hnodes : (initialState ntk).ntkDest.nodes =
        empty.nodes ++ List.replicate ntk.inputs.length ⟨[], .identity⟩ := h.nodes
    simp [hnodes, empty]
  · rintro ⟨g, hg, -⟩
    cases hg

theorem Copying.balanceGate (h : Copying ntk V pre s) (hw : ntk.WellFormed)
    (hf : FunctionsFit ntk) (hV : V.gates = pre ++ g :: suf) :
    ∃ s', balanceGate ntk V.gates s g = some s' ∧ Copying ntk V (pre ++ [g]) s' := by
  have h2 : 2 ≤ s.ntkDest.size := (Nat.le_add_right 2 _).trans h.two_add_le
  obtain ⟨created, hrun, hlt, hcases⟩ :=
    balanceGate_cases hw hf hV h.recorded h.image_lt h2
  obtain ⟨-, hmap⟩ := @recordBalance_frame ntk V s g
  have hrec := h.recorded.recordBalance g
  obtain ⟨hg2, hglt, hgi⟩ := gate_bounds (mem_of_eq_append hV)
  have hpos : 0 < (ntk.node g).children.length :=
    List.length_pos_iff.mpr (hw.children_ne_nil g hg2 hglt hgi)
  have himage : s.ntkDest.size ≤ created.1.size →
      ∀ n, Function.update s.old2new g created.2 n < created.1.size := by
    intro hle n
    by_cases hn : n = g
    · rw [hn, Function.update_self]
      exact hlt
    · rw [Function.update_of_ne hn]
      exact (h.image_lt n).trans_le hle
  have hlen : (pre ++ [g]).length = pre.length + 1 := by rw [List.length_append]; rfl
  have hsum : ((pre ++ [g]).map fun g => (ntk.node g).children.length).sum =
      (pre.map fun g => (ntk.node g).children.length).sum + (ntk.node g).children.length := by
    rw [List.map_append, List.sum_append, List.map_singleton, List.sum_singleton]
  refine ⟨_, hrun, ?_⟩
  rcases hcases with heq | ⟨hkept, children, function, heq, hc, hfun, hclen⟩
  · have himage' := himage (by rw [heq])
    refine ⟨⟨hrec.blcFos, hrec.newInv, hrec.delInv⟩, ?_, ?_, ?_, ?_, ?_, ?_, ?_, ?_, ?_, ?_, ?_⟩ <;>
      simp only [State.define, hmap, heq] at *
    · exact h.inputs
    · exact h.numPis
    · exact h.outputs
    · exact h.numPos
    · exact himage'
    · exact h.two_add_le
    · exact h.child_lt
    · exact h.fits
    · rw [hsum]
      exact h.uses_le.trans (Nat.le_add_right _ _)
    · rw [hlen]
      exact h.size_le.trans (Nat.le_succ _)
    · rw [hlen]
      exact fun _ => Nat.lt_succ_of_le h.size_le
  · have hsize : created.1.size = s.ntkDest.size + 1 := by rw [heq, size_pushNode]
    have himage' := himage (by omega)
    have hnode : ∀ m, created.1.node m =
        if m = s.ntkDest.size then ⟨children, function⟩ else s.ntkDest.node m := fun m => by
      rw [heq, node_pushNode]
    refine ⟨⟨hrec.blcFos, hrec.newInv, hrec.delInv⟩, ?_, ?_, ?_, ?_, ?_, ?_, ?_, ?_, ?_, ?_, ?_⟩
    · exact (congrArg TechnologyNetwork.inputs heq).trans h.inputs
    · exact (congrArg TechnologyNetwork.numPis heq).trans h.numPis
    · exact (congrArg TechnologyNetwork.outputs heq).trans h.outputs
    · exact (congrArg TechnologyNetwork.numPos heq).trans h.numPos
    · simp only [State.define, hmap]
      exact himage'
    · change _ ≤ created.1.size
      exact h.two_add_le.trans (by omega)
    · intro m hm c hcm
      change m < created.1.size at hm
      change c ∈ (created.1.node m).children at hcm
      rw [hnode] at hcm
      split_ifs at hcm with hmeq
      · exact hmeq ▸ hc c hcm
      · exact h.child_lt m (by omega) c hcm
    · intro m hm hlt'
      change m < created.1.size at hlt'
      change (created.1.node m).children ≠ [] ∧
        (created.1.node m).children.length = (created.1.node m).function.numVars
      rw [hnode]
      split_ifs with hmeq
      · refine ⟨?_, hfun⟩
        rw [← List.length_pos_iff, hclen]
        exact hpos
      · exact h.fits m hm (by omega)
    · change (created.1.nodes.map fun x => x.children.length).sum ≤ _
      have hnodes : created.1.nodes = s.ntkDest.nodes ++ [⟨children, function⟩] :=
        congrArg TechnologyNetwork.nodes heq
      rw [hnodes, hsum, List.map_append, List.sum_append, List.map_singleton, List.sum_singleton,
        hclen]
      exact Nat.add_le_add_right h.uses_le _
    · change created.1.size ≤ _
      rw [hlen, hsize]
      have := h.size_le
      omega
    · rintro ⟨d, hd, hdel⟩
      change created.1.size < _
      rw [hlen, hsize]
      rcases List.mem_append.mp hd with hd | hd
      · have := h.size_lt ⟨d, hd, hdel⟩
        omega
      · rw [List.mem_singleton.mp hd] at hdel
        exact absurd hdel hkept

theorem exists_round [CopyInitializer] (hw : ntk.WellFormed) (hf : FunctionsFit ntk)
    (V : ntk.TopoView) :
    ∃ s, run ntk V.gates = some (ntk.restoreNames (finish ntk s) V.gates s.old2new) ∧
      Copying ntk V V.gates s := by
  obtain ⟨s, hs, h⟩ := exists_foldlM (fun pre g suf s hV h => Copying.balanceGate h hw hf hV)
    (initialState_copying hw V)
  exact ⟨s, run_eq_of_foldlM hw hs h.outputs h.numPos, h⟩

/-- What a round builds. -/
theorem Copying.built (h : Copying ntk V V.gates s) (hb : Built ntk) :
    Built (ntk.restoreNames (finish ntk s) V.gates s.old2new) := by
  rw [(ntk.restoreNames_sameLogic (finish ntk s) V.gates s.old2new).eq]
  have hinput : ∀ n ∈ s.ntkDest.inputs, 2 ≤ n ∧ n < 2 + ntk.inputs.length := by
    intro n hn
    rwa [h.inputs, List.mem_range'_1] at hn
  have hnotInput : ∀ n, 2 ≤ n → n ∉ s.ntkDest.inputs → 2 + ntk.inputs.length ≤ n := by
    intro n h2 hn
    rw [h.inputs, List.mem_range'_1] at hn
    omega
  have huses : (s.ntkDest.nodes.map fun x => x.children.length).sum +
      (ntk.outputs.map s.old2new).length < 2 ^ 31 := by
    have hgates := ntk.sum_map_gates_le V.sorted.nodup V.gates_lt fun x => x.children.length
    have hle := h.uses_le.trans hgates
    have hlt := hb.totalUses_lt
    rw [totalUses] at hlt
    rw [List.length_map]
    omega
  constructor
  · refine wellFormed_of_forall_lt ((Nat.le_add_right 2 _).trans h.two_add_le) ?_ ?_ ?_ ?_ ?_ huses
    · exact h.inputs ▸ List.nodup_range' ..
    · exact fun n hn => ⟨(hinput n hn).1, (hinput n hn).2.trans_le h.two_add_le⟩
    · exact fun n hlt h2 hn => (h.fits n (hnotInput n h2 hn) hlt).1
    · change s.ntkDest.numPis ≤ s.ntkDest.inputs.length
      rw [h.numPis, h.inputs, List.length_range']
      exact hb.wellFormed.numPis_le
    · change ntk.numPos ≤ (ntk.outputs.map s.old2new).length
      rw [List.length_map]
      exact hb.wellFormed.numPos_le
  · exact fun n h2 hlt hn => (h.fits n (hnotInput n h2 hn) hlt).2
  · exact h.child_lt
  · intro o ho
    obtain ⟨n, -, rfl⟩ := List.mem_map.mp ho
    exact h.image_lt n
  · exact huses

/-- Constants, inputs and gates are different nodes. -/
theorem two_add_length_le (hw : ntk.WellFormed) (V : ntk.TopoView) :
    2 + ntk.inputs.length + V.gates.length ≤ ntk.size := by
  have hnodup : (ntk.inputs ++ V.gates).Nodup := by
    refine List.nodup_append.mpr ⟨hw.inputs_nodup, V.sorted.nodup, ?_⟩
    rintro n hn m hm rfl
    exact V.sorted.not_known n hm (.inr hn)
  have hsub : ntk.inputs ++ V.gates ⊆ List.range' 2 (ntk.size - 2) := by
    intro n hn
    rw [List.mem_range'_1]
    rcases List.mem_append.mp hn with hn | hn
    · have := hw.input n hn
      omega
    · have := gate_bounds hn
      omega
  have hle := (hnodup.subperm hsub).length_le
  rw [List.length_append, List.length_range'] at hle
  have := hw.two_le_size
  omega

theorem Copying.size_lt_of_isBalanced (h : Copying ntk V V.gates s) (hw : ntk.WellFormed) {b : ℕ}
    (hb : b ∈ V.gates) (hbal : isBalanced ntk V.gates b = true) :
    (ntk.restoreNames (finish ntk s) V.gates s.old2new).size < ntk.size := by
  have hsize : (ntk.restoreNames (finish ntk s) V.gates s.old2new).size = s.ntkDest.size :=
    congrArg List.length (ntk.restoreNames_sameLogic (finish ntk s) V.gates s.old2new).nodes
  rw [hsize]
  refine (h.size_lt ⟨_, (mem_fanoutsIn.mp (inv₁_mem hbal)).1, b, hb, hbal, rfl⟩).trans_le ?_
  exact two_add_length_le hw V

end Round

end Fiction.InverterBalancing
