import Fiction.NetworkTransformation.InverterRounds

/-!
# Termination of inverter balancing

The rounds are repeated while some gate has two or more fan-outs, all of them inverters. A round
deals with such gates only if they are buffers. If there are others but no such buffer, the round
copies the network, and so do all rounds after it.
-/

namespace Fiction.InverterBalancing

open TechnologyNetwork

section Loop

variable (ntk : TechnologyNetwork) (gates : List ℕ)

def onlyInverters (n : ℕ) : Bool :=
  (fanoutsIn ntk gates n).all ntk.isInv && decide (1 < (fanoutsIn ntk gates n).length)

/-- The fan-outs are those of the network itself, not of a topological view. -/
def inverterBalancingRecursive : Bool :=
  ntk.creationOrder.any fun g =>
    decide (2 ≤ ntk.fanoutSize g) && onlyInverters ntk ntk.creationOrder g

/-- The do-while loop, for at most `fuel` rounds. -/
def rerun [CopyInitializer] (topo : TechnologyNetwork → List ℕ) :
    ℕ → TechnologyNetwork → Option TechnologyNetwork
  | 0, _ => none
  | fuel + 1, result => do
    let result ← run result (topo result)
    if inverterBalancingRecursive result then rerun topo fuel result else some result

def inverterBalancing [CopyInitializer] (topo : TechnologyNetwork → List ℕ) (fuel : ℕ)
    (ntk : TechnologyNetwork) : Option TechnologyNetwork := do
  rerun topo fuel (← run ntk (topo ntk))

def Tight : Prop := ∀ n ∈ gates, n ∈ ntk.outputs ∨ ∃ m ∈ gates, n ∈ (ntk.node m).children

/-- `topo` lists the gates in the cones of the outputs after their children. -/
def IsTopo (topo : TechnologyNetwork → List ℕ) : Prop :=
  ∀ ntk, Built ntk → ∃ V : ntk.TopoView, V.gates = topo ntk ∧ Tight ntk V.gates

/-- Some gate keeps the loop going, but no buffer is balanced. -/
def Stalled : Prop :=
  (∀ n ∈ gates, isBalanced ntk gates n = false) ∧ ∃ n ∈ gates, onlyInverters ntk gates n = true

instance : Decidable (Stalled ntk gates) := inferInstanceAs (Decidable (_ ∧ _))

/-- `ntk'` is the network that some round of the loop from `ntk` starts from. -/
inductive Reaches [CopyInitializer] (topo : TechnologyNetwork → List ℕ)
    (ntk : TechnologyNetwork) : TechnologyNetwork → Prop
  | refl : Reaches topo ntk ntk
  | step {r r' : TechnologyNetwork} (h : Reaches topo ntk r) (hrun : run r (topo r) = some r')
      (hagain : inverterBalancingRecursive r' = true) : Reaches topo ntk r'

end Loop

section Fanouts

variable {ntk : TechnologyNetwork} {gates : List ℕ} {n : ℕ}

theorem onlyInverters_congr {gates' : List ℕ} (h : gates.Perm gates') :
    onlyInverters ntk gates n = onlyInverters ntk gates' n := by
  have hfan : (fanoutsIn ntk gates n).Perm (fanoutsIn ntk gates' n) := h.filter _
  unfold onlyInverters
  rw [hfan.length_eq, Bool.eq_iff_iff, Bool.and_eq_true, Bool.and_eq_true, List.all_eq_true,
    List.all_eq_true]
  simp only [hfan.mem_iff]

theorem length_fanouts_le (hnd : gates.Nodup) (hlt : ∀ n ∈ gates, n < ntk.size) (n : ℕ) :
    (fanoutsIn ntk gates n).length ≤ ntk.fanoutSize n := by
  have hcount : ∀ l : List ℕ, (fanoutsIn ntk l n).length ≤
      (l.map fun g => (ntk.node g).children.count n).sum := by
    intro l
    induction l with
    | nil => exact Nat.zero_le _
    | cons g l ih =>
      rw [List.map_cons, List.sum_cons, fanoutsIn, List.filter_cons]
      split_ifs with hg
      · have hpos := List.count_pos_iff.mpr (List.contains_iff_mem.mp hg)
        rw [List.length_cons, Nat.add_comm]
        exact Nat.add_le_add hpos ih
      · exact ih.trans (Nat.le_add_left _ _)
  refine (hcount gates).trans ((ntk.sum_map_gates_le hnd hlt fun x => x.children.count n).trans ?_)
  exact Nat.le_add_right _ _

theorem isBalanced_iff_onlyInverters (hnd : gates.Nodup) (hlt : ∀ n ∈ gates, n < ntk.size) :
    isBalanced ntk gates n = true ↔ ntk.isBuf n = true ∧ onlyInverters ntk gates n = true := by
  have hle := length_fanouts_le hnd hlt n
  rw [isBalanced_iff, onlyInverters, Bool.and_eq_true, List.all_eq_true, decide_eq_true_eq,
    isFanout, decide_eq_true_eq]
  constructor
  · rintro ⟨⟨hbuf, -⟩, hinv, hlen⟩
    exact ⟨hbuf, hinv, hlen⟩
  · rintro ⟨hbuf, hinv, hlen⟩
    exact ⟨⟨hbuf, by omega⟩, hinv, hlen⟩

theorem inverterBalancingRecursive_iff : inverterBalancingRecursive ntk = true ↔
    ∃ n ∈ ntk.creationOrder, onlyInverters ntk ntk.creationOrder n = true := by
  rw [inverterBalancingRecursive, List.any_eq_true]
  refine exists_congr fun n => and_congr_right fun _ => ?_
  rw [Bool.and_eq_true, decide_eq_true_eq, and_iff_right_iff_imp]
  intro h
  have hlen := of_decide_eq_true (Bool.and_eq_true_iff.mp h).2
  exact hlen.trans_le
    (length_fanouts_le nodup_creationOrder (fun n hn => (mem_creationOrder.mp hn).1) n)

end Fanouts

section Copy

variable {ntk ntk' : TechnologyNetwork} {V : ntk.TopoView} {pre suf : List ℕ} {s : State} {g n : ℕ}

/-- The index of the copy of node `n`. -/
def position (ntk : TechnologyNetwork) (gates : List ℕ) (n : ℕ) : ℕ :=
  if n ≤ 1 then n
  else if n ∈ ntk.inputs then 2 + ntk.inputs.idxOf n
  else if n ∈ gates then 2 + ntk.inputs.length + gates.idxOf n
  else 0

theorem position_gate (hg : g ∈ V.gates) :
    position ntk V.gates g = 2 + ntk.inputs.length + V.gates.idxOf g := by
  obtain ⟨h2, -, hi⟩ := gate_bounds hg
  rw [position, if_neg (by omega), if_neg hi, if_pos hg]

theorem position_source (hn : ntk.IsSource n) :
    position ntk V.gates n < 2 + ntk.inputs.length := by
  unfold position
  split_ifs with h1 hi hg
  · omega
  · have := List.idxOf_lt_length_of_mem hi
    omega
  · exact absurd hn (V.sorted.not_known n hg)
  · omega

theorem position_injective {m : ℕ} (hn : ntk.IsSource n ∨ n ∈ V.gates)
    (hm : ntk.IsSource m ∨ m ∈ V.gates) (h : position ntk V.gates n = position ntk V.gates m) :
    n = m := by
  rcases hn with hn | hn <;> rcases hm with hm | hm
  · unfold position at h
    by_cases hn1 : n ≤ 1 <;> by_cases hm1 : m ≤ 1
    · rwa [if_pos hn1, if_pos hm1] at h
    · rw [if_pos hn1, if_neg hm1, if_pos (hm.resolve_left hm1)] at h
      omega
    · rw [if_neg hn1, if_pos (hn.resolve_left hn1), if_pos hm1] at h
      omega
    · have hni := hn.resolve_left hn1
      rw [if_neg hn1, if_pos hni, if_neg hm1, if_pos (hm.resolve_left hm1)] at h
      exact (List.idxOf_inj hni).mp (Nat.add_left_cancel h)
  · have := @position_source _ V _ hn
    rw [position_gate hm] at h
    omega
  · have := @position_source _ V _ hm
    rw [position_gate hn] at h
    omega
  · rw [position_gate hn, position_gate hm] at h
    exact (List.idxOf_inj hn).mp (Nat.add_left_cancel h)

/-- `ntk'` has the gates of the view in order. -/
structure CopyOf (ntk : TechnologyNetwork) (gates : List ℕ) (ntk' : TechnologyNetwork) : Prop where
  size : ntk'.size = 2 + ntk.inputs.length + gates.length
  node : ∀ g ∈ gates, ntk'.node (position ntk gates g) =
    ⟨(ntk.node g).children.map (position ntk gates), (ntk.node g).function⟩
  inputs : ntk'.inputs = List.range' 2 ntk.inputs.length
  outputs : ntk'.outputs = ntk.outputs.map (position ntk gates)

/-- The copy after the gates `pre`. -/
structure PartCopied (ntk : TechnologyNetwork) (V : ntk.TopoView) (pre : List ℕ) (s : State) :
    Prop where
  recorded : Recorded ntk V.gates pre s
  size : s.ntkDest.size = 2 + ntk.inputs.length + pre.length
  node : ∀ g ∈ pre, s.ntkDest.node (position ntk V.gates g) =
    ⟨(ntk.node g).children.map (position ntk V.gates), (ntk.node g).function⟩
  image : ∀ n, ntk.IsSource n ∨ n ∈ pre → s.old2new n = position ntk V.gates n

theorem initialState_partCopied [CopyInitializer] (hw : ntk.WellFormed) (V : ntk.TopoView) :
    PartCopied ntk V [] (initialState ntk) := by
  have h : FreshCopy ntk (initialState ntk).ntkDest (initialState ntk).old2new :=
    initializeCopyNetwork_freshCopy hw
  refine ⟨⟨rfl, rfl, rfl⟩, h.size, fun g hg => absurd hg List.not_mem_nil, fun n hn => ?_⟩
  have hs := hn.resolve_right List.not_mem_nil
  unfold position
  by_cases h1 : n ≤ 1
  · rw [if_pos h1]
    exact h.constant n h1
  · have hi := hs.resolve_left h1
    have hlt := List.idxOf_lt_length_of_mem hi
    have himage := h.old2new _ hlt
    rw [List.getElem_idxOf] at himage
    rw [if_neg h1, if_pos hi, himage]

theorem PartCopied.balanceGate (h : PartCopied ntk V pre s) (hw : ntk.WellFormed)
    (hf : FunctionsFit ntk) (hno : ∀ b ∈ V.gates, isBalanced ntk V.gates b = false)
    (hV : V.gates = pre ++ g :: suf) :
    ∃ s', balanceGate ntk V.gates s g = some s' ∧ PartCopied ntk V (pre ++ [g]) s' := by
  have hg := mem_of_eq_append hV
  obtain ⟨h2, hlt, hi⟩ := gate_bounds hg
  have hnone : pre.filter (isBalanced ntk V.gates) = [] := by
    rw [List.filter_eq_nil_iff]
    intro b hb
    rw [hno b (by rw [hV]; exact List.mem_append_left _ hb)]
    exact Bool.false_ne_true
  have hnew : s.newInv = [] := by rw [h.recorded.newInv, hnone, List.map_nil]
  have hdel : s.delInv = [] := by rw [h.recorded.delInv, hnone, List.map_nil]
  have hblc : s.blcFos = [] := by rw [h.recorded.blcFos, hnone]
  have hrec : recordBalance ntk V.gates s g = s := by
    rw [recordBalance_eq, hno g hg]
    rfl
  have hgather : gatherFaninSignals ntk s g =
      (ntk.node g).children.map (position ntk V.gates) := by
    refine List.map_congr_left fun c hc => ?_
    rw [replaceDeleted, hdel, List.zip_nil_left, List.foldl_nil]
    exact h.image c (known_of_mem_children hV hc)
  have hcopy := @copyGate_eq ntk g (gatherFaninSignals ntk s g)
    (by rw [hgather, List.length_map]; exact hf g h2 hlt hi)
    (by simpa [hgather] using hw.children_ne_nil g h2 hlt hi) s
  have hposition : position ntk V.gates g = s.ntkDest.size := by
    have hpre : g ∉ pre := by
      have hnd := hV ▸ V.sorted.nodup
      exact fun hm => (List.nodup_append.mp hnd).2.2 g hm g List.mem_cons_self rfl
    rw [position_gate hg, h.size, hV, List.idxOf_append, if_neg hpre, List.idxOf_cons_self,
      Nat.zero_add]
  refine ⟨s.define g (s.ntkDest.pushNode (gatherFaninSignals ntk s g) (ntk.node g).function), ?_, ?_⟩
  · unfold InverterBalancing.balanceGate
    simp only [hrec, hnew, hdel, hblc, List.not_mem_nil, and_false, if_false]
    exact hcopy
  · have hrec' := h.recorded.recordBalance g
    rw [hrec] at hrec'
    refine ⟨⟨hrec'.blcFos, hrec'.newInv, hrec'.delInv⟩, ?_, ?_, ?_⟩
    · change (s.ntkDest.pushNode _ _).1.size = _
      rw [size_pushNode, h.size, List.length_append]
      rfl
    · intro g' hg'
      change (s.ntkDest.pushNode _ _).1.node _ = _
      rw [node_pushNode]
      by_cases heq : g' = g
      · rw [heq, hposition, if_pos rfl, hgather]
      · have hpre := (List.mem_append.mp hg').resolve_right fun hm =>
          heq (List.mem_singleton.mp hm)
        have hgates : g' ∈ V.gates := by
          rw [hV]
          exact List.mem_append_left _ hpre
        rw [if_neg, h.node g' hpre]
        intro hsize
        rw [← hposition] at hsize
        exact heq (position_injective (.inr hgates) (.inr hg) hsize)
    · intro n hn
      change Function.update s.old2new g s.ntkDest.size n = _
      by_cases heq : n = g
      · rw [heq, Function.update_self, hposition]
      · rw [Function.update_of_ne heq]
        refine h.image n (hn.imp_right fun hm => ?_)
        exact (List.mem_append.mp hm).resolve_right fun hm => heq (List.mem_singleton.mp hm)

theorem exists_copy [CopyInitializer] (hw : ntk.WellFormed) (hf : FunctionsFit ntk)
    (hno : ∀ b ∈ V.gates, isBalanced ntk V.gates b = false) :
    ∃ ntk', run ntk V.gates = some ntk' ∧ CopyOf ntk V.gates ntk' := by
  obtain ⟨s, hs, h⟩ := exists_foldlM (fun pre g suf s hV h => PartCopied.balanceGate h hw hf hno hV)
    (initialState_partCopied hw V)
  obtain ⟨s', hs', h'⟩ := exists_foldlM
    (fun pre g suf s hV h => Copying.balanceGate h hw hf hV) (initialState_copying hw V)
  obtain rfl := Option.some.inj (hs.symm.trans hs')
  refine ⟨_, run_eq_of_foldlM hw hs h'.outputs h'.numPos, ?_⟩
  rw [(ntk.restoreNames_sameLogic (finish ntk s) V.gates s.old2new).eq]
  exact ⟨h.size, h.node, h'.inputs, List.map_congr_left fun o ho => h.image o (V.outputs_mem o ho)⟩

theorem CopyOf.not_isSource (h : CopyOf ntk V.gates ntk') (hg : g ∈ V.gates) :
    ¬ ntk'.IsSource (position ntk V.gates g) := by
  rw [IsSource, h.inputs, List.mem_range'_1, position_gate hg]
  omega

theorem CopyOf.creationOrder (h : CopyOf ntk V.gates ntk') :
    ntk'.creationOrder = V.gates.map (position ntk V.gates) := by
  have hgates : V.gates.map (position ntk V.gates) =
      List.range' (2 + ntk.inputs.length) V.gates.length := by
    refine List.ext_getElem (by simp) fun i hi _ => ?_
    rw [List.length_map] at hi
    rw [List.getElem_map, List.getElem_range', position_gate (List.getElem_mem hi),
      V.sorted.nodup.idxOf_getElem, Nat.one_mul]
  have hrange : List.range ntk'.size = List.range (2 + ntk.inputs.length) ++
      List.range' (2 + ntk.inputs.length) V.gates.length := by
    rw [h.size, List.range_eq_range', List.range_eq_range', ← List.range'_append_1, Nat.zero_add]
  have hsource : ∀ n, ntk'.IsSource n ↔ n < 2 + ntk.inputs.length := by
    intro n
    rw [IsSource, h.inputs, List.mem_range'_1]
    omega
  rw [hgates, TechnologyNetwork.creationOrder, hrange, List.filter_append,
    List.filter_eq_nil_iff.mpr, List.nil_append, List.filter_eq_self]
  · intro n hn
    rw [decide_eq_true_eq, hsource]
    have := (List.mem_range'_1.mp hn).1
    omega
  · intro n hn
    rw [decide_eq_true_eq, hsource, not_not]
    exact List.mem_range.mp hn

theorem CopyOf.fanouts (h : CopyOf ntk V.gates ntk')
    (hn : ntk.IsSource n ∨ n ∈ V.gates) :
    fanoutsIn ntk' ntk'.creationOrder (position ntk V.gates n) =
      (fanoutsIn ntk V.gates n).map (position ntk V.gates) := by
  rw [fanoutsIn, fanoutsIn, h.creationOrder, List.filter_map]
  refine congrArg _ (List.filter_congr fun g hg => ?_)
  rw [Function.comp_apply, h.node g hg, Bool.eq_iff_iff, List.contains_iff_mem,
    List.contains_iff_mem, List.mem_map]
  constructor
  · rintro ⟨c, hc, heq⟩
    exact position_injective (V.sorted.deps hg hc) hn heq ▸ hc
  · exact fun hmem => ⟨n, hmem, rfl⟩

theorem CopyOf.onlyInverters (h : CopyOf ntk V.gates ntk')
    (hn : ntk.IsSource n ∨ n ∈ V.gates) :
    onlyInverters ntk' ntk'.creationOrder (position ntk V.gates n) =
      onlyInverters ntk V.gates n := by
  have hinv : ∀ g ∈ fanoutsIn ntk V.gates n,
      ntk'.isInv (position ntk V.gates g) = ntk.isInv g := by
    intro g hg
    rw [isInv, isInv, h.node g (mem_fanoutsIn.mp hg).1]
  rw [InverterBalancing.onlyInverters, InverterBalancing.onlyInverters, h.fanouts hn,
    List.length_map, List.all_map]
  refine congrArg (· && _) ?_
  rw [Bool.eq_iff_iff, List.all_eq_true, List.all_eq_true]
  exact forall₂_congr fun g hg => by rw [Function.comp_apply, hinv g hg]

theorem CopyOf.perm (h : CopyOf ntk V.gates ntk') (hb : Built ntk') (ht : Tight ntk V.gates)
    (V' : ntk'.TopoView) : V'.gates.Perm ntk'.creationOrder := by
  have hmem : ∀ k, ∀ g ∈ V.gates, ntk'.size - position ntk V.gates g ≤ k →
      position ntk V.gates g ∈ V'.gates := by
    intro k
    induction k with
    | zero =>
      intro g hg hk
      have hidx := List.idxOf_lt_length_of_mem hg
      rw [position_gate hg, h.size] at hk
      omega
    | succ k ih =>
      intro g hg hk
      rcases ht g hg with ho | ⟨m, hm, hc⟩
      · refine (V'.outputs_mem _ ?_).resolve_left (h.not_isSource hg)
        rw [h.outputs]
        exact List.mem_map_of_mem ho
      · have hchild : position ntk V.gates g ∈ (ntk'.node (position ntk V.gates m)).children := by
          rw [h.node m hm]
          exact List.mem_map_of_mem hc
        have hsize : position ntk V.gates m < ntk'.size := by
          have hidx := List.idxOf_lt_length_of_mem hm
          rw [position_gate hm, h.size]
          omega
        have hlt := hb.child_lt _ hsize _ hchild
        exact (V'.sorted.deps (ih m hm (by omega)) hchild).resolve_left (h.not_isSource hg)
  refine (List.perm_ext_iff_of_nodup V'.sorted.nodup nodup_creationOrder).mpr fun n => ⟨?_, ?_⟩
  · exact fun hn => mem_creationOrder.mpr ⟨V'.gates_lt n hn, V'.sorted.not_known n hn⟩
  · rw [h.creationOrder]
    intro hn
    obtain ⟨g, hg, rfl⟩ := List.mem_map.mp hn
    exact hmem _ g hg le_rfl

theorem exists_stalled_copy [CopyInitializer] (hb : Built ntk) (ht : Tight ntk V.gates)
    (hs : Stalled ntk V.gates) :
    ∃ ntk', run ntk V.gates = some ntk' ∧ Built ntk' ∧ inverterBalancingRecursive ntk' = true ∧
      ∀ V' : ntk'.TopoView, Stalled ntk' V'.gates := by
  obtain ⟨hno, g, hg, honly⟩ := hs
  obtain ⟨ntk', hrun, h⟩ := exists_copy hb.wellFormed hb.functionsFit hno
  obtain ⟨s, hrun', hcopying⟩ := exists_round hb.wellFormed hb.functionsFit V
  have hb' : Built ntk' := by
    rw [Option.some.inj (hrun.symm.trans hrun')]
    exact hcopying.built hb
  have horder : position ntk V.gates g ∈ ntk'.creationOrder := by
    rw [h.creationOrder]
    exact List.mem_map_of_mem hg
  refine ⟨ntk', hrun, hb', ?_, fun V' => ⟨fun n hn => ?_, ?_⟩⟩
  · rw [inverterBalancingRecursive_iff]
    exact ⟨_, horder, (h.onlyInverters (.inr hg)).trans honly⟩
  · have hperm := h.perm hb' ht V'
    rw [hperm.mem_iff, h.creationOrder] at hn
    obtain ⟨m, hm, rfl⟩ := List.mem_map.mp hn
    rw [Bool.eq_false_iff]
    intro hbal
    rw [isBalanced_iff_onlyInverters V'.sorted.nodup V'.gates_lt, onlyInverters_congr hperm,
      h.onlyInverters (.inr hm)] at hbal
    have hbuf : ntk.isBuf m = true := by
      have hfun := (of_decide_eq_true hbal.1).1
      rw [h.node m hm] at hfun
      have hci : ¬ ntk.isCi m = true := fun hci =>
        V.sorted.not_known m hm (.inr (List.contains_iff_mem.mp hci))
      exact decide_eq_true ⟨hfun, hci⟩
    have := (isBalanced_iff_onlyInverters V.sorted.nodup V.gates_lt).mpr ⟨hbuf, hbal.2⟩
    rw [hno m hm] at this
    cases this
  · have hperm := h.perm hb' ht V'
    refine ⟨_, hperm.mem_iff.mpr horder, ?_⟩
    rw [onlyInverters_congr hperm, h.onlyInverters (.inr hg)]
    exact honly

theorem size_lt_of_not_stalled [CopyInitializer] (hb : Built ntk) (hs : ¬ Stalled ntk V.gates)
    (hrun : run ntk V.gates = some ntk') (hagain : inverterBalancingRecursive ntk' = true) :
    ntk'.size < ntk.size := by
  obtain ⟨s, hrun', hcopying⟩ := exists_round hb.wellFormed hb.functionsFit V
  obtain rfl := Option.some.inj (hrun'.symm.trans hrun)
  by_cases hbal : ∃ b ∈ V.gates, isBalanced ntk V.gates b = true
  · obtain ⟨b, hmem, hbal⟩ := hbal
    exact hcopying.size_lt_of_isBalanced hb.wellFormed hmem hbal
  · have hno : ∀ b ∈ V.gates, isBalanced ntk V.gates b = false := fun b hmem =>
      Bool.eq_false_iff.mpr fun h => hbal ⟨b, hmem, h⟩
    obtain ⟨_, hrun'', h⟩ := exists_copy hb.wellFormed hb.functionsFit hno
    obtain rfl := Option.some.inj (hrun''.symm.trans hrun)
    obtain ⟨n, hn, honly⟩ := inverterBalancingRecursive_iff.mp hagain
    rw [h.creationOrder] at hn
    obtain ⟨g, hg, rfl⟩ := List.mem_map.mp hn
    rw [h.onlyInverters (.inr hg)] at honly
    exact absurd ⟨hno, g, hg, honly⟩ hs

end Copy

section Termination

variable [CopyInitializer] {topo : TechnologyNetwork → List ℕ} {ntk r r' : TechnologyNetwork}
  {fuel : ℕ}

theorem rerun_succ (hrun : run r (topo r) = some r') : rerun topo (fuel + 1) r =
    if inverterBalancingRecursive r' then rerun topo fuel r' else some r' := by
  rw [rerun, hrun]
  rfl

theorem not_recursive_of_rerun {result : TechnologyNetwork}
    (h : rerun topo fuel r = some result) : inverterBalancingRecursive result = false := by
  induction fuel generalizing r with
  | zero => cases h
  | succ fuel ih =>
    cases hrun : run r (topo r) with
    | none =>
      rw [rerun, hrun] at h
      cases h
    | some r' =>
      rw [rerun_succ hrun] at h
      split_ifs at h with hagain
      · exact ih h
      · obtain rfl := Option.some.inj h
        exact Bool.eq_false_iff.mpr hagain

theorem rerun_eq_none_of_stalled (ht : IsTopo topo) (hb : Built r) (hs : Stalled r (topo r)) :
    rerun topo fuel r = none := by
  induction fuel generalizing r with
  | zero => rfl
  | succ fuel ih =>
    obtain ⟨V, hV, htight⟩ := ht r hb
    rw [← hV] at hs
    obtain ⟨r', hrun, hb', hagain, hs'⟩ := exists_stalled_copy hb htight hs
    rw [rerun_succ (hV ▸ hrun), if_pos hagain]
    obtain ⟨V', hV', -⟩ := ht r' hb'
    exact ih hb' (hV' ▸ hs' V')

theorem Reaches.rerun_eq_none (h : Reaches topo r r') (hnone : ∀ fuel, rerun topo fuel r' = none)
    (fuel : ℕ) : rerun topo fuel r = none := by
  induction h generalizing fuel with
  | refl => exact hnone fuel
  | step h hrun hagain ih =>
    refine ih (fun fuel => ?_) fuel
    cases fuel with
    | zero => rfl
    | succ fuel =>
      rw [rerun_succ hrun, if_pos hagain]
      exact hnone fuel

theorem Reaches.head (hrun : run ntk (topo ntk) = some r)
    (hagain : inverterBalancingRecursive r = true) (h : Reaches topo r r') :
    Reaches topo ntk r' := by
  induction h with
  | refl => exact .step .refl hrun hagain
  | step _ hrun' hagain' ih => exact ih.step hrun' hagain'

theorem built_of_run (ht : IsTopo topo) (hb : Built r) :
    ∃ r', run r (topo r) = some r' ∧ Built r' := by
  obtain ⟨V, hV, -⟩ := ht r hb
  obtain ⟨s, hrun, h⟩ := exists_round hb.wellFormed hb.functionsFit V
  exact ⟨_, hV ▸ hrun, h.built hb⟩

theorem Reaches.built (ht : IsTopo topo) (h : Reaches topo r r') (hb : Built r) : Built r' := by
  induction h with
  | refl => exact hb
  | step _ hrun _ ih =>
    obtain ⟨_, hrun', hb'⟩ := built_of_run ht ih
    rwa [Option.some.inj (hrun.symm.trans hrun')]

theorem exists_rerun_of_not_stalled (ht : IsTopo topo) (hb : Built r)
    (hs : ∀ r', Reaches topo r r' → ¬ Stalled r' (topo r')) :
    ∃ fuel result, rerun topo fuel r = some result := by
  induction hk : r.size using Nat.strongRecOn generalizing r with
  | ind k ih =>
    obtain ⟨V, hV, -⟩ := ht r hb
    obtain ⟨r', hrun, hb'⟩ := built_of_run ht hb
    cases hagain : inverterBalancingRecursive r' with
    | false =>
      refine ⟨1, r', ?_⟩
      rw [rerun_succ hrun, hagain]
      rfl
    | true =>
      have hlt := @size_lt_of_not_stalled r r' V _ hb (hV ▸ hs r .refl) (hV ▸ hrun) hagain
      obtain ⟨fuel, result, h⟩ := ih r'.size (hk ▸ hlt) hb'
        (fun r'' h => hs r'' (h.head hrun hagain)) rfl
      refine ⟨fuel + 1, result, ?_⟩
      rw [rerun_succ hrun, if_pos hagain, h]

/-- The loop ends iff no round of it starts from a stalled network. -/
theorem inverterBalancing_terminates_iff (topo : TechnologyNetwork → List ℕ) (ht : IsTopo topo)
    (ntk : TechnologyNetwork) (hb : Built ntk) :
    (∃ fuel result, inverterBalancing topo fuel ntk = some result ∧
      inverterBalancingRecursive result = false) ↔
      ∀ r₀ r, run ntk (topo ntk) = some r₀ → Reaches topo r₀ r → ¬ Stalled r (topo r) := by
  obtain ⟨r₀, hrun, hb₀⟩ := built_of_run ht hb
  have heq : ∀ fuel, inverterBalancing topo fuel ntk = rerun topo fuel r₀ := fun fuel => by
    rw [inverterBalancing, hrun]
    rfl
  constructor
  · rintro ⟨fuel, result, h, -⟩ r₁ r hrun' hreach hs
    obtain rfl := Option.some.inj (hrun.symm.trans hrun')
    have hnone := hreach.rerun_eq_none
      (fun _ => rerun_eq_none_of_stalled ht (hreach.built ht hb₀) hs) fuel
    rw [heq, hnone] at h
    cases h
  · intro hs
    obtain ⟨fuel, result, h⟩ := exists_rerun_of_not_stalled ht hb₀ fun r hr => hs r₀ r hrun hr
    exact ⟨fuel, result, (heq fuel).trans h, not_recursive_of_rerun h⟩

end Termination

section Cones

variable {ntk : TechnologyNetwork}

/-- Adds the children of gate `n` to the nodes that outputs depend on. -/
def addChildren (ntk : TechnologyNetwork) (n : ℕ) (needed : List ℕ) : List ℕ :=
  if n ∈ needed ∧ ¬ ntk.IsSource n then (ntk.node n).children ++ needed else needed

/-- The nodes that outputs depend on. -/
def cone (ntk : TechnologyNetwork) : List ℕ :=
  (List.range ntk.size).foldr (addChildren ntk) ntk.outputs

def coneOrder (ntk : TechnologyNetwork) : List ℕ :=
  (List.range ntk.size).filter fun n => n ∈ cone ntk ∧ ¬ ntk.IsSource n

/-- The nodes that have been found once the nodes from index `j` on have been visited. -/
structure Found (ntk : TechnologyNetwork) (j : ℕ) (needed : List ℕ) : Prop where
  outputs : ∀ o ∈ ntk.outputs, o ∈ needed
  children : ∀ n, j ≤ n → n < ntk.size → n ∈ needed → ¬ ntk.IsSource n →
    ∀ c ∈ (ntk.node n).children, c ∈ needed
  needed : ∀ n ∈ needed, n ∈ ntk.outputs ∨
    ∃ m, m < ntk.size ∧ m ∈ needed ∧ ¬ ntk.IsSource m ∧ n ∈ (ntk.node m).children

theorem found_cone (hb : Built ntk) : Found ntk 0 (cone ntk) := by
  have hfrom : ∀ k j, j + k = ntk.size →
      Found ntk j ((List.range' j k).foldr (addChildren ntk) ntk.outputs) := by
    intro k
    induction k with
    | zero =>
      intro j hj
      exact ⟨fun _ ho => ho, fun n hjn hn => by omega, fun _ hn => .inl hn⟩
    | succ k ih =>
      intro j hj
      have h := ih (j + 1) (by omega)
      rw [List.range'_succ, List.foldr_cons]
      generalize (List.range' (j + 1) k).foldr (addChildren ntk) ntk.outputs = needed at h
      unfold addChildren
      split_ifs with hmem
      · refine ⟨fun o ho => List.mem_append_right _ (h.outputs o ho),
          fun n hjn hn hnn hs c hc => ?_, fun n hn => ?_⟩
        · have hold : n ∈ needed := by
            rcases List.mem_append.mp hnn with hchild | hold
            · exact absurd (hb.child_lt j (by omega) n hchild) (by omega)
            · exact hold
          rcases Nat.eq_or_lt_of_le hjn with rfl | hlt
          · exact List.mem_append_left _ hc
          · exact List.mem_append_right _ (h.children n hlt hn hold hs c hc)
        · rcases List.mem_append.mp hn with hchild | hold
          · exact .inr ⟨j, by omega, List.mem_append_right _ hmem.1, hmem.2, hchild⟩
          · refine (h.needed n hold).imp_right fun ⟨m, hm, hmn, hc⟩ => ?_
            exact ⟨m, hm, List.mem_append_right _ hmn, hc⟩
      · refine ⟨h.outputs, fun n hjn hn hnn hs => ?_, h.needed⟩
        rcases Nat.eq_or_lt_of_le hjn with rfl | hlt
        · exact absurd ⟨hnn, hs⟩ hmem
        · exact h.children n hlt hn hnn hs
  have hall := hfrom ntk.size 0 (Nat.zero_add _)
  rwa [← List.range_eq_range'] at hall

theorem mem_coneOrder {n : ℕ} :
    n ∈ coneOrder ntk ↔ n < ntk.size ∧ n ∈ cone ntk ∧ ¬ ntk.IsSource n := by
  rw [coneOrder, List.mem_filter, List.mem_range, decide_eq_true_eq]

theorem isTopo_coneOrder : IsTopo coneOrder := by
  intro ntk hb
  have h := found_cone hb
  refine ⟨⟨coneOrder ntk, sorted_filter_range (fun n hn => (of_decide_eq_true hn).2)
    fun n hn hp c hc => ?_, fun n hn => (mem_coneOrder.mp hn).1, fun o ho => ?_⟩, rfl,
    fun n hn => ?_⟩
  · refine ⟨hb.child_lt n hn c hc, ?_⟩
    obtain ⟨hmem, hns⟩ := of_decide_eq_true hp
    have hcone := h.children n (Nat.zero_le n) hn hmem hns c hc
    by_cases hs : ntk.IsSource c
    · exact .inl hs
    · exact .inr (decide_eq_true ⟨hcone, hs⟩)
  · by_cases hs : ntk.IsSource o
    · exact .inl hs
    · exact .inr (mem_coneOrder.mpr ⟨hb.output_lt o ho, h.outputs o ho, hs⟩)
  · obtain ⟨-, hcone, hs⟩ := mem_coneOrder.mp hn
    refine (h.needed n hcone).imp_right fun ⟨m, hm, hmn, hsm, hc⟩ => ?_
    exact ⟨m, mem_coneOrder.mpr ⟨hm, hmn, hsm⟩, hc⟩

end Cones

section Examples

/-- The loop deals with a buffer in front of two inverters. -/
theorem inverterBalancing_terminates_invertedFanouts :
    ∃ fuel result, inverterBalancing coneOrder fuel invertedFanouts = some result ∧
      inverterBalancingRecursive result = false := by
  have hw : invertedFanouts.WellFormed :=
    wellFormed_of_forall_lt (by decide) (by decide) (by decide) (by decide) (by decide) (by decide)
      (by decide)
  refine (inverterBalancing_terminates_iff coneOrder isTopo_coneOrder invertedFanouts
    (built_of_forall_lt hw (by decide) (by decide) (by decide) (by decide))).mpr ?_
  intro r₀ r hrun hreach
  have hrounds : (run invertedFanouts (coneOrder invertedFanouts)).all (fun r =>
      decide (¬ Stalled r (coneOrder r)) &&
        (run r (coneOrder r)).all fun r' => !inverterBalancingRecursive r') = true := by decide
  rw [hrun, Option.all_some, Bool.and_eq_true, decide_eq_true_eq] at hrounds
  have hfirst : r = r₀ := by
    induction hreach with
    | refl => rfl
    | step _ hrun' hagain ih =>
      rw [ih] at hrun'
      rw [hrun', Option.all_some, hagain] at hrounds
      exact absurd hrounds.2 Bool.false_ne_true
  rw [hfirst]
  exact hrounds.1

def invertedAnd : TechnologyNetwork :=
  let (ntk, a) := empty.createPi
  let (ntk, b) := ntk.createPi
  let (ntk, c) := ntk.createAnd a b
  let (ntk, d) := ntk.createNot c
  let (ntk, e) := ntk.createNot c
  let (ntk, f) := ntk.createAnd d e
  ntk.createPo f

/-- Its rounds never end. -/
theorem inverterBalancing_invertedAnd :
    ¬ ∃ fuel result, inverterBalancing coneOrder fuel invertedAnd = some result := by
  have hw : invertedAnd.WellFormed :=
    wellFormed_of_forall_lt (by decide) (by decide) (by decide) (by decide) (by decide) (by decide)
      (by decide)
  have hb := built_of_forall_lt hw (by decide) (by decide) (by decide) (by decide)
  obtain ⟨r₀, hrun, hb₀⟩ := built_of_run isTopo_coneOrder hb
  have hstalled : (run invertedAnd (coneOrder invertedAnd)).all
      (fun r => decide (Stalled r (coneOrder r))) = true := by decide
  rw [hrun, Option.all_some, decide_eq_true_eq] at hstalled
  rintro ⟨fuel, result, hresult⟩
  have hnone : rerun coneOrder fuel r₀ = none :=
    rerun_eq_none_of_stalled isTopo_coneOrder hb₀ hstalled
  rw [inverterBalancing, hrun] at hresult
  cases hnone.symm.trans hresult

end Examples

end Fiction.InverterBalancing
