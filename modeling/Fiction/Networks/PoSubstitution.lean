import Fiction.Networks.TopoView

/-!
# Substitution of primary outputs

`substitute_po_signals` gives a buffer to every primary output whose driver is not a buffer. The
storage counts the uses of each node: creating a node counts its children, and creating an output
counts its driver. The substitution takes the output off the driver by hand and creates the buffer,
which counts the driver again, but it does not count the output that is bent to the buffer.
-/

namespace Fiction

/-- A technology network with the counters of its storage, `data[0].h1` of the nodes. -/
structure CountedNetwork where
  ntk : TechnologyNetwork
  refs : ℕ → ℕ

namespace CountedNetwork

open TechnologyNetwork

section Operations

variable (s : CountedNetwork)

/-- The highest bit of a counter is masked. -/
def fanoutSize (n : ℕ) : ℕ := s.refs n % 2 ^ 31

/-- `_create_node` -/
def createNode (children : List ℕ) (function : TruthTable) : CountedNetwork × ℕ :=
  let (ntk, index) := s.ntk.pushNode children function
  (⟨ntk, children.foldl (fun refs c => Function.update refs c (refs c + 1))
    (Function.update s.refs index 0)⟩, index)

def createBuf (a : ℕ) : CountedNetwork × ℕ := s.createNode [a] .identity

def createPo (f : ℕ) : CountedNetwork :=
  ⟨s.ntk.createPo f, Function.update s.refs f (s.refs f + 1)⟩

/-- The visit of the output with the given index. -/
def substitutePoSignal (index : ℕ) : CountedNetwork :=
  match s.ntk.outputs[index]? with
  | none => s
  | some po =>
    if s.ntk.isBuf po then s
    else
      let s : CountedNetwork := { s with refs := Function.update s.refs po (s.refs po - 1) }
      let (s, b) := s.createBuf po
      { s with ntk := { s.ntk with outputs := s.ntk.outputs.set index b } }

def substitutePoSignals : CountedNetwork :=
  (List.range s.ntk.foreachPo.length).foldl substitutePoSignal s

structure Counted : Prop where
  refs : ∀ n, s.refs n = s.ntk.fanoutSize n
  fresh : ∀ n, s.ntk.size ≤ n → s.ntk.fanoutSize n = 0

/-- What the substitution should leave behind. -/
structure PosSubstituted (s' : CountedNetwork) : Prop where
  /-- every output has a buffer of its own -/
  dedicated : ∀ po ∈ s'.ntk.foreachPo, s'.ntk.isBuf po = true ∧ s'.ntk.fanoutSize po = 1
  equivalent : ∀ V : s.ntk.TopoView,
    Nonempty s'.ntk.TopoView ∧ ∀ V' : s'.ntk.TopoView, Equivalent V V'
  counted : ∀ n < s'.ntk.size, s'.fanoutSize n = s'.ntk.fanoutSize n

end Operations

section Counters

variable {s : CountedNetwork} {children : List ℕ} {function : TruthTable} {n f : ℕ}

theorem refs_foldl (refs : ℕ → ℕ) : children.foldl
    (fun refs c => Function.update refs c (refs c + 1)) refs n = refs n + children.count n := by
  induction children generalizing refs with
  | nil => rfl
  | cons c children ih =>
    rw [List.foldl_cons, ih, List.count_cons]
    by_cases hc : c = n
    · subst hc
      rw [Function.update_self, beq_self_eq_true, if_pos rfl]
      omega
    · rw [Function.update_of_ne (Ne.symm hc), if_neg (by simpa using hc), Nat.add_zero]

theorem refs_createNode : (s.createNode children function).1.refs n =
    (if n = s.ntk.size then 0 else s.refs n) + children.count n := by
  refine (refs_foldl _).trans ?_
  rw [Function.update_apply]
  rfl

theorem Counted.createNode (h : Counted s) (hlt : ∀ c ∈ children, c < s.ntk.size) :
    Counted (s.createNode children function).1 where
  refs n := by
    have huses : (s.createNode children function).1.ntk.fanoutSize n =
        s.ntk.fanoutSize n + children.count n := fanoutSize_pushNode ..
    rw [refs_createNode, huses, h.refs n]
    split_ifs with hn
    · rw [h.fresh n hn.ge]
    · rfl
  fresh n hn := by
    have huses : (s.createNode children function).1.ntk.fanoutSize n =
        s.ntk.fanoutSize n + children.count n := fanoutSize_pushNode ..
    have hsize : (s.createNode children function).1.ntk.size = s.ntk.size + 1 :=
      size_pushNode ..
    rw [hsize] at hn
    have hnot : n ∉ children := fun hmem => by
      have hn' := hlt n hmem
      omega
    rw [huses, h.fresh n (by omega), List.count_eq_zero.mpr hnot]

theorem Counted.createPo (h : Counted s) (hf : f < s.ntk.size) : Counted (s.createPo f) where
  refs n := by
    have huses : (s.createPo f).ntk.fanoutSize n = s.ntk.fanoutSize n + if n = f then 1 else 0 :=
      fanoutSize_createPo ..
    change Function.update s.refs f (s.refs f + 1) n = _
    rw [huses, Function.update_apply, h.refs n]
    split_ifs with hn
    · rw [hn, h.refs f]
    · rfl
  fresh n hn := by
    have huses : (s.createPo f).ntk.fanoutSize n = s.ntk.fanoutSize n + if n = f then 1 else 0 :=
      fanoutSize_createPo ..
    have hlt : s.ntk.size ≤ n := hn
    rw [huses, h.fresh n hlt, if_neg (by omega)]

end Counters

section Substitution

variable {s s' : CountedNetwork} {k n : ℕ}

theorem fanoutSize_pos_of_mem_outputs {ntk : TechnologyNetwork} {o : ℕ} (ho : o ∈ ntk.outputs) :
    0 < ntk.fanoutSize o := by
  have hpos : 0 < ntk.outputs.countP fun c => c = o :=
    List.countP_pos_iff.mpr ⟨o, ho, by simp⟩
  exact Nat.add_pos_right _ hpos

theorem Counted.output_lt (h : Counted s) {o : ℕ} (ho : o ∈ s.ntk.outputs) :
    o < s.ntk.size := by
  by_contra hlt
  have := h.fresh o (not_lt.mp hlt)
  have := fanoutSize_pos_of_mem_outputs ho
  omega

/-- The output with index `j` has been visited. -/
def Visited (s s' : CountedNetwork) (j po : ℕ) : Prop :=
  if s.ntk.isBuf po then s'.ntk.outputs[j]? = some po
  else ∃ b, s.ntk.size ≤ b ∧ b < s'.ntk.size ∧ s'.ntk.outputs[j]? = some b ∧
    s'.ntk.node b = ⟨[po], .identity⟩ ∧ s'.refs b = 0

/-- The first `k` outputs have been visited. -/
structure Substituting (s : CountedNetwork) (k : ℕ) (s' : CountedNetwork) : Prop where
  inputs : s'.ntk.inputs = s.ntk.inputs
  numPis : s'.ntk.numPis = s.ntk.numPis
  numPos : s'.ntk.numPos = s.ntk.numPos
  length : s'.ntk.outputs.length = s.ntk.outputs.length
  size_le : s.ntk.size ≤ s'.ntk.size
  node : ∀ n < s.ntk.size, s'.ntk.node n = s.ntk.node n
  buffer : ∀ b, s.ntk.size ≤ b → b < s'.ntk.size →
    ∃ po ∈ s.ntk.outputs, s'.ntk.node b = ⟨[po], .identity⟩
  visited : ∀ j < k, ∀ po, s.ntk.outputs[j]? = some po → Visited s s' j po
  rest : ∀ j, k ≤ j → s'.ntk.outputs[j]? = s.ntk.outputs[j]?

theorem Substituting.refl : Substituting s 0 s where
  inputs := rfl
  numPis := rfl
  numPos := rfl
  length := rfl
  size_le := le_rfl
  node _ _ := rfl
  buffer _ hle hlt := absurd hlt (not_lt.mpr hle)
  visited j hj := absurd hj (Nat.not_lt_zero j)
  rest _ _ := rfl

theorem Substituting.isBuf (h : Substituting s k s') (hn : n < s.ntk.size) :
    s'.ntk.isBuf n = s.ntk.isBuf n := by
  rw [TechnologyNetwork.isBuf, TechnologyNetwork.isBuf, h.node n hn, isCi, isCi, h.inputs]

theorem substitutePoSignal_eq {po : ℕ} (hk : s.ntk.outputs[k]? = some po) :
    s.substitutePoSignal k = if s.ntk.isBuf po then s else
      ⟨{ (s.ntk.createBuf po).1 with outputs := s.ntk.outputs.set k s.ntk.size },
        (({ s with refs := Function.update s.refs po (s.refs po - 1) } :
          CountedNetwork).createBuf po).1.refs⟩ := by
  rw [substitutePoSignal, hk]
  rfl

theorem Substituting.step (h : Substituting s k s') (hc : Counted s) :
    Substituting s (k + 1) (s'.substitutePoSignal k) := by
  cases hk : s.ntk.outputs[k]? with
  | none =>
    have hk' : s'.ntk.outputs[k]? = none := (h.rest k le_rfl).trans hk
    rw [substitutePoSignal, hk']
    refine ⟨h.inputs, h.numPis, h.numPos, h.length, h.size_le, h.node, h.buffer,
      fun j hj po hpo => ?_, fun j hj => h.rest j (by omega)⟩
    rcases Nat.lt_succ_iff_lt_or_eq.mp hj with hj | rfl
    · exact h.visited j hj po hpo
    · rw [hk] at hpo
      cases hpo
  | some po =>
    have hmem : po ∈ s.ntk.outputs := List.mem_of_getElem? hk
    have hlt : po < s.ntk.size := hc.output_lt hmem
    rw [substitutePoSignal_eq ((h.rest k le_rfl).trans hk), h.isBuf hlt]
    cases hbuf : s.ntk.isBuf po with
    | true =>
      refine ⟨h.inputs, h.numPis, h.numPos, h.length, h.size_le, h.node, h.buffer,
        fun j hj po' hpo => ?_, fun j hj => h.rest j (by omega)⟩
      rcases Nat.lt_succ_iff_lt_or_eq.mp hj with hj | rfl
      · exact h.visited j hj po' hpo
      · obtain rfl := Option.some.inj (hk.symm.trans hpo)
        rw [Visited, hbuf, if_pos rfl]
        exact (h.rest j le_rfl).trans hk
    | false =>
      have hklt : k < s'.ntk.outputs.length := by
        rw [h.length]
        exact (List.getElem?_eq_some_iff.mp hk).1
      have hle := h.size_le
      obtain ⟨t, ht⟩ : ∃ t : CountedNetwork, t =
        ⟨{ (s'.ntk.createBuf po).1 with outputs := s'.ntk.outputs.set k s'.ntk.size },
          (({ s' with refs := Function.update s'.refs po (s'.refs po - 1) } :
            CountedNetwork).createBuf po).1.refs⟩ := ⟨_, rfl⟩
      have hnode : ∀ n, t.ntk.node n =
          if n = s'.ntk.size then ⟨[po], .identity⟩ else s'.ntk.node n := by
        rw [ht]
        exact node_pushNode _ _ _
      have hsize : t.ntk.size = s'.ntk.size + 1 := by
        rw [ht]
        exact size_pushNode _ _ _
      have hout : t.ntk.outputs = s'.ntk.outputs.set k s'.ntk.size := by rw [ht]
      have hrefs : ∀ n, n ≠ po → t.refs n = if n = s'.ntk.size then 0 else s'.refs n := by
        intro n hn
        rw [ht]
        refine (@refs_createNode _ [po] .identity n).trans ?_
        change (if n = s'.ntk.size then 0 else
          Function.update s'.refs po (s'.refs po - 1) n) + [po].count n = _
        rw [List.count_eq_zero.mpr (by simpa using hn), Nat.add_zero, Function.update_of_ne hn]
      rw [if_neg Bool.false_ne_true, ← ht]
      refine ⟨by rw [ht]; exact h.inputs, by rw [ht]; exact h.numPis, by rw [ht]; exact h.numPos,
        by rw [hout, List.length_set]; exact h.length, by omega, fun n hn => ?_, fun b hb hb' => ?_,
        fun j hj po' hpo => ?_, fun j hj => ?_⟩
      · rw [hnode, if_neg (by omega)]
        exact h.node n hn
      · rw [hnode]
        split_ifs with hnew
        · exact ⟨po, hmem, rfl⟩
        · exact h.buffer b hb (by omega)
      · rw [Visited, hout, hsize]
        rcases Nat.lt_succ_iff_lt_or_eq.mp hj with hj | rfl
        · have hold := h.visited j hj po' hpo
          rw [Visited] at hold
          rw [List.getElem?_set_ne (by omega)]
          split_ifs at hold ⊢ with hbuf'
          · exact hold
          · obtain ⟨b, hb, hb', hget, hbnode, hbrefs⟩ := hold
            refine ⟨b, hb, by omega, hget, ?_, ?_⟩
            · rw [hnode, if_neg (by omega), hbnode]
            · rw [hrefs b (by omega), if_neg (by omega), hbrefs]
        · obtain rfl := Option.some.inj (hk.symm.trans hpo)
          rw [hbuf, if_neg Bool.false_ne_true]
          refine ⟨s'.ntk.size, hle, by omega, List.getElem?_set_self hklt, ?_, ?_⟩
          · rw [hnode, if_pos rfl]
          · rw [hrefs _ (by omega), if_pos rfl]
      · rw [hout, List.getElem?_set_ne (by omega)]
        exact h.rest j (by omega)

theorem Counted.substituting (hc : Counted s) :
    Substituting s s.ntk.foreachPo.length s.substitutePoSignals := by
  rw [substitutePoSignals]
  generalize s.ntk.foreachPo.length = k
  induction k with
  | zero => exact .refl
  | succ k ih =>
    rw [List.range_succ, List.foldl_append]
    exact ih.step hc

theorem substitutePoSignals_of_isBuf (h : ∀ po ∈ s.ntk.foreachPo, s.ntk.isBuf po = true) :
    s.substitutePoSignals = s := by
  have hvisit : ∀ index ∈ List.range s.ntk.foreachPo.length, s.substitutePoSignal index = s := by
    intro index hindex
    have hlt := List.mem_range.mp hindex
    have hget : s.ntk.foreachPo[index]? = s.ntk.outputs[index]? :=
      List.getElem?_take_of_lt (by rw [foreachPo, List.length_take] at hlt; omega)
    have hpo : s.ntk.outputs[index]? = some s.ntk.foreachPo[index] := by
      rw [← hget, List.getElem?_eq_getElem hlt]
    rw [substitutePoSignal_eq hpo, h _ (List.getElem_mem hlt), if_pos rfl]
  rw [substitutePoSignals]
  generalize List.range s.ntk.foreachPo.length = indices at hvisit
  induction indices with
  | nil => rfl
  | cons index indices ih =>
    rw [List.foldl_cons, hvisit index List.mem_cons_self]
    exact ih fun i hi => hvisit i (List.mem_cons_of_mem index hi)

theorem Substituting.output_cases (h : Substituting s k s') (j o : ℕ)
    (ho : s'.ntk.outputs[j]? = some o) : s.ntk.outputs[j]? = some o ∨
      ∃ po, s.ntk.outputs[j]? = some po ∧ s.ntk.isBuf po = false ∧ s.ntk.size ≤ o ∧
        o < s'.ntk.size ∧ s'.ntk.node o = ⟨[po], .identity⟩ := by
  rcases Nat.lt_or_ge j k with hj | hj
  · have hlt : j < s.ntk.outputs.length := by
      rw [← h.length]
      exact (List.getElem?_eq_some_iff.mp ho).1
    have hpo := List.getElem?_eq_getElem hlt
    have hv := h.visited j hj _ hpo
    rw [Visited] at hv
    split_ifs at hv with hbuf
    · exact .inl (hpo.trans (hv.symm.trans ho))
    · obtain ⟨b, hle, hb, hget, hnode, -⟩ := hv
      obtain rfl := Option.some.inj (hget.symm.trans ho)
      exact .inr ⟨_, hpo, Bool.eq_false_iff.mpr hbuf, hle, hb, hnode⟩
  · exact .inl ((h.rest j hj).symm.trans ho)

theorem Substituting.exists_topoView (h : Substituting s k s') (V : s.ntk.TopoView)
    (hw : s.ntk.WellFormed) : ∃ V' : s'.ntk.TopoView,
      V'.gates = V.gates ++ List.range' s.ntk.size (s'.ntk.size - s.ntk.size) := by
  have hsource : s'.ntk.IsSource = s.ntk.IsSource := by
    funext n
    rw [IsSource, IsSource, h.inputs]
  have hsource_lt : ∀ n, s.ntk.IsSource n → n < s.ntk.size := by
    rintro n (hn | hn)
    · exact hn.trans_lt hw.two_le_size
    · exact (hw.input n hn).2
  have hle := h.size_le
  refine ⟨⟨V.gates ++ List.range' s.ntk.size (s'.ntk.size - s.ntk.size), ?_, ?_, ?_⟩, rfl⟩
  · rw [hsource, Graph.sorted_append]
    refine ⟨V.sorted.congr_of_mem fun n hn => ?_, ?_⟩
    · exact congrArg NetworkNode.children (h.node n (V.gates_lt n hn))
    · refine Graph.sorted_of_known List.nodup_range' (fun b hb => ?_) fun b hb d hd => ?_
      · have hle := (List.mem_range'_1.mp hb).1
        rintro (hs | hg)
        · have := hsource_lt b hs
          omega
        · have := V.gates_lt b hg
          omega
      · obtain ⟨hle, hlt⟩ := List.mem_range'_1.mp hb
        obtain ⟨po, hpo, hnode⟩ := h.buffer b hle (by omega)
        change d ∈ (s'.ntk.node b).children at hd
        rw [hnode, List.mem_singleton] at hd
        exact hd ▸ V.outputs_mem po hpo
  · intro n hn
    rcases List.mem_append.mp hn with hn | hn
    · have := V.gates_lt n hn
      omega
    · have := (List.mem_range'_1.mp hn).2
      omega
  · intro o ho
    rw [hsource]
    obtain ⟨j, hj⟩ := List.mem_iff_getElem?.mp ho
    rcases h.output_cases j o hj with hold | ⟨po, -, -, hle, hlt, -⟩
    · exact (V.outputs_mem o (List.mem_of_getElem? hold)).imp_right (List.mem_append_left _)
    · exact .inr (List.mem_append_right _ (List.mem_range'_1.mpr ⟨hle, by omega⟩))

theorem Substituting.simulate_eq (h : Substituting s k s') (V : s.ntk.TopoView)
    (V' : s'.ntk.TopoView) (hgates : ∀ n ∈ V.gates, n ∈ V'.gates) (a : ℕ → Bool)
    (hn : s.ntk.IsSource n ∨ n ∈ V.gates) :
    s'.ntk.simulate V'.gates a n = s.ntk.simulate V.gates a n := by
  have hv := V.simulate_solves a
  have hv' := V'.simulate_solves a
  refine V.sorted.induction
    (P := fun n => s'.ntk.simulate V'.gates a n = s.ntk.simulate V.gates a n)
    (fun n hs => ?_) (fun n hg hdeps => ?_) hn
  · have hs' : s'.ntk.IsSource n := by rwa [IsSource, h.inputs]
    rw [hv.base n hs, hv'.base n hs', sourceValues, sourceValues, h.inputs]
  · have hnode := h.node n (V.gates_lt n hg)
    rw [hv.rule n hg, hv'.rule n (hgates n hg)]
    change (s'.ntk.node n).function.eval _ = (s.ntk.node n).function.eval _
    change _ = (s.ntk.node n).function.eval ((s.ntk.node n).children.map _)
    have hchildren : s'.ntk.graph.deps n = (s.ntk.node n).children :=
      congrArg NetworkNode.children hnode
    rw [hnode, hchildren]
    exact congrArg _ (List.map_congr_left hdeps)

theorem Substituting.equivalent (h : Substituting s k s') (hw : s.ntk.WellFormed)
    (V : s.ntk.TopoView) (V' : s'.ntk.TopoView) : Equivalent V V' := by
  obtain ⟨W, hW⟩ := h.exists_topoView V hw
  refine ⟨by rw [h.inputs], h.numPis, h.length, h.numPos, fun a => ?_⟩
  rw [TopoView.outputValues_congr W V' a]
  have hold : ∀ o ∈ s.ntk.outputs, s'.ntk.simulate W.gates a o = s.ntk.simulate V.gates a o :=
    fun o ho => h.simulate_eq V W (fun n hn => hW ▸ List.mem_append_left _ hn) a
      (V.outputs_mem o ho)
  refine List.ext_getElem? fun j => ?_
  rw [outputValues, outputValues, List.getElem?_map, List.getElem?_map]
  cases ho : s'.ntk.outputs[j]? with
  | none =>
    rw [List.getElem?_eq_none_iff, h.length, ← List.getElem?_eq_none_iff] at ho
    rw [ho]
    rfl
  | some o =>
    rcases h.output_cases j o ho with heq | ⟨po, heq, -, hle, hlt, hnode⟩
    · rw [heq]
      exact congrArg some (hold o (List.mem_of_getElem? heq))
    · rw [heq]
      have hmem : o ∈ W.gates := by
        rw [hW]
        exact List.mem_append_right _ (List.mem_range'_1.mpr ⟨hle, by omega⟩)
      have hrule := (W.simulate_solves a).rule o hmem
      change _ = (s'.ntk.node o).function.eval ((s'.ntk.node o).children.map _) at hrule
      rw [hnode] at hrule
      rw [List.map_singleton, TruthTable.eval_identity] at hrule
      exact congrArg some (hrule.trans (hold po (List.mem_of_getElem? heq)))

/-- Functions, number and order of the outputs are kept; but the outputs only get buffers of their
own and the counters are only right if the outputs had such buffers before. -/
theorem posSubstituted_iff (s : CountedNetwork) (hc : Counted s) (hw : s.ntk.WellFormed) :
    PosSubstituted s s.substitutePoSignals ↔
      ∀ po ∈ s.ntk.foreachPo, s.ntk.isBuf po = true ∧ s.ntk.fanoutSize po = 1 := by
  have hsub := hc.substituting
  constructor
  · intro h
    have hbuf : ∀ po ∈ s.ntk.foreachPo, s.ntk.isBuf po = true := by
      intro po hpo
      by_contra hnot
      -- the buffer behind this output is used, but not counted
      obtain ⟨j, hj⟩ := List.mem_iff_getElem?.mp hpo
      have hlt : j < s.ntk.foreachPo.length := (List.getElem?_eq_some_iff.mp hj).1
      have hget : s.ntk.outputs[j]? = some po := by
        rw [← hj, foreachPo, List.getElem?_take_of_lt]
        rw [foreachPo, List.length_take] at hlt
        omega
      have hv := hsub.visited j hlt po hget
      rw [Visited, if_neg hnot] at hv
      obtain ⟨b, -, hb, hout, -, hrefs⟩ := hv
      have hcounted := h.counted b hb
      rw [fanoutSize, hrefs, Nat.zero_mod] at hcounted
      have := fanoutSize_pos_of_mem_outputs (List.mem_of_getElem? hout)
      omega
    have hself := h.dedicated
    rwa [substitutePoSignals_of_isBuf hbuf] at hself
  · intro h
    rw [substitutePoSignals_of_isBuf fun po hpo => (h po hpo).1] at hsub ⊢
    refine ⟨h, fun V => ⟨⟨V⟩, hsub.equivalent hw V⟩, fun n _ => ?_⟩
    rw [fanoutSize, hc.refs n]
    exact Nat.mod_eq_of_lt (hw.fanoutSize_lt n)

theorem counted_of_forall_lt {ntk : TechnologyNetwork}
    (hc : ∀ data ∈ ntk.nodes, ∀ c ∈ data.children, c < ntk.size)
    (ho : ∀ o ∈ ntk.outputs, o < ntk.size) : Counted ⟨ntk, ntk.fanoutSize⟩ where
  refs _ := rfl
  fresh n hn := by
    have hle : ntk.size ≤ n := hn
    have hout : ntk.outputs.countP (fun c => c = n) = 0 := by
      rw [List.countP_eq_zero]
      intro o hmem
      have := ho o hmem
      exact fun h => by have := of_decide_eq_true h; omega
    have hsum : (ntk.nodes.map fun data => data.children.countP fun c => c = n).sum = 0 := by
      rw [List.sum_eq_zero]
      intro k hk
      obtain ⟨data, hdata, rfl⟩ := List.mem_map.mp hk
      rw [List.countP_eq_zero]
      intro c hmem
      have := hc data hdata c hmem
      exact fun h => by have := of_decide_eq_true h; omega
    rw [TechnologyNetwork.fanoutSize, numUses, hsum, hout]

/-- A conjunction that drives an output through a buffer. -/
def bufferedOutput : TechnologyNetwork :=
  let (ntk, a) := empty.createPi
  let (ntk, b) := ntk.createPi
  let (ntk, g) := ntk.createAnd a b
  let (ntk, f) := ntk.createBuf g
  ntk.createPo f

theorem posSubstituted_iff_bufferedOutput :
    let s : CountedNetwork := ⟨bufferedOutput, bufferedOutput.fanoutSize⟩
    PosSubstituted s s.substitutePoSignals ↔
      ∀ po ∈ s.ntk.foreachPo, s.ntk.isBuf po = true ∧ s.ntk.fanoutSize po = 1 := by
  have hw : bufferedOutput.WellFormed :=
    wellFormed_of_forall_lt (by decide) (by decide) (by decide) (by decide) (by decide) (by decide)
      (by decide)
  exact posSubstituted_iff _ (counted_of_forall_lt (by decide) (by decide)) hw

def directOutput : TechnologyNetwork :=
  let (ntk, a) := empty.createPi
  let (ntk, b) := ntk.createPi
  let (ntk, g) := ntk.createAnd a b
  ntk.createPo g

/-- The output is not among the uses that are counted for its new buffer. -/
theorem directOutput_not_posSubstituted :
    let s : CountedNetwork := ⟨directOutput, directOutput.fanoutSize⟩
    ¬ PosSubstituted s s.substitutePoSignals := by
  intro s h
  have hcounted := h.counted 5 (by decide)
  exact absurd hcounted (by decide)

end Substitution

end CountedNetwork

end Fiction
