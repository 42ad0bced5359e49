import Fiction.Networks.InputSortOrder

/-!
# Gate iteration of the sorted view and of its reverse

Both views skip as many nodes at the end of their order as there are constants and primary inputs.
In the sorted view these nodes stand at the beginning, and register outputs are not counted.
-/

namespace Fiction.TopoViewInputSort

open TechnologyNetwork

structure SortedView {ntk : TechnologyNetwork} (V : FanoutView ntk) where
  topoOrder : List ℕ
  updated : updateTopo V = some topoOrder

namespace SortedView

variable {ntk : TechnologyNetwork} {V : FanoutView ntk} (S : SortedView V)

def offset (_ : SortedView V) : ℕ :=
  1 + ntk.numPis + if getConstant true ≠ getConstant false then 1 else 0

def numGates : ℕ := S.topoOrder.length - S.offset

def foreachNode : List ℕ := S.topoOrder

def foreachGate : List ℕ := S.topoOrder.take (S.topoOrder.length - S.offset)

/-- `copy_and_sort` of the reverse view. -/
def reverseOrder : List ℕ := S.foreachNode.reverse

/-- `foreach_gate` of the reverse view. -/
def reverseForeachGate : List ℕ := S.reverseOrder.take (S.reverseOrder.length - S.offset)

/-- Both views visit the gates of the order, one after its fan-ins and the other one the other way
round. -/
structure IteratesGates : Prop where
  gates : ∀ n, n ∈ S.foreachGate ↔ n ∈ S.foreachNode ∧ ¬ ntk.IsSource n
  nodup : S.foreachGate.Nodup
  sorted : ntk.graph.Sorted ntk.IsSource S.foreachGate
  numGates : S.numGates = S.foreachGate.length
  reverse : S.reverseForeachGate = S.foreachGate.reverse

variable {S}

theorem offset_eq : S.offset = 2 + ntk.numPis := by
  change 1 + ntk.numPis + 1 = 2 + ntk.numPis
  omega

theorem exists_length_eq (hb : InverterBalancing.Built ntk) : ∃ cis gates,
    InputSorted ntk cis gates S.topoOrder ∧
      S.topoOrder.length = S.offset + ((ntk.inputs.length - ntk.numPis) + gates.length) := by
  obtain ⟨cis, gates, h⟩ := inputSorted_of_updateTopo hb S.updated
  refine ⟨cis, gates, h, ?_⟩
  have hle := hb.wellFormed.numPis_le
  have hcis := h.perm.length_eq
  have hlen : S.topoOrder.length = 2 + cis.length + gates.length := by
    rw [h.eq, List.length_append, List.length_append]
    rfl
  rw [offset_eq]
  omega

theorem zero_mem_foreachGate (hb : InverterBalancing.Built ntk)
    (hlt : S.offset < S.topoOrder.length) : 0 ∈ S.foreachGate := by
  obtain ⟨cis, gates, h⟩ := inputSorted_of_updateTopo hb S.updated
  have hzero : S.topoOrder[0]? = some 0 := by
    rw [h.eq]
    rfl
  refine List.mem_of_getElem? (i := 0) ?_
  rw [foreachGate, List.getElem?_take_of_lt (by omega), hzero]

/-- The views visit the gates iff there is nothing to visit. -/
theorem iteratesGates_iff (ntk : TechnologyNetwork) (hb : InverterBalancing.Built ntk)
    (V : FanoutView ntk) (S : SortedView V) :
    S.IteratesGates ↔ (∀ o ∈ ntk.outputs, ntk.IsSource o) ∧ ntk.foreachRo = [] := by
  obtain ⟨cis, gates, h, hlen⟩ := @exists_length_eq ntk V S hb
  have hro : ntk.foreachRo.length = ntk.inputs.length - ntk.numPis := List.length_drop
  constructor
  · intro hall
    have hle : S.topoOrder.length ≤ S.offset := by
      by_contra hlt
      have hgate := (hall.gates 0).mp (zero_mem_foreachGate hb (not_le.mp hlt))
      exact hgate.2 (.inl (Nat.zero_le 1))
    have hgates : gates = [] := List.eq_nil_of_length_eq_zero (by omega)
    refine ⟨fun o ho => ?_, List.eq_nil_of_length_eq_zero (by omega)⟩
    by_contra hs
    have hmem := (h.mem_gates o).mpr ⟨.output ho, hs⟩
    rw [hgates] at hmem
    cases hmem
  · rintro ⟨hout, hnone⟩
    have hcone : ∀ m, InCone ntk m → ntk.IsSource m := by
      intro m hm
      induction hm with
      | output ho => exact hout _ ho
      | fanin _ hs _ ih => exact absurd ih hs
    have hgates : gates = [] := by
      rw [List.eq_nil_iff_forall_not_mem]
      intro n hn
      obtain ⟨hm, hns⟩ := (h.mem_gates n).mp hn
      exact hns (hcone n hm)
    rw [hnone, List.length_nil] at hro
    rw [← hro, hgates] at hlen
    change S.topoOrder.length = S.offset at hlen
    have hforeach : S.foreachGate = [] := by
      rw [foreachGate, hlen, Nat.sub_self, List.take_zero]
    have hreverse : S.reverseForeachGate = [] := by
      rw [reverseForeachGate, reverseOrder, foreachNode, List.length_reverse, hlen, Nat.sub_self,
        List.take_zero]
    refine ⟨fun n => ?_, ?_, ?_, ?_, ?_⟩
    · rw [hforeach, foreachNode, h.eq, hgates, List.append_nil]
      refine iff_of_false List.not_mem_nil fun hn => hn.2 ?_
      rcases List.mem_append.mp hn.1 with hn | hn
      · exact .inl (mem_constants.mp hn)
      · exact .inr (h.perm.mem_iff.mp hn)
    · rw [hforeach]
      exact List.nodup_nil
    · rw [hforeach]
      trivial
    · rw [hforeach, numGates, hlen, Nat.sub_self, List.length_nil]
    · rw [hforeach, hreverse, List.reverse_nil]

def passThrough : TechnologyNetwork := empty.createPi.1.createPo 2

theorem iteratesGates_passThrough :
    IteratesGates (⟨[0, 1, 2], by decide⟩ : SortedView passThrough.fanoutView) := by
  have hw : passThrough.WellFormed :=
    wellFormed_of_forall_lt (by decide) (by decide) (by decide) (by decide) (by decide) (by decide)
      (by decide)
  have hb := InverterBalancing.built_of_forall_lt hw (by decide) (by decide) (by decide) (by decide)
  apply (iteratesGates_iff passThrough hb _ _).mpr
  decide

def invertedInput : TechnologyNetwork := (empty.createPi.1.createNot 2).1.createPo 3

/-- The constant is visited instead of the inverter. -/
theorem invertedInput_not_iterated :
    ¬ IteratesGates (⟨[0, 1, 2, 3], by decide⟩ : SortedView invertedInput.fanoutView) := by
  intro h
  have hgate := (h.gates 0).mp (by decide)
  exact hgate.2 (.inl (Nat.zero_le 1))

end SortedView

end Fiction.TopoViewInputSort
