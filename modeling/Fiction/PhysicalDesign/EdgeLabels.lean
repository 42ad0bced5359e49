import Fiction.Library.LabelledFlow
import Fiction.PhysicalDesign.ConnectionCounts

/-!
# Edges as labels of connections

In a model under a regular clocking, the edges of the network are passed on from tile to tile along
the connections: a tile sends the edges that leave its node or occupy it, and receives those that
enter its node or occupy it.
-/

namespace Fiction.Exact

variable {S : SpecificationNetwork} {p : ExactParams} {ar : AspectRatio} {v : Assignment}
  {t : Tile} {n : ℕ}

section Labels

variable (p ar v)

/-- `t` is connected to the outgoing zone `u`. -/
def Connected (t u : Tile) : Prop := u ∈ (p.layout ar).outgoingClockedZones t ∧ v.tc t u = true

instance : DecidableRel (Connected p ar v) := fun _ _ => inferInstanceAs (Decidable (_ ∧ _))

def Sends (ed : Edge) (t : Tile) : Prop := v.tn t ed.source = true ∨ v.te t ed = true

instance : DecidableRel (Sends v) := fun _ _ => inferInstanceAs (Decidable (_ ∨ _))

def Receives (ed : Edge) (t : Tile) : Prop := v.tn t ed.target = true ∨ v.te t ed = true

instance : DecidableRel (Receives v) := fun _ _ => inferInstanceAs (Decidable (_ ∨ _))

end Labels

section Network

variable (hd : DistinctFanins S)
include hd

theorem nodup_placedEdges : (placedEdges S p).Nodup := by
  rw [placedEdges, SpecificationNetwork.foreachEdge, List.filter_flatMap]
  refine List.nodup_flatMap.mpr ⟨fun n hn => ?_, ?_⟩
  · rw [SpecificationNetwork.foreachIncomingEdge, List.filter_map]
    refine List.Nodup.map (fun a b hab => congrArg Edge.source hab) ?_
    refine (nodup_placedFanins (p := p) hd hn).sublist
      (List.monotone_filter_right _ fun c hc => ?_)
    rw [Function.comp_apply, Bool.not_eq_true', skipConstOrIoEdge_eq_false] at hc
    rw [hc.1]
    rfl
  · refine S.nodup_foreachNode.imp fun hne ed h₁ h₂ => hne ?_
    obtain ⟨c, -, rfl⟩ := List.mem_map.mp (List.mem_filter.mp h₁).1
    obtain ⟨d, -, heq⟩ := List.mem_map.mp (List.mem_filter.mp h₂).1
    exact (congrArg Edge.target heq).symm

theorem card_target (hn : n ∈ placedNodes S p) :
    networkInDegree S p n = ((placedEdges S p).toFinset.filter fun ed => ed.target = n).card := by
  rw [networkInDegree_eq_card hd hn]
  refine Finset.card_bij (fun c _ => ⟨c, n⟩) (fun c hc => ?_)
    (fun a _ b _ hab => congrArg Edge.source hab) fun ed hed => ?_
  · obtain ⟨hc, hfan⟩ := Finset.mem_filter.mp hc
    have hskip := (mem_placedNodes.mp (List.mem_toFinset.mp hc)).2
    exact Finset.mem_filter.mpr
      ⟨List.mem_toFinset.mpr (mem_placedEdges_of_mem_foreachFanin hn hfan hskip), rfl⟩
  · obtain ⟨hmem, rfl⟩ := Finset.mem_filter.mp hed
    have hed := List.mem_toFinset.mp hmem
    exact ⟨ed.source, Finset.mem_filter.mpr
      ⟨List.mem_toFinset.mpr (mem_placedNodes_of_mem_placedEdges hed).1,
        (SpecificationNetwork.mem_foreachEdge.mp (mem_placedEdges.mp hed).1).2⟩, rfl⟩

omit hd in
theorem card_source (c : ℕ) :
    ((placedNodes S p).toFinset.filter fun n => c ∈ S.foreachFanin n ∧ c ∈ placedNodes S p).card =
      ((placedEdges S p).toFinset.filter fun ed => ed.source = c).card := by
  refine Finset.card_bij (fun n _ => ⟨c, n⟩) (fun n hn => ?_)
    (fun a _ b _ hab => congrArg Edge.target hab) fun ed hed => ?_
  · obtain ⟨hn, hfan, hc⟩ := Finset.mem_filter.mp hn
    have hskip := (mem_placedNodes.mp hc).2
    exact Finset.mem_filter.mpr ⟨List.mem_toFinset.mpr
      (mem_placedEdges_of_mem_foreachFanin (List.mem_toFinset.mp hn) hfan hskip), rfl⟩
  · obtain ⟨hmem, rfl⟩ := Finset.mem_filter.mp hed
    have hed := List.mem_toFinset.mp hmem
    exact ⟨ed.target, Finset.mem_filter.mpr
      ⟨List.mem_toFinset.mpr (mem_placedNodes_of_mem_placedEdges hed).2,
        (SpecificationNetwork.mem_foreachEdge.mp (mem_placedEdges.mp hed).1).2,
        (mem_placedNodes_of_mem_placedEdges hed).1⟩, rfl⟩

end Network

theorem networkOutDegree_pos {ed : Edge} (hed : ed ∈ placedEdges S p) :
    0 < networkOutDegree S p ed.source := by
  obtain ⟨hmem, hskip⟩ := mem_placedEdges.mp hed
  obtain ⟨htgt, hsrc⟩ := SpecificationNetwork.mem_foreachEdge.mp hmem
  refine List.countP_pos_iff.mpr ⟨ed.target, S.mem_fanouts_of_mem_foreachFanin htgt hsrc, ?_⟩
  rw [(skipConstOrIoEdge_eq_false.mp hskip).2]
  rfl

/-- An edge goes on to a connected tile from each tile that sends it. -/
theorem CoreModel.exists_continues (h : CoreModel S p ar v) (hS : (p.layout ar).Small)
    (hr : p.isRegularlyClocked = true) (hp : NamedScheme.Proceeds p.scheme.clocking) {ed : Edge}
    (hed : ed ∈ placedEdges S p) (ht : t ∈ allTiles ar) (hv : Sends v ed t) :
    ∃ u ∈ allTiles ar, Connected p ar v t u ∧ Receives v ed u := by
  have hsrc := (mem_placedNodes_of_mem_placedEdges hed).1
  have hne : (p.layout ar).outgoingClockedZones t ≠ [] := by
    intro hnil
    have hload := h.load_eq_zero_of_deadEnd hS hr hp ht hnil
    rcases hv with hv | hv
    · rw [h.load_of_tn ht hsrc hv] at hload
      exact absurd hload (networkOutDegree_pos hed).ne'
    · have htes := Counting.count_map_eq_zero.mp (Nat.eq_zero_of_add_eq_zero_left hload) ed hed
      rw [hv] at htes
      exact absurd htes (by decide)
  have hfan : fanoutTiles p (freshCheckPoint ar) t = (p.layout ar).outgoingClockedZones t :=
    fanoutTiles_of_regular hr
  have hmem : t ∈ addedAndUpdatedTiles (freshCheckPoint ar) := addedAndUpdatedTiles_fresh ▸ ht
  have hsome : ∃ u ∈ fanoutTiles p (freshCheckPoint ar) t,
      continues p (freshCheckPoint ar) v ed t u := by
    rcases hv with hv | hv
    · have hout : ed ∈ S.foreachOutgoingEdge ed.source := by
        obtain ⟨htgt, hfan⟩ := SpecificationNetwork.mem_foreachEdge.mp (mem_placedEdges.mp hed).1
        exact List.mem_map.mpr ⟨ed.target, S.mem_fanouts_of_mem_foreachFanin htgt hfan, rfl⟩
      exact of_mkAsIfSe_true (h.generated.defineGateFanoutTiles t hmem ed.source hsrc) hv ed hout
        (mem_placedEdges.mp hed).2 (hfan ▸ hne)
    · exact of_mkAsIfSe_true (h.generated.defineWireFanoutTiles t hmem ed hed) hv (hfan ▸ hne)
  obtain ⟨u, hu, hnext, -, hc⟩ := hsome
  rw [hfan] at hu
  exact ⟨u, mem_allTiles_of_mem_outgoingClockedZones ht hu, ⟨hu, hc⟩, hnext⟩

section Model

variable (hS : (p.layout ar).Small) (hr : p.isRegularlyClocked = true)
  (hp : NamedScheme.Proceeds p.scheme.clocking) (hd : DistinctFanins S) (h : CoreModel S p ar v)
include hd h

/-- The labels of a tile are its load. -/
theorem CoreModel.card_labels {deg : ℕ → ℕ} {node : Edge → ℕ}
    (hnode : ∀ ed ∈ placedEdges S p, node ed ∈ placedNodes S p)
    (hdeg : ∀ n ∈ placedNodes S p,
      deg n = ((placedEdges S p).toFinset.filter fun ed => node ed = n).card)
    (ht : t ∈ allTiles ar) : load S p v deg t =
      ((placedEdges S p).toFinset.filter fun ed =>
        v.tn t (node ed) = true ∨ v.te t ed = true).card := by
  by_cases hv : ∃ n ∈ placedNodes S p, v.tn t n = true
  · obtain ⟨n, hn, hv⟩ := hv
    rw [h.load_of_tn ht hn hv, hdeg n hn]
    congr 1
    refine Finset.filter_congr fun ed hed => ?_
    have hed := List.mem_toFinset.mp hed
    have hte := Counting.count_map_eq_zero.mp (h.count_tes_eq_zero ht hn hv) ed hed
    rw [hte]
    constructor
    · rintro rfl
      exact .inl hv
    · rintro (hvn | hfalse)
      · exact h.node_unique ht (hnode ed hed) hn hvn hv
      · exact absurd hfalse Bool.false_ne_true
  · have hfalse : ∀ n ∈ placedNodes S p, v.tn t n = false := fun n hn =>
      Bool.eq_false_iff.mpr fun hvn => hv ⟨n, hn, hvn⟩
    rw [load_of_forall_eq_false hfalse, tes, Counting.count_map_eq,
      ← List.toFinset_card_of_nodup ((nodup_placedEdges hd).filter _), List.toFinset_filter]
    congr 1
    refine Finset.filter_congr fun ed hed => ?_
    rw [hfalse _ (hnode ed (List.mem_toFinset.mp hed))]
    simp only [Bool.false_eq_true, false_or]

include hS hr hp

/-- No node needs connections for gates outside of the view. -/
theorem CoreModel.networkOutDegree_eq
    (hlen : 1 < (placedNodes S p).length + (placedEdges S p).length) (hn : n ∈ placedNodes S p) :
    networkOutDegree S p n =
      ((placedEdges S p).toFinset.filter fun ed => ed.source = n).card := by
  have hsum : ∑ c ∈ (placedNodes S p).toFinset,
        ((placedNodes S p).toFinset.filter fun n => c ∈ S.foreachFanin n).card =
      ∑ c ∈ (placedNodes S p).toFinset, networkOutDegree S p c := by
    refine le_antisymm (Finset.sum_le_sum fun c _ => card_le_networkOutDegree c) ?_
    calc ∑ c ∈ (placedNodes S p).toFinset, networkOutDegree S p c
        ≤ ∑ n ∈ (placedNodes S p).toFinset, networkInDegree S p n :=
          h.sum_networkOutDegree_le hS hr hp hlen
      _ = ∑ n ∈ (placedNodes S p).toFinset,
            ((placedNodes S p).toFinset.filter fun c => c ∈ S.foreachFanin n).card :=
          Finset.sum_congr rfl fun n hn => networkInDegree_eq_card hd (List.mem_toFinset.mp hn)
      _ = ∑ c ∈ (placedNodes S p).toFinset,
            ((placedNodes S p).toFinset.filter fun n => c ∈ S.foreachFanin n).card :=
          Finset.sum_card_bipartiteAbove_eq_sum_card_bipartiteBelow fun n c => c ∈ S.foreachFanin n
  have heq := (Finset.sum_eq_sum_iff_of_le fun c _ => card_le_networkOutDegree c).mp hsum n
    (List.mem_toFinset.mpr hn)
  rw [← heq, ← card_source n]
  congr 1
  exact Finset.filter_congr fun m _ => (and_iff_left hn).symm

/-- An edge that occupies a tile comes from a connected one. -/
theorem CoreModel.exists_arrives {ed : Edge} (hed : ed ∈ placedEdges S p) (ht : t ∈ allTiles ar)
    (hv : Receives v ed t) : ∃ u ∈ allTiles ar, Connected p ar v u t ∧ Sends v ed u := by
  have htgt := (mem_placedNodes_of_mem_placedEdges hed).2
  have hlen : 1 < (placedNodes S p).length + (placedEdges S p).length := by
    have h₁ := List.length_pos_of_mem htgt
    have h₂ := List.length_pos_of_mem hed
    omega
  have hload := h.load_eq_count_iacc hS hr hp hd hlen ht
  rw [h.card_labels hd (fun ed hed => (mem_placedNodes_of_mem_placedEdges hed).2)
    (fun n hn => card_target hd hn) ht] at hload
  have hne : faninTiles p (freshCheckPoint ar) t ≠ [] := by
    intro hnil
    rw [iacc, hnil, List.map_nil, List.count_nil] at hload
    exact absurd hload (Finset.card_pos.mpr
      ⟨ed, Finset.mem_filter.mpr ⟨List.mem_toFinset.mpr hed, hv⟩⟩).ne'
  have hmem : t ∈ addedAndUpdatedTiles (freshCheckPoint ar) := addedAndUpdatedTiles_fresh ▸ ht
  have hsome : ∃ u ∈ faninTiles p (freshCheckPoint ar) t,
      arrives p (freshCheckPoint ar) v ed t u := by
    rcases hv with hv | hv
    · have hin : ed ∈ S.foreachIncomingEdge ed.target :=
        List.mem_map.mpr ⟨ed.source,
          (SpecificationNetwork.mem_foreachEdge.mp (mem_placedEdges.mp hed).1).2, rfl⟩
      exact of_mkAsIfSe_true (h.generated.defineGateFaninTiles t hmem ed.target htgt) hv ed hin
        (mem_placedEdges.mp hed).2 hne
    · exact of_mkAsIfSe_true (h.generated.defineWireFaninTiles t hmem ed hed) hv hne
  obtain ⟨u, hu, hprev, -, hc⟩ := hsome
  rw [faninTiles_of_regular hr] at hu
  have hmu := mem_allTiles_of_mem_incomingClockedZones ht hu
  refine ⟨u, hmu, ⟨(ClockedLayout.mem_incomingClockedZones_comm hS (inside_of_mem_allTiles p hmu)
    (inside_of_mem_allTiles p ht) ?_).mp hu, hc⟩, hprev⟩
  rw [(mem_allTiles.mp ht).1, (mem_allTiles.mp hmu).1]
  rfl

/-- The edges are passed on along the connections. -/
theorem CoreModel.labelledFlow (hne : placedEdges S p ≠ []) :
    LabelledFlow (allTiles ar).toFinset (placedEdges S p).toFinset (Connected p ar v) (Sends v)
      (Receives v) := by
  obtain ⟨ed, hed⟩ := List.exists_mem_of_ne_nil _ hne
  have hlen : 1 < (placedNodes S p).length + (placedEdges S p).length := by
    have h₁ := List.length_pos_of_mem (mem_placedNodes_of_mem_placedEdges hed).1
    have h₂ := List.length_pos_of_mem (mem_placedNodes_of_mem_placedEdges hed).2
    have h₃ := List.length_pos_of_mem hed
    omega
  have hin : ∀ {t : Tile}, t ∈ allTiles ar → (p.layout ar).Inside t :=
    fun ht => inside_of_mem_allTiles p ht
  refine ⟨fun t ht => ?_, fun u hu => ?_, fun e he t ht hs => ?_, fun e he u hu hrec => ?_⟩
  · have ht := List.mem_toFinset.mp ht
    have hcount := h.count_acc_eq_load hS hr hp hlen ht
    rw [h.card_labels hd (fun ed hed => (mem_placedNodes_of_mem_placedEdges hed).1)
      (fun n hn => h.networkOutDegree_eq hS hr hp hd hlen hn) ht, acc, fanoutTiles_of_regular hr,
      Counting.count_map_eq_sum (T := (allTiles ar).toFinset)
        (ClockedLayout.outgoingClockedZones_nodup hS (hin ht)) fun u hu =>
          List.mem_toFinset.mpr (mem_allTiles_of_mem_outgoingClockedZones ht hu),
      ← Finset.card_filter] at hcount
    exact hcount
  · have hu := List.mem_toFinset.mp hu
    have hcount := h.load_eq_count_iacc hS hr hp hd hlen hu
    rw [h.card_labels hd (fun ed hed => (mem_placedNodes_of_mem_placedEdges hed).2)
      (fun n hn => card_target hd hn) hu, iacc, faninTiles_of_regular hr,
      Counting.count_map_eq_sum (T := (allTiles ar).toFinset)
        (ClockedLayout.incomingClockedZones_nodup hS (hin hu)) (fun t ht =>
          List.mem_toFinset.mpr (mem_allTiles_of_mem_incomingClockedZones hu ht)),
      ← Finset.card_filter] at hcount
    refine Eq.trans ?_ hcount.symm
    congr 1
    refine Finset.filter_congr fun t ht => and_congr_left fun _ => ?_
    have ht := List.mem_toFinset.mp ht
    refine (ClockedLayout.mem_incomingClockedZones_comm hS (hin ht) (hin hu) ?_).symm
    rw [(mem_allTiles.mp ht).1, (mem_allTiles.mp hu).1]
    rfl
  · obtain ⟨u, hu, hc, hrec⟩ :=
      h.exists_continues hS hr hp (List.mem_toFinset.mp he) (List.mem_toFinset.mp ht) hs
    exact ⟨u, List.mem_toFinset.mpr hu, hc, hrec⟩
  · obtain ⟨t, ht, hc, hs⟩ :=
      h.exists_arrives hS hr hp hd (List.mem_toFinset.mp he) (List.mem_toFinset.mp hu) hrec
    exact ⟨t, List.mem_toFinset.mpr ht, hc, hs⟩

end Model

end Fiction.Exact
