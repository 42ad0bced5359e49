import Fiction.PhysicalDesign.Placement

/-!
# Connections in a model

The constraints fix the number of connections of a tile only towards sides with neighbours, and a
tile without incoming zones could host anything as far as they are concerned. Counting rules that
out: every tile sends as many connections as its node or its edges need, what is sent is received,
and the network needs no more connections on the outgoing than on the incoming side unless a gate
reads some node twice.
-/

namespace Fiction.Exact

variable {S : SpecificationNetwork} {p : ExactParams} {ar : AspectRatio} {v : Assignment}
  {t : Tile} {n : ℕ}

/-- No gate reads a node twice, constants excepted. -/
def DistinctFanins (S : SpecificationNetwork) : Prop :=
  ∀ n ∈ S.foreachGate, ((S.foreachFanin n).filter fun c => !TechnologyNetwork.isConstant c).Nodup
  deriving Decidable

/-- Every tile away from the eastern and the southern border has an incoming zone. -/
def FedIn (p : ExactParams) (ar : AspectRatio) : Prop :=
  ∀ t ∈ allTiles ar, t.x ≠ ar.x → t.y ≠ ar.y → (p.layout ar).incomingClockedZones t ≠ []

def Fed (p : ExactParams) : Prop := ∀ ar : AspectRatio, FedIn p ar

theorem exactly_iff {bs : List Bool} {k : ℕ} : exactly bs k ↔ bs.count true = k := by
  unfold exactly atleast atmost
  omega

section Load

variable (S p v)

/-- The number of connections that `t` needs on one side, where a node `n` needs `deg n`. -/
def load (deg : ℕ → ℕ) (t : Tile) : ℕ :=
  (∑ n ∈ (placedNodes S p).toFinset, if v.tn t n = true then deg n else 0) +
    (tes S p v t).count true

variable {S p v}

theorem load_of_forall_eq_false {deg : ℕ → ℕ} (h : ∀ n ∈ placedNodes S p, v.tn t n = false) :
    load S p v deg t = (tes S p v t).count true := by
  rw [load, Counting.load_eq_zero fun n hn => h n (List.mem_toFinset.mp hn), Nat.zero_add]

theorem CoreModel.load_of_tn (h : CoreModel S p ar v) (ht : t ∈ allTiles ar)
    (hn : n ∈ placedNodes S p) (hv : v.tn t n = true) (deg : ℕ → ℕ) :
    load S p v deg t = deg n := by
  rw [load, h.count_tes_eq_zero ht hn hv, Nat.add_zero]
  exact Counting.load_eq (List.mem_toFinset.mpr hn) hv fun c hc hvc =>
    h.node_unique ht (List.mem_toFinset.mp hc) hn hvc hv

/-- What a tile needs on one side is what it has there, given the constraints on that side. -/
theorem CoreModel.count_eq_load (h : CoreModel S p ar v) (ht : t ∈ allTiles ar) {cs : List Bool}
    {deg : ℕ → ℕ} (hnode : ∀ n ∈ placedNodes S p, v.tn t n = true → exactly cs (deg n))
    (hedge : ∀ k, 1 ≤ k → (tes S p v t).count true = k → exactly cs k)
    (hempty : (tns S p v t).count true = 0 → (tes S p v t).count true = 0 → cs.count true = 0) :
    cs.count true = load S p v deg t := by
  by_cases hv : ∃ n ∈ placedNodes S p, v.tn t n = true
  · obtain ⟨n, hn, hv⟩ := hv
    rw [h.load_of_tn ht hn hv]
    exact exactly_iff.mp (hnode n hn hv)
  · have hfalse : ∀ n ∈ placedNodes S p, v.tn t n = false := fun n hn =>
      Bool.eq_false_iff.mpr fun hvn => hv ⟨n, hn, hvn⟩
    rw [load_of_forall_eq_false hfalse]
    rcases Nat.eq_zero_or_pos ((tes S p v t).count true) with hz | hpos
    · rw [hz]
      exact hempty (Counting.count_map_eq_zero.mpr hfalse) hz
    · exact exactly_iff.mp (hedge _ hpos rfl)

end Load

theorem CoreModel.sum_load (h : CoreModel S p ar v) (deg : ℕ → ℕ) :
    ∑ t ∈ (allTiles ar).toFinset, load S p v deg t =
      ∑ n ∈ (placedNodes S p).toFinset, deg n +
        ∑ t ∈ (allTiles ar).toFinset, (tes S p v t).count true := by
  unfold load
  rw [Finset.sum_add_distrib, Counting.sum_load]
  intro n hn
  have hn := List.mem_toFinset.mp hn
  obtain ⟨t, ht, hv⟩ := h.exists_tile hn
  refine Finset.card_eq_one.mpr ⟨t, Finset.ext fun t' => ?_⟩
  simp only [Finset.mem_filter, List.mem_toFinset, Finset.mem_singleton]
  constructor
  · rintro ⟨ht', hv'⟩
    exact h.tile_unique hn ht' ht hv' hv
  · rintro rfl
    exact ⟨ht, hv⟩

theorem one_lt_length_elements (h : 1 < (placedNodes S p).length + (placedEdges S p).length)
    (t : Tile) : 1 < (tns S p v t ++ tes S p v t).length := by
  rwa [List.length_append, tns, tes, List.length_map, List.length_map]

section Sides

variable (h : CoreModel S p ar v) (ht : t ∈ allTiles ar)
include h ht

theorem CoreModel.connections : nodeConnections S p (freshCheckPoint ar) v true true t ∧
    edgeConnections S p (freshCheckPoint ar) v true true t ∧
      emptyConnections S p (freshCheckPoint ar) v true true t :=
  h.generated.defineNumberOfConnections.1 t (addedAndUpdatedTiles_fresh ▸ ht)

theorem CoreModel.exactly_of_count_tes {k : ℕ} (hk : 1 ≤ k) (hc : (tes S p v t).count true = k) :
    (acc p (freshCheckPoint ar) v t ≠ [] → exactly (acc p (freshCheckPoint ar) v t) k) ∧
      (iacc p (freshCheckPoint ar) v t ≠ [] → exactly (iacc p (freshCheckPoint ar) v t) k) := by
  have hlen : k ≤ (tes S p v t).length := hc ▸ List.count_le_length
  have hne : tes S p v t ≠ [] := List.ne_nil_of_length_pos (by omega)
  obtain ⟨ho, hi, hx⟩ := (h.connections ht).2.1 hne
  have hle := h.count_tes_le ht
  rcases Nat.eq_or_lt_of_le hk with rfl | hk
  · have hex : exactly (tes S p v t) 1 := exactly_iff.mpr hc
    exact ⟨fun hacc => of_mkAsIfSe_true (ho hacc) hex, fun hiacc => of_mkAsIfSe_true (hi hiacc) hex⟩
  · have hp : p.crossings = true := by
      by_contra hp
      rw [if_neg hp] at hle
      omega
    rw [if_pos hp] at hle
    obtain rfl : k = 2 := by omega
    have hx := hx hp
    unfold crossingConnections at hx
    split_ifs at hx
    · have hmost : (tes S p v t).count true ≤ 1 := of_mkAsIfSe_true hx
      omega
    · have hex : exactly (tes S p v t) 2 := exactly_iff.mpr hc
      exact ⟨fun _ => of_mkAsIfSe_true (hx hlen).1 hex, fun _ => of_mkAsIfSe_true (hx hlen).2 hex⟩

theorem CoreModel.count_eq_zero_of_empty (hlen : 1 < (tns S p v t ++ tes S p v t).length)
    (hne : acc p (freshCheckPoint ar) v t ++ iacc p (freshCheckPoint ar) v t ≠ [])
    (hn : (tns S p v t).count true = 0) (he : (tes S p v t).count true = 0) :
    (acc p (freshCheckPoint ar) v t).count true = 0 ∧
      (iacc p (freshCheckPoint ar) v t).count true = 0 := by
  have hiff := of_mkAsIfSe_true ((h.connections ht).2.2 hlen hne)
  unfold atmost at hiff
  rw [List.count_append, List.count_append, hn, he] at hiff
  have := hiff.mp le_rfl
  omega

theorem CoreModel.count_acc (hlen : 1 < (tns S p v t ++ tes S p v t).length)
    (hne : acc p (freshCheckPoint ar) v t ≠ []) :
    (acc p (freshCheckPoint ar) v t).count true = load S p v (networkOutDegree S p) t :=
  h.count_eq_load ht
    (fun n hn hv => of_mkAsIfSe_true (((h.connections ht).1 n hn).1 hne) hv)
    (fun _ hk hc => (h.exactly_of_count_tes ht hk hc).1 hne)
    fun hn he => (h.count_eq_zero_of_empty ht hlen (by simp [hne]) hn he).1

theorem CoreModel.count_iacc (hlen : 1 < (tns S p v t ++ tes S p v t).length)
    (hne : iacc p (freshCheckPoint ar) v t ≠ []) :
    (iacc p (freshCheckPoint ar) v t).count true = load S p v (networkInDegree S p) t :=
  h.count_eq_load ht
    (fun n hn hv => of_mkAsIfSe_true (((h.connections ht).1 n hn).2 hne) hv)
    (fun _ hk hc => (h.exactly_of_count_tes ht hk hc).2 hne)
    fun hn he => (h.count_eq_zero_of_empty ht hlen (by simp [hne]) hn he).2

end Sides

section Network

variable (hd : DistinctFanins S)
include hd

theorem nodup_placedFanins (hn : n ∈ S.foreachNode) :
    ((S.foreachFanin n).filter fun c => !skipConstOrIoNode S p c).Nodup := by
  by_cases hg : n ∈ S.foreachGate
  · refine (hd n hg).sublist (List.monotone_filter_right _ fun c hc => ?_)
    rw [Bool.not_eq_true', skipConstOrIoNode, Bool.or_eq_false_iff] at hc
    rw [hc.1]
    rfl
  · have hnil : S.foreachFanin n = [] :=
      List.eq_nil_iff_forall_not_mem.mpr fun c hc => hg (S.mem_gates_of_mem_foreachFanin hn hc)
    rw [hnil]
    exact List.nodup_nil

theorem networkInDegree_eq_card (hn : n ∈ placedNodes S p) : networkInDegree S p n =
    ((placedNodes S p).toFinset.filter fun c => c ∈ S.foreachFanin n).card := by
  have hview := (mem_placedNodes.mp hn).1
  rw [networkInDegree, List.countP_eq_length_filter,
    ← List.toFinset_card_of_nodup (nodup_placedFanins hd hview)]
  congr 1
  ext c
  simp only [List.mem_toFinset, List.mem_filter, Finset.mem_filter, mem_placedNodes,
    Bool.not_eq_true']
  exact ⟨fun hc => ⟨⟨S.mem_foreachNode_of_mem_foreachFanin hview hc.1, hc.2⟩, hc.1⟩,
    fun hc => ⟨hc.2, hc.1.2⟩⟩

omit hd in
theorem card_le_networkOutDegree (c : ℕ) :
    ((placedNodes S p).toFinset.filter fun n => c ∈ S.foreachFanin n).card ≤
      networkOutDegree S p c := by
  rw [networkOutDegree, List.countP_eq_length_filter,
    ← List.toFinset_card_of_nodup ((S.fanouts_nodup c).filter _)]
  refine Finset.card_le_card fun n hn => ?_
  simp only [List.mem_toFinset, List.mem_filter, Finset.mem_filter, mem_placedNodes,
    Bool.not_eq_true'] at hn ⊢
  exact ⟨S.mem_fanouts_of_mem_foreachFanin hn.1.1 hn.2, hn.1.2⟩

theorem sum_networkInDegree_le :
    ∑ n ∈ (placedNodes S p).toFinset, networkInDegree S p n ≤
      ∑ n ∈ (placedNodes S p).toFinset, networkOutDegree S p n := by
  calc ∑ n ∈ (placedNodes S p).toFinset, networkInDegree S p n
      = ∑ n ∈ (placedNodes S p).toFinset,
          ((placedNodes S p).toFinset.filter fun c => c ∈ S.foreachFanin n).card :=
        Finset.sum_congr rfl fun n hn => networkInDegree_eq_card hd (List.mem_toFinset.mp hn)
    _ = ∑ c ∈ (placedNodes S p).toFinset,
          ((placedNodes S p).toFinset.filter fun n => c ∈ S.foreachFanin n).card :=
        Finset.sum_card_bipartiteAbove_eq_sum_card_bipartiteBelow fun n c => c ∈ S.foreachFanin n
    _ ≤ ∑ c ∈ (placedNodes S p).toFinset, networkOutDegree S p c :=
        Finset.sum_le_sum fun c _ => card_le_networkOutDegree c

end Network

section Regular

variable (hS : (p.layout ar).Small) (hr : p.isRegularlyClocked = true)
  (h : CoreModel S p ar v)
include hr

theorem fanoutTiles_of_regular : fanoutTiles p (freshCheckPoint ar) t =
    (p.layout ar).outgoingClockedZones t := if_pos hr

theorem faninTiles_of_regular : faninTiles p (freshCheckPoint ar) t =
    (p.layout ar).incomingClockedZones t := if_pos hr

include hS h

/-- Tiles without outgoing zones host nothing that has to send. -/
theorem CoreModel.load_eq_zero_of_deadEnd (hp : NamedScheme.Proceeds p.scheme.clocking)
    (ht : t ∈ allTiles ar) (hnil : (p.layout ar).outgoingClockedZones t = []) :
    load S p v (networkOutDegree S p) t = 0 := by
  have hborder : ((p.layout ar).isAtEasternBorder t || (p.layout ar).isAtSouthernBorder t) =
      true := by
    by_contra hb
    rw [Bool.or_eq_true, not_or] at hb
    exact ClockedLayout.outgoingClockedZones_ne_nil hS hp ht
      (fun hx => hb.1 (decide_eq_true hx)) (fun hy => hb.2 (decide_eq_true hy)) hnil
  obtain ⟨hnode, hedge⟩ := h.preventInsufficiencies t ht
    (by rw [show layout p (freshCheckPoint ar) = p.layout ar from rfl, hborder]; rfl)
    (by rw [show layout p (freshCheckPoint ar) = p.layout ar from rfl, hborder]; rfl)
  have htes : (tes S p v t).count true = 0 :=
    Counting.count_map_eq_zero.mpr fun ed hed =>
      hedge hr ed hed (.inl (by
        rw [show layout p (freshCheckPoint ar) = p.layout ar from rfl, hnil]
        rfl))
  rw [load, htes, Nat.add_zero]
  refine Finset.sum_eq_zero fun n hn => ?_
  split_ifs with hv
  · by_contra hne
    have hins : insufficient S p (freshCheckPoint ar) t n := by
      rw [insufficient, if_pos hr, show layout p (freshCheckPoint ar) = p.layout ar from rfl, hnil]
      exact .inl (Nat.pos_of_ne_zero hne)
    rw [hnode n (List.mem_toFinset.mp hn) hins] at hv
    exact absurd hv Bool.false_ne_true
  · rfl

omit hS h in
theorem CoreModel.sum_acc_eq_sum_iacc (hS : (p.layout ar).Small) :
    ∑ t ∈ (allTiles ar).toFinset, (acc p (freshCheckPoint ar) v t).count true =
      ∑ t ∈ (allTiles ar).toFinset, (iacc p (freshCheckPoint ar) v t).count true := by
  have hin : ∀ {t : Tile}, t ∈ (allTiles ar).toFinset → (p.layout ar).Inside t :=
    fun ht => inside_of_mem_allTiles p (List.mem_toFinset.mp ht)
  have hz : ∀ {t : Tile}, t ∈ (allTiles ar).toFinset → t.z = 0 := fun ht => by
    rw [(mem_allTiles.mp (List.mem_toFinset.mp ht)).1]
    rfl
  have hmem : ∀ {t u : Tile}, t ∈ (allTiles ar).toFinset →
      u ∈ (p.layout ar).adjacentCoordinates t → u ∈ (allTiles ar).toFinset := fun ht hu => by
    obtain ⟨hiu, hzu⟩ := CoordinateLayout.adjacentCoordinates_inside (hin ht) hu
    exact List.mem_toFinset.mpr (CoordinateLayout.mem_foreachGroundTile_of_inside hiu
      (hzu.trans (hz ht)))
  simp only [acc, iacc, fanoutTiles_of_regular hr, faninTiles_of_regular hr]
  refine Counting.sum_count_comm
    (fun t ht => ClockedLayout.outgoingClockedZones_nodup hS (hin ht))
    (fun t ht => ClockedLayout.incomingClockedZones_nodup hS (hin ht))
    (fun t ht u hu => hmem ht (List.mem_filter.mp hu).1)
    (fun t ht u hu => hmem ht (List.mem_filter.mp hu).1)
    (fun t ht u hu => ClockedLayout.mem_incomingClockedZones_comm hS (hin ht) (hin hu) ?_) v.tc
  rw [hz ht, hz hu]

theorem CoreModel.count_acc_eq_load (hp : NamedScheme.Proceeds p.scheme.clocking)
    (hlen : 1 < (placedNodes S p).length + (placedEdges S p).length) (ht : t ∈ allTiles ar) :
    (acc p (freshCheckPoint ar) v t).count true = load S p v (networkOutDegree S p) t := by
  by_cases hne : acc p (freshCheckPoint ar) v t = []
  · rw [hne, h.load_eq_zero_of_deadEnd hS hr hp ht
      ((fanoutTiles_of_regular hr).symm.trans (List.map_eq_nil_iff.mp hne))]
    rfl
  · exact h.count_acc ht (one_lt_length_elements hlen t) hne

omit hS hr in
theorem CoreModel.count_iacc_le_load
    (hlen : 1 < (placedNodes S p).length + (placedEdges S p).length) (ht : t ∈ allTiles ar) :
    (iacc p (freshCheckPoint ar) v t).count true ≤ load S p v (networkInDegree S p) t := by
  by_cases hne : iacc p (freshCheckPoint ar) v t = []
  · rw [hne]
    exact Nat.zero_le _
  · exact (h.count_iacc ht (one_lt_length_elements hlen t) hne).le

theorem CoreModel.sum_networkOutDegree_le (hp : NamedScheme.Proceeds p.scheme.clocking)
    (hlen : 1 < (placedNodes S p).length + (placedEdges S p).length) :
    ∑ n ∈ (placedNodes S p).toFinset, networkOutDegree S p n ≤
      ∑ n ∈ (placedNodes S p).toFinset, networkInDegree S p n := by
  have hle : ∑ t ∈ (allTiles ar).toFinset, load S p v (networkOutDegree S p) t ≤
      ∑ t ∈ (allTiles ar).toFinset, load S p v (networkInDegree S p) t := by
    calc ∑ t ∈ (allTiles ar).toFinset, load S p v (networkOutDegree S p) t
        = ∑ t ∈ (allTiles ar).toFinset, (acc p (freshCheckPoint ar) v t).count true :=
          Finset.sum_congr rfl fun t ht =>
            (h.count_acc_eq_load hS hr hp hlen (List.mem_toFinset.mp ht)).symm
      _ = ∑ t ∈ (allTiles ar).toFinset, (iacc p (freshCheckPoint ar) v t).count true :=
          CoreModel.sum_acc_eq_sum_iacc hr hS
      _ ≤ ∑ t ∈ (allTiles ar).toFinset, load S p v (networkInDegree S p) t :=
          Finset.sum_le_sum fun t ht => h.count_iacc_le_load hlen (List.mem_toFinset.mp ht)
  rw [h.sum_load, h.sum_load] at hle
  exact Nat.le_of_add_le_add_right hle

/-- Every tile receives as many connections as its node or its edges need. -/
theorem CoreModel.load_eq_count_iacc (hp : NamedScheme.Proceeds p.scheme.clocking)
    (hd : DistinctFanins S) (hlen : 1 < (placedNodes S p).length + (placedEdges S p).length)
    (ht : t ∈ allTiles ar) :
    load S p v (networkInDegree S p) t = (iacc p (freshCheckPoint ar) v t).count true := by
  have hin : ∀ t ∈ (allTiles ar).toFinset, (iacc p (freshCheckPoint ar) v t).count true ≤
      load S p v (networkInDegree S p) t := fun t ht =>
    h.count_iacc_le_load hlen (List.mem_toFinset.mp ht)
  -- the sums of both sides agree, so they agree for each tile
  have hsum : ∑ t ∈ (allTiles ar).toFinset, (iacc p (freshCheckPoint ar) v t).count true =
      ∑ t ∈ (allTiles ar).toFinset, load S p v (networkInDegree S p) t := by
    refine le_antisymm (Finset.sum_le_sum hin) ?_
    rw [← CoreModel.sum_acc_eq_sum_iacc hr hS, Finset.sum_congr rfl fun t ht =>
      h.count_acc_eq_load hS hr hp hlen (List.mem_toFinset.mp ht), h.sum_load, h.sum_load]
    exact Nat.add_le_add_right (sum_networkInDegree_le hd) _
  exact ((Finset.sum_eq_sum_iff_of_le hin).mp hsum t (List.mem_toFinset.mpr ht)).symm

omit hS h hr in
theorem mem_placedEdges_of_mem_foreachFanin {c : ℕ} (hn : n ∈ placedNodes S p)
    (hc : c ∈ S.foreachFanin n) (hk : skipConstOrIoNode S p c = false) :
    ⟨c, n⟩ ∈ placedEdges S p := by
  obtain ⟨hview, hskip⟩ := mem_placedNodes.mp hn
  exact mem_placedEdges.mpr ⟨SpecificationNetwork.mem_foreachEdge.mpr ⟨hview, hc⟩,
    skipConstOrIoEdge_eq_false.mpr ⟨hk, hskip⟩⟩

omit hS h hr in
/-- A single placed node without edges receives nothing. -/
theorem one_lt_length_of_networkInDegree_pos (hn : n ∈ placedNodes S p)
    (hpos : 0 < networkInDegree S p n) :
    1 < (placedNodes S p).length + (placedEdges S p).length := by
  obtain ⟨c, hc, hk⟩ := List.countP_pos_iff.mp hpos
  have hed := mem_placedEdges_of_mem_foreachFanin hn hc (by rwa [Bool.not_eq_true'] at hk)
  have h₁ := List.length_pos_of_mem hn
  have h₂ := List.length_pos_of_mem hed
  omega

omit hS in
theorem CoreModel.networkOutDegree_le (ht : t ∈ allTiles ar) (hn : n ∈ placedNodes S p)
    (hv : v.tn t n = true) (hne : (p.layout ar).outgoingClockedZones t ≠ []) :
    networkOutDegree S p n ≤ ((p.layout ar).outgoingClockedZones t).length := by
  have hne : acc p (freshCheckPoint ar) v t ≠ [] := by
    rwa [acc, fanoutTiles_of_regular hr, Ne, List.map_eq_nil_iff]
  have hcount := exactly_iff.mp (of_mkAsIfSe_true (((h.connections ht).1 n hn).1 hne) hv)
  have hle : (acc p (freshCheckPoint ar) v t).count true ≤ _ := List.count_le_length
  rwa [hcount, acc, List.length_map, fanoutTiles_of_regular hr] at hle

omit hS in
/-- A node has enough incoming zones if there are any. -/
theorem CoreModel.networkInDegree_le (ht : t ∈ allTiles ar) (hn : n ∈ placedNodes S p)
    (hv : v.tn t n = true) (hne : (p.layout ar).incomingClockedZones t ≠ []) :
    networkInDegree S p n ≤ ((p.layout ar).incomingClockedZones t).length := by
  have hne : iacc p (freshCheckPoint ar) v t ≠ [] := by
    rwa [iacc, faninTiles_of_regular hr, Ne, List.map_eq_nil_iff]
  have hcount := exactly_iff.mp (of_mkAsIfSe_true (((h.connections ht).1 n hn).2 hne) hv)
  have hle : (iacc p (freshCheckPoint ar) v t).count true ≤ _ := List.count_le_length
  rwa [hcount, iacc, List.length_map, faninTiles_of_regular hr] at hle

theorem CoreModel.sufficient_of_fed (hp : NamedScheme.Proceeds p.scheme.clocking)
    (hd : FedIn p ar) :
    Sufficient S p ar v where
  node t ht hx hy n hn hins := by
    by_contra hv
    rw [Bool.not_eq_false] at hv
    rw [insufficient, if_pos hr] at hins
    rcases hins with hlt | hlt
    · have hne := ClockedLayout.outgoingClockedZones_ne_nil hS hp ht hx hy
      exact absurd hlt (Nat.not_lt.mpr (h.networkOutDegree_le hr ht hn hv hne))
    · exact absurd hlt (Nat.not_lt.mpr (h.networkInDegree_le hr ht hn hv (hd t ht hx hy)))
  edge _ t ht hx hy ed hed hz := by
    rcases hz with hz | hz
    · exact absurd (List.eq_nil_of_length_eq_zero hz)
        (ClockedLayout.outgoingClockedZones_ne_nil hS hp ht hx hy)
    · exact absurd (List.eq_nil_of_length_eq_zero hz) (hd t ht hx hy)

theorem CoreModel.sufficient_of_regular (hp : NamedScheme.Proceeds p.scheme.clocking)
    (hd : DistinctFanins S) : Sufficient S p ar v where
  node t ht hx hy n hn hins := by
    by_contra hv
    rw [Bool.not_eq_false] at hv
    rw [insufficient, if_pos hr] at hins
    rcases hins with hlt | hlt
    · have hne := ClockedLayout.outgoingClockedZones_ne_nil hS hp ht hx hy
      exact absurd hlt (Nat.not_lt.mpr (h.networkOutDegree_le hr ht hn hv hne))
    · have hlen := one_lt_length_of_networkInDegree_pos hn (Nat.zero_le _ |>.trans_lt hlt)
      have hload := h.load_eq_count_iacc hS hr hp hd hlen ht
      have hle : (iacc p (freshCheckPoint ar) v t).count true ≤ _ := List.count_le_length
      rw [← hload, h.load_of_tn ht hn hv, iacc, List.length_map, faninTiles_of_regular hr] at hle
      exact absurd hlt (Nat.not_lt.mpr hle)
  edge _ t ht hx hy ed hed hz := by
    have h₁ := List.length_pos_of_mem (mem_placedNodes_of_mem_placedEdges hed).1
    have h₂ := List.length_pos_of_mem hed
    have hnil : (p.layout ar).incomingClockedZones t = [] :=
      List.eq_nil_of_length_eq_zero (hz.resolve_left fun hz =>
        ClockedLayout.outgoingClockedZones_ne_nil hS hp ht hx hy (List.eq_nil_of_length_eq_zero hz))
    have hload := h.load_eq_count_iacc hS hr hp hd (by omega) ht
    rw [iacc, faninTiles_of_regular hr, hnil, load] at hload
    exact Counting.count_map_eq_zero.mp (Nat.eq_zero_of_add_eq_zero_left hload) ed hed

end Regular

section Irregular

variable (hr : p.isRegularlyClocked = false) (h : CoreModel S p ar v)
include hr

theorem fanoutTiles_of_irregular : fanoutTiles p (freshCheckPoint ar) t =
    (p.layout ar).adjacentCoordinates t := if_neg (Bool.eq_false_iff.mp hr)

theorem faninTiles_of_irregular : faninTiles p (freshCheckPoint ar) t =
    (p.layout ar).adjacentCoordinates t := if_neg (Bool.eq_false_iff.mp hr)

include h

/-- No connection goes both ways. -/
theorem CoreModel.tc_eq_false (hl : p.scheme.isLinearScheme = false) (hS : (p.layout ar).Small)
    {t u : Tile} (ht : t ∈ allTiles ar) (hu : u ∈ (p.layout ar).adjacentCoordinates t)
    (hv : v.tc t u = true) : v.tc u t = false := by
  have hin := inside_of_mem_allTiles p ht
  obtain ⟨hinu, hz⟩ := CoordinateLayout.adjacentCoordinates_inside hin hu
  have hut : t ∈ (p.layout ar).adjacentCoordinates u :=
    (CoordinateLayout.adjacentCoordinates_comm hS hin hinu hz).mp hu
  have hz0 : t.z = 0 := by rw [(mem_allTiles.mp ht).1]; rfl
  have hu' : u ∈ allTiles ar := CoordinateLayout.mem_foreachGroundTile_of_inside hinu (hz.trans hz0)
  by_contra hv'
  rw [Bool.not_eq_false] at hv'
  have hg := h.generated
  have htu := hg.establishSubPaths hl t ht u (fanoutTiles_of_irregular hr ▸ hu) (.inl ht) hv
  have hut := hg.establishSubPaths hl u hu' t (fanoutTiles_of_irregular hr ▸ hut) (.inl hu') hv'
  have hcycle : v.tp t t = true := by
    by_cases heq : t = u
    · rwa [← heq] at htu
    · exact hg.establishTransitivePaths hl t ht u hu' heq t ht (Ne.symm heq) (.inl ht) ⟨htu, hut⟩
  exact absurd hcycle (Bool.eq_false_iff.mp (hg.eliminateCycles hl t ht))

theorem CoreModel.sufficient_of_irregular (hl : p.scheme.isLinearScheme = false)
    (hS : (p.layout ar).Small) : Sufficient S p ar v where
  node t ht hx hy n hn hins := by
    by_contra hv
    rw [Bool.not_eq_false] at hv
    rw [insufficient, if_neg (Bool.eq_false_iff.mp hr)] at hins
    have hne : (p.layout ar).adjacentCoordinates t ≠ [] := by
      obtain ⟨heq, hxle, hyle⟩ := mem_allTiles.mp ht
      have hin := inside_of_mem_allTiles p ht
      refine List.ne_nil_of_mem (a := .at2 (t.x + 1) t.y)
        (CoordinateLayout.mem_adjacentCoordinates_of_cardinal hS hin ?_ ?_ (.inl ⟨rfl, .inl rfl⟩))
      · exact ⟨rfl, show t.x + 1 ≤ ar.x by omega, hyle, Nat.zero_le _⟩
      · rw [heq]
        rfl
    have hacc : acc p (freshCheckPoint ar) v t ≠ [] := by
      rwa [acc, fanoutTiles_of_irregular hr, Ne, List.map_eq_nil_iff]
    have hiacc : iacc p (freshCheckPoint ar) v t ≠ [] := by
      rwa [iacc, faninTiles_of_irregular hr, Ne, List.map_eq_nil_iff]
    have hout := exactly_iff.mp (of_mkAsIfSe_true (((h.connections ht).1 n hn).1 hacc) hv)
    have hin := exactly_iff.mp (of_mkAsIfSe_true (((h.connections ht).1 n hn).2 hiacc) hv)
    have hle := Counting.count_add_count_le (l := (p.layout ar).adjacentCoordinates t)
      (f := v.tc t) (g := fun u => v.tc u t) fun u hu => h.tc_eq_false hr hl hS ht hu
    rw [acc, fanoutTiles_of_irregular hr] at hout
    rw [iacc, faninTiles_of_irregular hr] at hin
    rw [hout, hin] at hle
    exact absurd hins (Nat.not_lt.mpr hle)
  edge hp := absurd hp (Bool.eq_false_iff.mp hr)

end Irregular

/-- For the predefined clocking schemes, no tile away from the borders lacks neighbours. -/
theorem CoreModel.sufficient (h : CoreModel S p ar v)
    (hp : NamedScheme.Predefined p.arrangement p.scheme)
    (hd : p.isRegularlyClocked = true → DistinctFanins S ∨ FedIn p ar) (hS : (p.layout ar).Small) :
    Sufficient S p ar v := by
  cases hr : p.isRegularlyClocked with
  | true =>
    rcases hd hr with hd | hd
    · exact h.sufficient_of_regular hS hr (hp.proceeds hr) hd
    · exact h.sufficient_of_fed hS hr (hp.proceeds hr) hd
  | false => exact h.sufficient_of_irregular hr (hp.isLinearScheme_eq_false hr) hS

end Fiction.Exact
