import Fiction.PhysicalDesign.Routing

/-!
# Wire lengths

Under a linear scheme connections ascend along the ranks, under any other one along the paths that
the constraints keep free of cycles. An edge is therefore passed on to one tile each if ranks direct
it or if it meets no other edge, and then its tile counter tells the number of its wire segments.
-/

namespace Fiction.Exact

variable {S : SpecificationNetwork} {p : ExactParams} {ar : AspectRatio} {v : Assignment}
  {ed : Edge} {t u : Tile} {n : ℕ}

section Heights

variable (h : CoreModel S p ar v) (hr : p.isRegularlyClocked = true)
  (hl : p.scheme.isLinearScheme = false)
include h hr hl

theorem CoreModel.tp_of_connected (ht : t ∈ allTiles ar) (hc : Connected p ar v t u) :
    v.tp t u = true := by
  have hu : u ∈ fanoutTiles p (freshCheckPoint ar) t := by
    rw [fanoutTiles_of_regular hr]
    exact hc.1
  exact h.generated.establishSubPaths hl t ht u hu (.inl ht) hc.2

omit hr in
theorem CoreModel.tp_trans {w : Tile} (ht : t ∈ allTiles ar) (hu : u ∈ allTiles ar)
    (hw : w ∈ allTiles ar) (h₁ : v.tp t u = true) (h₂ : v.tp u w = true) : v.tp t w = true := by
  have hirrefl := h.generated.eliminateCycles hl
  have hne : ∀ {a b : Tile}, a ∈ allTiles ar → v.tp a b = true → a ≠ b := by
    rintro a _ ha hab rfl
    rw [hirrefl a ha] at hab
    exact absurd hab Bool.false_ne_true
  exact h.generated.establishTransitivePaths hl t ht u hu (hne ht h₁) w hw (hne hu h₂) (.inl ht)
    ⟨h₁, h₂⟩

/-- The number of tiles from which a path leads to `t` ascends along the connections. -/
theorem CoreModel.card_paths_lt (ht : t ∈ allTiles ar) (hu : u ∈ allTiles ar)
    (hc : Connected p ar v t u) :
    ((allTiles ar).toFinset.filter fun w => v.tp w t = true).card <
      ((allTiles ar).toFinset.filter fun w => v.tp w u = true).card := by
  have htu := h.tp_of_connected hr hl ht hc
  refine Finset.card_lt_card (Finset.ssubset_iff_of_subset (fun w hw => ?_) |>.mpr ⟨t, ?_, ?_⟩)
  · obtain ⟨hw, hwt⟩ := Finset.mem_filter.mp hw
    exact Finset.mem_filter.mpr
      ⟨hw, h.tp_trans hl (List.mem_toFinset.mp hw) ht hu hwt htu⟩
  · exact Finset.mem_filter.mpr ⟨List.mem_toFinset.mpr ht, htu⟩
  · intro hmem
    have htt := (Finset.mem_filter.mp hmem).2
    rw [h.generated.eliminateCycles hl t ht] at htt
    exact Bool.false_ne_true htt

end Heights

variable (h : CoreModel S p ar v) (hS : (p.layout ar).Small)
  (hp : NamedScheme.Predefined p.arrangement p.scheme) (hr : p.isRegularlyClocked = true)
  (hk : p.scheme.Ranked p.arrangement)
include h hS hp hr hk

theorem CoreModel.exists_height : ∃ height : Tile → ℕ, ∀ t ∈ allTiles ar, ∀ u ∈ allTiles ar,
    Connected p ar v t u → height t < height u := by
  cases hl : p.scheme.isLinearScheme with
  | true =>
    refine ⟨flowRank p, fun t ht u _ hc => ?_⟩
    rw [flowRank_eq_succ hp hS hl hk ht hc.1]
    exact Nat.lt_succ_self _
  | false => exact ⟨_, fun t ht u hu hc => h.card_paths_lt hr hl ht hu hc⟩

omit hS hp hr hk in
/-- Without crossings, no two edges share a tile. -/
theorem CoreModel.edge_unique (hx : p.crossings = false) {e e' : Edge} (he : e ∈ placedEdges S p)
    (he' : e' ∈ placedEdges S p) (ht : t ∈ allTiles ar) (hv : v.te t e = true)
    (hv' : v.te t e' = true) : e = e' := by
  have hle := h.count_tes_le ht
  rw [hx, if_neg Bool.false_ne_true] at hle
  exact Counting.eq_of_count_le_one hle he he' hv hv'

omit hS hp hr hk in
theorem CoreModel.te_eq_false (hn : n ∈ placedNodes S p) (hed : ed ∈ placedEdges S p)
    (ht : t ∈ allTiles ar) (hv : v.tn t n = true) : v.te t ed = false :=
  Counting.count_map_eq_zero.mp (h.count_tes_eq_zero ht hn hv) ed hed

omit hS hp hr hk in
theorem CoreModel.exclusive (hx : p.crossings = false) {e e' : Edge} (he : e ∈ placedEdges S p)
    (he' : e' ∈ placedEdges S p) (ht : t ∈ allTiles ar) (hu : u ∈ allTiles ar) (hs : Sends v e t)
    (hs' : Sends v e' t) (hrec : Receives v e u) (hrec' : Receives v e' u) : e = e' := by
  have hsrc := (mem_placedNodes_of_mem_placedEdges he).1
  have hsrc' := (mem_placedNodes_of_mem_placedEdges he').1
  have htgt := (mem_placedNodes_of_mem_placedEdges he).2
  have htgt' := (mem_placedNodes_of_mem_placedEdges he').2
  have hclash : ∀ {n : ℕ} {ed : Edge} {t : Tile}, n ∈ placedNodes S p → ed ∈ placedEdges S p →
      t ∈ allTiles ar → v.tn t n = true → v.te t ed = true → e = e' := by
    intro n ed t hn hed ht hv hv'
    rw [h.te_eq_false hn hed ht hv] at hv'
    exact absurd hv' Bool.false_ne_true
  rcases hs with hs | hs <;> rcases hs' with hs' | hs'
  · rcases hrec with hrec | hrec <;> rcases hrec' with hrec' | hrec'
    · have h₁ := h.node_unique ht hsrc hsrc' hs hs'
      have h₂ := h.node_unique hu htgt htgt' hrec hrec'
      cases e
      cases e'
      exact congrArg₂ Edge.mk h₁ h₂
    · exact hclash htgt he' hu hrec hrec'
    · exact hclash htgt' he hu hrec' hrec
    · exact h.edge_unique hx he he' hu hrec hrec'
  · exact hclash hsrc he' ht hs hs'
  · exact hclash hsrc' he ht hs' hs
  · exact h.edge_unique hx he he' ht hs hs'

variable (hd : DistinctFanins S) (hx : p.scheme.isLinearScheme = false → p.crossings = false)
  (hed : ed ∈ placedEdges S p)
include hd hx hed

/-- An edge is passed on to one tile each if the scheme is linear or there are no crossings. -/
theorem CoreModel.passedOn : LabelledFlow.PassedOn (allTiles ar).toFinset (Connected p ar v)
    (Sends v) (Receives v) ed := by
  have hflow := h.labelledFlow hS hr (hp.proceeds hr) hd (List.ne_nil_of_mem hed)
  cases hl : p.scheme.isLinearScheme with
  | true =>
    have hrank : ∀ t ∈ (allTiles ar).toFinset, ∀ u ∈ (allTiles ar).toFinset,
        Connected p ar v t u → flowRank p u = flowRank p t + 1 := fun t ht u _ hc =>
      flowRank_eq_succ hp hS hl hk (List.mem_toFinset.mp ht) hc.1
    have hsrc : ∀ e ∈ (placedEdges S p).toFinset, ∀ t ∈ (allTiles ar).toFinset,
        Sends v e t → ¬ Receives v e t → t = tileOf ar v e.source := by
      intro e he t ht hs hrec
      rcases hs with hs | hs
      · exact (h.tileOf_eq (mem_placedNodes_of_mem_placedEdges (List.mem_toFinset.mp he)).1
          (List.mem_toFinset.mp ht) hs).symm
      · exact absurd (.inr hs) hrec
    exact hflow.passedOn_of_rank hrank hsrc (List.mem_toFinset.mpr hed)
  | false =>
    refine hflow.passedOn_of_exclusive (fun t ht u hu e he e' he' _ hs hs' hrec hrec' => ?_)
      (List.mem_toFinset.mpr hed)
    exact h.exclusive (hx hl) (List.mem_toFinset.mp he) (List.mem_toFinset.mp he')
      (List.mem_toFinset.mp ht) (List.mem_toFinset.mp hu) hs hs' hrec hrec'

theorem CoreModel.tileIteCounters_eq (hse : (p.hasSynchronizationElements &&
    p.synchronizationElements && !p.desynchronize) = false) :
    tileIteCounters p (freshCheckPoint ar) v ed = ((wires p ar v ed).length : ℤ) := by
  obtain ⟨height, hh⟩ := h.exists_height hS hp hr hk
  rw [h.length_wires hh hed hS hr (hp.proceeds hr) hd (h.passedOn hS hp hr hk hd hx hed),
    tileIteCounters, hse]
  have hsum : ∀ l : List Tile, (l.map fun t => if v.te t ed then (1 : ℤ) else 0).sum =
      ((l.map fun t => v.te t ed).count true : ℕ) := by
    intro l
    induction l with
    | nil => rfl
    | cons t l ih =>
      rw [List.map_cons, List.sum_cons, ih, List.map_cons, List.count_cons]
      cases v.te t ed <;> simp [Int.add_comm]
  exact hsum _

end Fiction.Exact
