import Fiction.PhysicalDesign.OrthogonalNodes

/-!
# Drawable networks

The colours of the gates tell which ports they use. In a drawable network no two edges leave a node
through the same port. The gate that is visited last drives an output, whose column is still free
while the other columns are opened.
-/

namespace Fiction.Orthogonal

open GridDrawing TechnologyNetwork

/-- Every gate has a colour, siblings differ in theirs, and the output of a gate in the east of its
predecessor does not get in the way of another edge to the east. -/
structure Drawable {ntk : TechnologyNetwork} (V : FanoutView ntk) (T : ntk.TopoView)
    (ctn : ColoringContainer) : Prop where
  inputs_nodup : ntk.inputs.Nodup
  two_le : ∀ n ∈ ntk.inputs, 2 ≤ n
  numPis : ntk.numPis = ntk.inputs.length
  numPis_pos : 0 < ntk.numPis
  size : 2 * (nodes ntk T).length < 2 ^ 31
  input_fanout : ∀ n ∈ ntk.inputs, (V.fanouts n).length + (if ntk.isPo n then 1 else 0) ≤ 1
  output_fanout : ∀ n ∈ T.gates, ntk.isPo n = true → (V.fanouts n).length ≤ 1
  supported : ∀ n ∈ T.gates, Supported ntk n
  cone : ∀ n, ntk.IsGate n → InPoCone ntk n
  colored : ∀ n ∈ T.gates, (ctn.color n).isSome
  siblings : ∀ n, isConstant n = false → ∀ m ∈ V.fanouts n, ∀ m' ∈ V.fanouts n, m ≠ m' →
    ctn.color m ≠ ctn.color m'
  output_color : ∀ n ∈ T.gates, ntk.isPo n = true → ctn.color n = some .east →
    ∀ m ∈ V.fanouts n, ctn.color m ≠ some .east

section Drawable

variable {ntk : TechnologyNetwork} {V : FanoutView ntk} {T : ntk.TopoView}
  {ctn : ColoringContainer} {n m : ℕ} {pre suf : List ℕ}

theorem not_source_of_mem (hn : n ∈ T.gates) : ¬ ntk.IsSource n := T.sorted.not_known n hn

theorem isConstant_of_mem (hn : n ∈ T.gates) : isConstant n = false :=
  decide_eq_false fun hle => not_source_of_mem hn (.inl hle)

theorem mem_fanouts_of_mem (V : FanoutView ntk) (hn : n ∈ T.gates)
    (hm : m ∈ (ntk.node n).children) : n ∈ V.fanouts m :=
  (V.mem_fanouts m n).mpr ⟨⟨T.gates_lt n hn, not_source_of_mem hn⟩, hm⟩

theorem Drawable.mem_gates (h : Drawable V T ctn) (hm : m ∈ V.fanouts n) : m ∈ T.gates := by
  have hgate := ((V.mem_fanouts n m).mp hm).1
  exact (h.cone m hgate).mem_gates.resolve_left hgate.2

theorem Drawable.isConstant_of_input (h : Drawable V T ctn) (hn : n ∈ ntk.inputs) :
    isConstant n = false := by
  have := h.two_le n hn
  rw [isConstant, decide_eq_false_iff_not]
  omega

theorem Drawable.nodes_nodup (h : Drawable V T ctn) : (nodes ntk T).Nodup := by
  have hsource : ∀ n ∈ [0, 1] ++ ntk.inputs, ntk.IsSource n := by
    intro n hn
    rcases List.mem_append.mp hn with hn | hn
    · left
      simp only [List.mem_cons, List.not_mem_nil, or_false] at hn
      omega
    · exact .inr hn
  rw [nodes, List.nodup_append, List.nodup_append]
  refine ⟨⟨by decide, h.inputs_nodup, ?_⟩, T.sorted.nodup, ?_⟩
  · rintro a ha _ hb rfl
    have := h.two_le a hb
    simp only [List.mem_cons, List.not_mem_nil, or_false] at ha
    omega
  · rintro a ha _ hb rfl
    exact not_source_of_mem hb (hsource a ha)

theorem Drawable.notMem (h : Drawable V T ctn) (hl : nodes ntk T = pre ++ n :: suf) : n ∉ pre := by
  intro hmem
  have hnodup := h.nodes_nodup
  rw [hl] at hnodup
  exact (List.nodup_append.mp hnodup).2.2 n hmem n List.mem_cons_self rfl

theorem Drawable.fanout_mem (h : Drawable V T ctn) (hl : nodes ntk T = pre ++ n :: suf)
    (hm : m ∈ V.fanouts n) : m ∈ suf := by
  have hgate := h.mem_gates hm
  have hnot := h.notMem hl
  have hchild := ((V.mem_fanouts n m).mp hm).2
  have hmem : m ∈ pre ++ n :: suf := by
    rw [← hl]
    exact List.mem_append_right _ hgate
  rcases List.mem_append.mp hmem with hpre | hmem
  · obtain ⟨a, b, hsplit⟩ := List.append_of_mem hpre
    have hl' : nodes ntk T = a ++ m :: (b ++ n :: suf) := by rw [hl, hsplit]; simp
    have hn := fanin_mem_of_nodes hl' (not_source_of_mem hgate) hchild
    rw [hsplit] at hnot
    exact absurd (List.mem_append_left _ hn) hnot
  · apply (List.mem_cons.mp hmem).resolve_left
    rintro rfl
    exact hnot (fanin_mem_of_nodes hl (not_source_of_mem hgate) hchild)

theorem isPi_eq (h : Drawable V T ctn) : ntk.isPi n = true ↔ n ∈ ntk.inputs := by
  rw [isPi, h.numPis, List.take_length, List.contains_iff_mem]

theorem firstFanoutIs_eq_false (hnone : V.fanouts n = []) (c : Color) :
    firstFanoutIs ntk V ctn c n = false := by
  rw [firstFanoutIs, hnone]
  rfl

/-- With a single fan-out, its colour decides. -/
theorem firstFanoutIs_iff (hlen : (V.fanouts n).length ≤ 1) (hm : m ∈ V.fanouts n) (c : Color) :
    firstFanoutIs ntk V ctn c n = true ↔ ctn.color m = some c := by
  match hf : V.fanouts n, hlen, hm with
  | [m'], _, hm =>
    obtain rfl := List.mem_singleton.mp hm
    rw [firstFanoutIs, hf]
    exact decide_eq_true_iff

/-- The gate that is visited last drives an output and has no fan-outs. -/
theorem Drawable.exists_last (h : Drawable V T ctn) (hne : T.gates ≠ []) :
    ∃ l ∈ T.gates, (nodes ntk T).getLast? = some l ∧ ntk.isPo l = true ∧ V.fanouts l = [] := by
  obtain ⟨gs, l, hgates⟩ : ∃ gs l, T.gates = gs ++ [l] :=
    ⟨_, _, (List.dropLast_append_getLast hne).symm⟩
  have hl : l ∈ T.gates := by
    rw [hgates]
    exact List.mem_append_right _ (List.mem_singleton_self l)
  have hlast : T.gates.getLast? = some l := by rw [hgates, List.getLast?_concat]
  have hreader : ∀ m ∈ T.gates, l ∉ (ntk.node m).children := by
    intro m hm hchild
    obtain ⟨p, s, hsplit⟩ := List.append_of_mem hm
    have hmem := ((T.sorted.next hsplit).2.2 l hchild).resolve_left (not_source_of_mem hl)
    have hnodup := T.sorted.nodup
    rw [hsplit] at hnodup
    rw [hsplit, List.getLast?_append_of_ne_nil _ (List.cons_ne_nil m s)] at hlast
    exact (List.nodup_append.mp hnodup).2.2 l hmem l (List.mem_of_getLast? hlast) rfl
  refine ⟨l, hl, ?_, ?_, ?_⟩
  · rw [nodes, List.getLast?_append_of_ne_nil _ hne, hlast]
  · cases h.cone l ⟨T.gates_lt l hl, not_source_of_mem hl⟩ with
    | po ho =>
      rw [isPo, List.contains_iff_mem]
      exact ho
    | fanin hm hs hc => exact absurd hc (hreader _ (hm.mem_gates.resolve_left hs))
  · apply List.eq_nil_iff_forall_not_mem.mpr
    intro m hm
    exact hreader m (h.mem_gates hm) ((V.mem_fanouts l m).mp hm).2

theorem Drawable.isPi_of_mem (h : Drawable V T ctn) (hn : n ∈ T.gates) : ntk.isPi n = false := by
  rw [← Bool.not_eq_true, isPi_eq h]
  exact fun hin => not_source_of_mem hn (.inr hin)

theorem Drawable.columns_gate (h : Drawable V T ctn) (hn : n ∈ T.gates) :
    columns ntk V ctn n = (if ctn.color n = some .south then 0 else 1) +
      if ntk.isPo n ∧ isEasternPoOrientationAvailable ntk V ctn n then 1 else 0 := by
  rw [columns, isConstant_of_mem hn, if_neg Bool.false_ne_true, h.isPi_of_mem hn,
    if_neg Bool.false_ne_true]

/-- The output of a gate without fan-outs opens a column. -/
theorem Drawable.columns_last (h : Drawable V T ctn) (hn : n ∈ T.gates) (hpo : ntk.isPo n = true)
    (hnone : V.fanouts n = []) :
    columns ntk V ctn n = (if ctn.color n = some .south then 0 else 1) + 1 := by
  have heast : isEasternPoOrientationAvailable ntk V ctn n = true := by
    rw [isEasternPoOrientationAvailable, firstFanoutIs_eq_false hnone]
    rfl
  rw [h.columns_gate hn]
  exact congrArg _ (if_pos ⟨hpo, heast⟩)

theorem Drawable.openColumns_lt (h : Drawable V T ctn) (hl : nodes ntk T = pre ++ suf)
    (hgate : ∃ m ∈ T.gates, m ∈ suf) :
    openColumns ntk V ctn pre < openColumns ntk V ctn (nodes ntk T) := by
  obtain ⟨m, hm, hmem⟩ := hgate
  obtain ⟨l, hgate, hlast, hpo, hnone⟩ := h.exists_last (List.ne_nil_of_mem hm)
  rw [hl, List.getLast?_append_of_ne_nil _ (List.ne_nil_of_mem hmem)] at hlast
  have hle : columns ntk V ctn l ≤ openColumns ntk V ctn suf :=
    List.single_le_sum (fun _ _ => Nat.zero_le _) _
      (List.mem_map_of_mem (List.mem_of_getLast? hlast))
  rw [h.columns_last hgate hpo hnone] at hle
  rw [hl, openColumns_append]
  omega

theorem Drawable.openColumns_gate (h : Drawable V T ctn) (hl : nodes ntk T = pre ++ n :: suf)
    (hn : n ∈ T.gates) :
    openColumns ntk V ctn pre + (if ctn.color n = some .south then 0 else 1) <
      openColumns ntk V ctn (nodes ntk T) := by
  obtain ⟨l, hgate, hlast, hpo, hnone⟩ := h.exists_last (List.ne_nil_of_mem hn)
  rw [hl, List.getLast?_append_of_ne_nil _ (List.cons_ne_nil n suf)] at hlast
  have hl' : nodes ntk T = (pre ++ [n]) ++ suf := by rw [hl, List.append_assoc]; rfl
  have hcolumns : openColumns ntk V ctn (pre ++ [n]) =
      openColumns ntk V ctn pre + columns ntk V ctn n := by
    rw [openColumns_append]
    exact congrArg _ List.sum_singleton
  rcases List.mem_cons.mp (List.mem_of_getLast? hlast) with rfl | hmem
  · rw [hl', openColumns_append, hcolumns, h.columns_last hn hpo hnone]
    omega
  · have hlt := h.openColumns_lt hl' ⟨l, hgate, hmem⟩
    rw [hcolumns, h.columns_gate hn] at hlt
    omega

end Drawable

end Fiction.Orthogonal
