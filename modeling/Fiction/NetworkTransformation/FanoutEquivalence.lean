import Fiction.Library.TransitionSystem
import Fiction.NetworkTransformation.ConversionEquivalence
import Fiction.NetworkTransformation.FanoutInvariant

/-!
# Fan-out substitution preserves the functions of the outputs

The run distributes one group of uses for each gate and each output. All groups of a node together
do not exceed its fan-out size, so its tree never runs out of slots.
-/

namespace Fiction.FanoutSubstitution

open TechnologyNetwork FirstFit

/-- What each gate and each output uses, in the order of the run. -/
def useGroups (ntk : TechnologyNetwork) (gates : List ℕ) : List (List ℕ) :=
  gates.map (fun n => (ntk.node n).children) ++ ntk.outputs.map fun o => [o]

/-- The sizes of the groups of uses of node `n`. -/
def usesOf (groups : List (List ℕ)) (n : ℕ) : List ℕ :=
  groups.flatMap fun group => batch (group.count n)

theorem usesOf_append (groups groups' : List (List ℕ)) (n : ℕ) :
    usesOf (groups ++ groups') n = usesOf groups n ++ usesOf groups' n :=
  List.flatMap_append

theorem sum_usesOf (groups : List (List ℕ)) (n : ℕ) :
    (usesOf groups n).sum = (groups.map (List.count n)).sum := by
  induction groups with
  | nil => rfl
  | cons group groups ih =>
    rw [usesOf] at ih ⊢
    rw [List.flatMap_cons, List.sum_append, sum_batch, ih, List.map_cons, List.sum_cons]

section Room

variable {ntk : TechnologyNetwork}

theorem sum_usesOf_useGroups (gates : List ℕ) (n : ℕ) :
    (usesOf (useGroups ntk gates) n).sum =
      (gates.map fun m => (ntk.node m).children.count n).sum + ntk.outputs.count n := by
  have houts : ((ntk.outputs.map fun o => [o]).map (List.count n)).sum = ntk.outputs.count n := by
    induction ntk.outputs with
    | nil => rfl
    | cons o outs ih =>
      rw [List.map_cons, List.map_cons, List.sum_cons, ih, List.count_singleton, List.count_cons,
        Nat.add_comm]
  rw [sum_usesOf, useGroups, List.map_append, List.sum_append, houts, List.map_map]
  rfl

theorem sum_usesOf_useGroups_le {gates : List ℕ} (hnd : gates.Nodup)
    (hlt : ∀ n ∈ gates, n < ntk.size) (n : ℕ) :
    (usesOf (useGroups ntk gates) n).sum ≤ ntk.fanoutSize n := by
  rw [sum_usesOf_useGroups]
  exact Nat.add_le_add_right (ntk.sum_map_gates_le hnd hlt fun x => x.children.count n) _

theorem sum_usesOf_add_count_le {gates : List ℕ} (hnd : gates.Nodup)
    (hlt : ∀ n ∈ gates, n < ntk.size) {pre suf : List (List ℕ)} {group : List ℕ}
    (h : useGroups ntk gates = pre ++ group :: suf) (n : ℕ) :
    (usesOf pre n).sum + group.count n ≤ ntk.fanoutSize n := by
  have hle := sum_usesOf_useGroups_le hnd hlt n
  rw [h, sum_usesOf, List.map_append, List.sum_append, List.map_cons, List.sum_cons,
    ← sum_usesOf] at hle
  omega

end Room

section Phases

variable {ntk : TechnologyNetwork} {ps : FanoutSubstitutionParams} {gates placed outs : List ℕ}
  {s : State} {g : Ghost}

theorem Invariant.generateFanoutTree {n : ℕ} (h : Invariant ntk ps gates placed outs s g)
    (hd : 2 ≤ ps.degree.toNat) (hn : n ∈ placed) (ht : g.trees n = 0) (hu : g.uses n = []) :
    ∃ s' g', generateFanoutTree ntk ps s n = some s' ∧ Invariant ntk ps gates placed outs s' g' ∧
      g'.uses = g.uses ∧ g'.trees = Function.update g.trees n (treeSize ntk ps n) := by
  rw [generateFanoutTree_eq]
  rcases Nat.eq_zero_or_pos (treeSize ntk ps n) with hz | hpos
  · refine ⟨s, g, ?_, h, rfl, ?_⟩
    · rw [hz]
      rfl
    · rw [hz, ← ht, Function.update_eq_self]
  · obtain ⟨s', hs', -, h'⟩ := h.growTree hd hn ht hu hpos
    exact ⟨s', _, hs', h', rfl, rfl⟩

/-- The state between two steps of the run, with the groups of uses that were distributed. -/
def Reached (ntk : TechnologyNetwork) (ps : FanoutSubstitutionParams) (gates placed outs : List ℕ)
    (groups : List (List ℕ)) (s : State) : Prop :=
  ∃ g : Ghost, Invariant ntk ps gates placed outs s g ∧
    (∀ n ∈ placed, g.trees n = treeSize ntk ps n) ∧ ∀ n, g.uses n = usesOf groups n

theorem reached_inputs [CopyInitializer] (hw : ntk.WellFormed) (hd : 2 ≤ ps.degree.toNat) :
    ∃ s, ntk.inputs.foldlM (FanoutSubstitution.generateFanoutTree ntk ps) (initialState ntk) =
      some s ∧ Reached ntk ps gates ntk.inputs [] [] s := by
  let I (pre : List ℕ) (s : State) : Prop := ∃ g : Ghost,
    Invariant ntk ps gates ntk.inputs [] s g ∧ (∀ n, g.uses n = []) ∧
      ∀ n, g.trees n = if n ∈ pre then treeSize ntk ps n else 0
  have hstart : I [] (initialState ntk) :=
    ⟨_, initialState_invariant hw gates, fun _ => rfl, fun _ => rfl⟩
  have hstep : ∀ pre n suf s, ntk.inputs = pre ++ n :: suf → I pre s →
      ∃ s', FanoutSubstitution.generateFanoutTree ntk ps s n = some s' ∧ I (pre ++ [n]) s' := by
    rintro pre n suf s hls ⟨g, hg, hu, ht⟩
    have hn : n ∈ ntk.inputs := by
      rw [hls]
      exact List.mem_append_right _ List.mem_cons_self
    have hpre : n ∉ pre := by
      have hnd := hls ▸ hw.inputs_nodup
      exact fun hm => (List.nodup_append.mp hnd).2.2 n hm n List.mem_cons_self rfl
    obtain ⟨s', g', hs', hg', hu', ht'⟩ :=
      hg.generateFanoutTree hd hn ((ht n).trans (if_neg hpre)) (hu n)
    refine ⟨s', hs', g', hg', fun m => hu' ▸ hu m, fun m => ?_⟩
    rw [ht']
    by_cases hm : m = n
    · subst hm
      simp
    · simp [ht, hm]
  obtain ⟨s, hs, g, hg, hu, ht⟩ := exists_foldlM hstep hstart
  exact ⟨s, hs, g, hg, fun n hn => (ht n).trans (if_pos hn), hu⟩

theorem Reached.substituteGate {groups : List (List ℕ)} {n : ℕ}
    (h : Reached ntk ps gates placed outs groups s) (hw : ntk.WellFormed)
    (hd : 2 ≤ ps.degree.toNat) (hg : n ∈ gates) (hn : n ∉ placed) (h2 : 2 ≤ n)
    (hne : (ntk.node n).children ≠ []) (hold : ∀ c ∈ (ntk.node n).children, c ≤ 1 ∨ c ∈ placed)
    (hroom : ∀ m, (usesOf groups m).sum + (ntk.node n).children.count m ≤ ntk.fanoutSize m) :
    ∃ s', substituteGate ntk ps s n = some s' ∧
      Reached ntk ps gates (placed ++ [n]) outs (groups ++ [(ntk.node n).children]) s' := by
  obtain ⟨g, hI, ht, hu⟩ := h
  obtain ⟨s₁, hs₁, hI₁⟩ := hI.cloneGate hd hw.fanoutSize_lt ht hg hn h2 hne hold
    fun m => hu m ▸ hroom m
  obtain ⟨ht₁, hu₁⟩ := hI.not_used hold hn h2
  obtain ⟨s₂, g₂, hs₂, hI₂, hu₂, ht₂⟩ :=
    hI₁.generateFanoutTree hd (List.mem_append_right _ (List.mem_singleton_self n)) ht₁ hu₁
  refine ⟨s₂, ?_, g₂, hI₂, fun m hm => ?_, fun m => ?_⟩
  · rw [FanoutSubstitution.substituteGate, hs₁]
    exact hs₂
  · rw [ht₂]
    rcases List.mem_append.mp hm with hm | hm
    · exact (Function.update_of_ne (ne_of_mem_of_not_mem hm hn) ..).trans (ht m hm)
    · obtain rfl := List.mem_singleton.mp hm
      exact Function.update_self ..
  · rw [hu₂, usesOf_append, ← hu m, usesOf, List.flatMap_singleton]
    rfl

theorem Reached.createOutput {groups : List (List ℕ)} {o : ℕ}
    (h : Reached ntk ps gates placed outs groups s) (hw : ntk.WellFormed)
    (hd : 2 ≤ ps.degree.toNat) (hold : o ≤ 1 ∨ o ∈ placed)
    (hroom : ∀ m, (usesOf groups m).sum + [o].count m ≤ ntk.fanoutSize m) :
    (outs.length < ntk.numPos → ∃ s', substitutePo ps s o = some s' ∧
      Reached ntk ps gates placed (outs ++ [o]) (groups ++ [[o]]) s') ∧
    (ntk.numPos ≤ outs.length → ∃ s', substituteRi ps s o = some s' ∧
      Reached ntk ps gates placed (outs ++ [o]) (groups ++ [[o]]) s') := by
  obtain ⟨g, hI, ht, hu⟩ := h
  obtain ⟨x, hx, hout⟩ := hI.createOutput hd hw.fanoutSize_lt ht hold fun m => hu m ▸ hroom m
  have hu' : ∀ m, (g.use s.substituted.size 0 [o]).uses m = usesOf (groups ++ [[o]]) m := by
    intro m
    rw [usesOf_append, ← hu m, usesOf, List.flatMap_singleton]
    rfl
  refine ⟨fun hlt => ?_, fun hle => ?_⟩
  · have hpos : s.substituted.numPos + 1 = min (outs.length + 1) ntk.numPos := by
      rw [hI.numPos]
      omega
    exact ⟨_, by rw [substitutePo, hx]; rfl, _, hout (s.substituted.createPo x) rfl rfl rfl rfl hpos,
      ht, hu'⟩
  · have hpos : s.substituted.numPos = min (outs.length + 1) ntk.numPos := by
      rw [hI.numPos]
      omega
    exact ⟨_, by rw [substituteRi, hx]; rfl, _, hout (s.substituted.createRi x) rfl rfl rfl rfl hpos,
      ht, hu'⟩

end Phases

section Run

variable {ntk : TechnologyNetwork} {ps : FanoutSubstitutionParams} {s : State}

/-- The state after some gates and outputs. -/
def ReachedAlong (ps : FanoutSubstitutionParams) (V : ntk.TopoView) (pre outs : List ℕ)
    (s : State) : Prop :=
  Reached ntk ps V.gates (ntk.inputs ++ pre) outs
    (pre.map (fun n => (ntk.node n).children) ++ outs.map fun o => [o]) s

theorem mem_of_isSource_or {c : ℕ} {pre : List ℕ} (hc : ntk.IsSource c ∨ c ∈ pre) :
    c ≤ 1 ∨ c ∈ ntk.inputs ++ pre := by
  rw [List.mem_append]
  rcases hc with (hc | hc) | hc
  · exact .inl hc
  · exact .inr (.inl hc)
  · exact .inr (.inr hc)

theorem ReachedAlong.substituteGate {V : ntk.TopoView} {pre suf : List ℕ} {n : ℕ}
    (hV : V.gates = pre ++ n :: suf) (h : ReachedAlong ps V pre [] s) (hw : ntk.WellFormed)
    (hd : 2 ≤ ps.degree.toNat) :
    ∃ s', substituteGate ntk ps s n = some s' ∧ ReachedAlong ps V (pre ++ [n]) [] s' := by
  obtain ⟨hn, hnew, hdeps⟩ := V.sorted.next hV
  obtain ⟨hns, hpre⟩ := not_or.mp hnew
  obtain ⟨hc, hi⟩ := not_or.mp hns
  have hnp : n ∉ ntk.inputs ++ pre := by
    rw [List.mem_append, not_or]
    exact ⟨hi, hpre⟩
  have hroom := @sum_usesOf_add_count_le ntk V.gates V.sorted.nodup V.gates_lt
    (pre.map fun n => (ntk.node n).children)
    (suf.map (fun n => (ntk.node n).children) ++ ntk.outputs.map fun o => [o])
    (ntk.node n).children (by rw [useGroups, hV]; simp)
  simp only [ReachedAlong, List.map_nil, List.append_nil, List.map_append] at h ⊢
  rw [← List.append_assoc]
  exact h.substituteGate hw hd hn hnp (by omega)
    (hw.children_ne_nil n (by omega) (V.gates_lt n hn) hi)
    (fun c hc => mem_of_isSource_or (hdeps c hc)) hroom

theorem ReachedAlong.createOutput {V : ntk.TopoView} {outs suf : List ℕ} {o : ℕ}
    (ho : ntk.outputs = outs ++ o :: suf) (h : ReachedAlong ps V V.gates outs s)
    (hw : ntk.WellFormed) (hd : 2 ≤ ps.degree.toNat) :
    (outs.length < ntk.numPos → ∃ s', substitutePo ps s o = some s' ∧
      ReachedAlong ps V V.gates (outs ++ [o]) s') ∧
    (ntk.numPos ≤ outs.length → ∃ s', substituteRi ps s o = some s' ∧
      ReachedAlong ps V V.gates (outs ++ [o]) s') := by
  have hmem : o ∈ ntk.outputs := by
    rw [ho]
    exact List.mem_append_right _ List.mem_cons_self
  have hroom := @sum_usesOf_add_count_le ntk V.gates V.sorted.nodup V.gates_lt
    (V.gates.map (fun n => (ntk.node n).children) ++ outs.map fun o => [o])
    (suf.map fun o => [o]) [o] (by rw [useGroups, ho]; simp)
  simp only [ReachedAlong, List.map_append, ← List.append_assoc]
  exact Reached.createOutput h hw hd (mem_of_isSource_or (V.outputs_mem o hmem)) hroom

/-- `getFanout` never takes the front of an empty queue: the run succeeds, and its result has the
families and the distribution of uses that the invariant describes. -/
theorem run_reached [CopyInitializer] (hw : ntk.WellFormed) (V : ntk.TopoView)
    (hd : 2 ≤ ps.degree.toNat) :
    ∃ s, run ntk ps V.gates = some (ntk.restoreNames s.substituted V.gates s.old2new) ∧
      ReachedAlong ps V V.gates ntk.outputs s := by
  obtain ⟨s₁, hs₁, h₁⟩ := @reached_inputs ntk ps V.gates _ hw hd
  rw [← List.append_nil ntk.inputs] at h₁
  obtain ⟨s₂, hs₂, h₂⟩ : ∃ s₂, V.gates.foldlM (FanoutSubstitution.substituteGate ntk ps) s₁ =
      some s₂ ∧ ReachedAlong ps V V.gates [] s₂ :=
    @exists_foldlM _ _ _ (fun pre s => ReachedAlong ps V pre [] s) _
      (fun pre n suf s hV h => ReachedAlong.substituteGate hV h hw hd) _ h₁
  obtain ⟨s₃, hs₃, h₃⟩ : ∃ s₃, ntk.foreachPo.foldlM (substitutePo ps) s₂ =
      some s₃ ∧ ReachedAlong ps V V.gates ntk.foreachPo s₃ := by
    refine @exists_foldlM _ _ _ (fun pre s => ReachedAlong ps V V.gates pre s) _
      (fun pre o suf s ho h => ?_) _ h₂
    have hout : ntk.outputs = pre ++ o :: (suf ++ ntk.foreachRi) := by
      rw [← List.cons_append, ← List.append_assoc, ← ho, foreachPo, foreachRi,
        List.take_append_drop]
    have hlen : pre.length + (suf.length + 1) = ntk.numPos := by
      rw [← List.length_cons, ← List.length_append, ← ho, foreachPo,
        List.length_take_of_le hw.numPos_le]
    exact (ReachedAlong.createOutput hout h hw hd).1 (by omega)
  obtain ⟨s₄, hs₄, h₄⟩ : ∃ s₄, ntk.foreachRi.foldlM (substituteRi ps) s₃ =
      some s₄ ∧ ReachedAlong ps V V.gates (ntk.foreachPo ++ ntk.foreachRi) s₄ := by
    refine @exists_foldlM _ _ _ (fun pre s => ReachedAlong ps V V.gates (ntk.foreachPo ++ pre) s) _
      (fun pre o suf s ho h => ?_) _ (by rwa [List.append_nil])
    have hout : ntk.outputs = (ntk.foreachPo ++ pre) ++ o :: suf := by
      rw [List.append_assoc, ← ho, foreachPo, foreachRi, List.take_append_drop]
    have hlen : ntk.foreachPo.length = ntk.numPos := List.length_take_of_le hw.numPos_le
    rw [← List.append_assoc]
    exact (ReachedAlong.createOutput hout h hw hd).2 (by rw [List.length_append]; omega)
  rw [foreachPo, foreachRi, List.take_append_drop] at h₄
  refine ⟨s₄, ?_, h₄⟩
  simp only [run, hs₁, hs₂, hs₃, hs₄, Option.bind_eq_bind, Option.bind_some]

end Run

section Equivalence

theorem exists_run_equivalent [CopyInitializer] {ntk : TechnologyNetwork} (hw : ntk.WellFormed)
    (V : ntk.TopoView) {ps : FanoutSubstitutionParams} (hd : 2 ≤ ps.degree.toNat) :
    ∃ ntk', run ntk ps V.gates = some ntk' ∧ Nonempty ntk'.TopoView ∧
      ∀ V' : ntk'.TopoView, Equivalent V V' := by
  obtain ⟨s, hrun, g, h, -⟩ := run_reached hw V hd
  have hsame := ntk.restoreNames_sameLogic s.substituted V.gates s.old2new
  refine ⟨_, hrun, hsame.nonempty_topoView (h.copy.nonempty_topoView h.output_lt), fun V' => ?_⟩
  have hlen : s.substituted.outputs.length = ntk.outputs.length := by
    rw [← h.outputs, List.length_map]
  rw [(hsame.simulation h.copy.simulation).equivalent_iff hw (hsame.numPis.trans h.copy.numPis)
    (hsame.numPos.trans (h.numPos.trans (min_eq_right hw.numPos_le)))
    (hsame.outputs ▸ hlen)]
  intro a
  rw [hsame.outputs, ← h.outputs, List.map_map]

/-- Fan-out substitution does not fail, and its result has the same inputs and outputs in the same
order and the same functions at the outputs, whatever the strategy, the threshold and the degree
from two on are. A network of another type is converted first. -/
theorem fanoutSubstitution_equivalent [CopyInitializer] (ntk : TechnologyNetwork)
    (hw : ntk.WellFormed) (V : ntk.TopoView) (ps : FanoutSubstitutionParams)
    (hd : 2 ≤ ps.degree.toNat) :
    ∃ ntk', run ntk ps V.gates = some ntk' ∧ Nonempty ntk'.TopoView ∧
      (∀ V' : ntk'.TopoView, Equivalent V V') ∧
        ∀ (r : TreeReduction) (src : SourceNetwork), src.WellFormed → convertNetwork r src = ntk →
          ∀ V' : ntk'.TopoView, V'.behaviour = src.behaviour := by
  obtain ⟨ntk', hrun, hview, heq⟩ := exists_run_equivalent hw V hd
  refine ⟨ntk', hrun, hview, heq, ?_⟩
  rintro r src hs rfl V'
  exact (heq V').behaviour_eq.trans (SourceNetwork.behaviour_convertNetwork r hs V)

/-- An input with a buffer and a gate of both; two outputs share the gate, one is the input and one
a constant. -/
def mixedOutputs : TechnologyNetwork :=
  let (ntk, a) := empty.createPi
  let (ntk, b) := ntk.createBuf a
  let (ntk, c) := ntk.createAnd a b
  (((ntk.createPo c).createPo a).createPo (getConstant true)).createRi c

theorem mixedOutputs_wellFormed : mixedOutputs.WellFormed :=
  wellFormed_of_forall_lt (by decide) (by decide) (by decide) (by decide) (by decide) (by decide)
    (by decide)

def mixedOutputsView : mixedOutputs.TopoView := creationView (by decide) (by decide)

theorem fanoutSubstitution_equivalent_mixedOutputs :
    ∃ ntk', run mixedOutputs { strategy := .depth } mixedOutputsView.gates = some ntk' ∧
      Nonempty ntk'.TopoView ∧ (∀ V' : ntk'.TopoView, Equivalent mixedOutputsView V') ∧
        ∀ (r : TreeReduction) (src : SourceNetwork), src.WellFormed →
          convertNetwork r src = mixedOutputs →
            ∀ V' : ntk'.TopoView, V'.behaviour = src.behaviour :=
  fanoutSubstitution_equivalent mixedOutputs mixedOutputs_wellFormed mixedOutputsView _ (by decide)

end Equivalence

end Fiction.FanoutSubstitution
