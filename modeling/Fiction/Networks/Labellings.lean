import Fiction.Networks.TopoView

/-!
# Labellings of growing networks

A labelling gives each source its base label and computes the labels of all gates from those of
their children, by any rule. Boolean values and levels are labels. Creation functions append nodes,
so they extend a labelling and leave the labels of all earlier nodes as they are.
-/

namespace Fiction.TechnologyNetwork

variable {β : Type*} {rule : NetworkNode → List β → β} {base : ℕ → β}
  {ntk ntk' ntk'' : TechnologyNetwork} {v v' v'' : ℕ → β}

/-- Children precede their parents, and `v` obeys the rule at each gate. -/
structure Labelled (rule : NetworkNode → List β → β) (base : ℕ → β) (ntk : TechnologyNetwork)
    (v : ℕ → β) : Prop where
  two_le_size : 2 ≤ ntk.size
  input_lt : ∀ n ∈ ntk.inputs, n < ntk.size
  child_lt : ∀ n < ntk.size, ∀ c ∈ (ntk.node n).children, c < n
  source : ∀ n, ntk.IsSource n → v n = base n
  gate : ∀ n < ntk.size, ¬ ntk.IsSource n → v n = rule (ntk.node n) ((ntk.node n).children.map v)

/-- `ntk'` has further nodes, the labels of the earlier ones stay. -/
structure Grows (ntk : TechnologyNetwork) (v : ℕ → β) (ntk' : TechnologyNetwork) (v' : ℕ → β) :
    Prop where
  size_le : ntk.size ≤ ntk'.size
  node_eq : ∀ n < ntk.size, ntk'.node n = ntk.node n
  inputs : ntk'.inputs = ntk.inputs
  numPis : ntk'.numPis = ntk.numPis
  outputs : ntk'.outputs = ntk.outputs
  numPos : ntk'.numPos = ntk.numPos
  label : ∀ n < ntk.size, v' n = v n

theorem Grows.refl : Grows ntk v ntk v :=
  ⟨le_rfl, fun _ _ => rfl, rfl, rfl, rfl, rfl, fun _ _ => rfl⟩

theorem Grows.trans (h : Grows ntk v ntk' v') (h' : Grows ntk' v' ntk'' v'') :
    Grows ntk v ntk'' v'' where
  size_le := h.size_le.trans h'.size_le
  node_eq n hn := (h'.node_eq n (hn.trans_le h.size_le)).trans (h.node_eq n hn)
  inputs := h'.inputs.trans h.inputs
  numPis := h'.numPis.trans h.numPis
  outputs := h'.outputs.trans h.outputs
  numPos := h'.numPos.trans h.numPos
  label n hn := (h'.label n (hn.trans_le h.size_le)).trans (h.label n hn)

theorem Grows.map_label (h : Grows ntk v ntk' v') {l : List ℕ} (hl : ∀ c ∈ l, c < ntk.size) :
    l.map v' = l.map v :=
  List.map_congr_left fun c hc => h.label c (hl c hc)

theorem Labelled.isSource_lt (h : Labelled rule base ntk v) {n : ℕ} (hn : ntk.IsSource n) :
    n < ntk.size := by
  rcases hn with hn | hn
  · exact (Nat.lt_succ_of_le hn).trans_le h.two_le_size
  · exact h.input_lt n hn

theorem labelled_of_isSource (h2 : 2 ≤ ntk.size) (hi : ∀ n ∈ ntk.inputs, n < ntk.size)
    (hc : ∀ n, (ntk.node n).children = []) (hs : ∀ n < ntk.size, ntk.IsSource n) (base : ℕ → β) :
    Labelled rule base ntk base where
  two_le_size := h2
  input_lt := hi
  child_lt n _ c hcn := by
    rw [hc] at hcn
    cases hcn
  source _ _ := rfl
  gate n hn hns := absurd (hs n hn) hns

theorem Labelled.pushNode (h : Labelled rule base ntk v) {children : List ℕ}
    {function : TruthTable} (hc : ∀ c ∈ children, c < ntk.size) :
    ∃ v', Labelled rule base (ntk.pushNode children function).1 v' ∧
      Grows ntk v (ntk.pushNode children function).1 v' ∧
      v' ntk.size = rule ⟨children, function⟩ (children.map v) := by
  let v' := Function.update v ntk.size (rule ⟨children, function⟩ (children.map v))
  have hold : ∀ n < ntk.size, v' n = v n := fun n hn => Function.update_of_ne hn.ne _ _
  have hnew : v' ntk.size = rule ⟨children, function⟩ (children.map v) := Function.update_self ..
  have hmap : ∀ l : List ℕ, (∀ c ∈ l, c < ntk.size) → l.map v' = l.map v := fun l hl =>
    List.map_congr_left fun c hcl => hold c (hl c hcl)
  refine ⟨v', ?_, ?_, hnew⟩
  · constructor
    · rw [size_pushNode]
      exact h.two_le_size.trans (Nat.le_succ _)
    · intro n hn
      rw [size_pushNode]
      exact (h.input_lt n hn).trans (Nat.lt_succ_self _)
    · intro n hn c hcn
      rw [size_pushNode] at hn
      rw [node_pushNode] at hcn
      split_ifs at hcn with heq
      · exact heq ▸ hc c hcn
      · exact h.child_lt n (by omega) c hcn
    · intro n hn
      rw [hold n (h.isSource_lt hn)]
      exact h.source n hn
    · intro n hn hs
      rw [size_pushNode] at hn
      rw [node_pushNode]
      split_ifs with heq
      · rw [heq, hnew, hmap _ hc]
      · have hlt : n < ntk.size := by omega
        rw [hold n hlt, hmap _ fun c hcn => (h.child_lt n hlt c hcn).trans hlt]
        exact h.gate n hlt hs
  · refine ⟨?_, fun n hn => ?_, rfl, rfl, rfl, rfl, hold⟩
    · rw [size_pushNode]
      exact Nat.le_succ _
    · rw [node_pushNode, if_neg hn.ne]

theorem Labelled.congr (h : Labelled rule base ntk v) (hn : ntk'.nodes = ntk.nodes)
    (hi : ntk'.inputs = ntk.inputs) : Labelled rule base ntk' v := by
  have hsize : ntk'.size = ntk.size := congrArg List.length hn
  have hnode : ∀ n, ntk'.node n = ntk.node n := fun n => by rw [node, node, hn]
  constructor
  · exact hsize ▸ h.two_le_size
  · rw [hi, hsize]
    exact h.input_lt
  · simp only [hsize, hnode]
    exact h.child_lt
  · simp only [IsSource, hi]
    exact h.source
  · simp only [IsSource, hi, hsize, hnode]
    exact h.gate

/-- The creation of a signal with label `b`. -/
def Yields (rule : NetworkNode → List β → β) (base : ℕ → β) (ntk : TechnologyNetwork) (v : ℕ → β)
    (r : TechnologyNetwork × ℕ) (b : β) : Prop :=
  ∃ v', Labelled rule base r.1 v' ∧ Grows ntk v r.1 v' ∧ r.2 < r.1.size ∧ v' r.2 = b

theorem Labelled.yields (h : Labelled rule base ntk v) {n : ℕ} (hn : n < ntk.size) :
    Yields rule base ntk v (ntk, n) (v n) :=
  ⟨v, h, .refl, hn, rfl⟩

theorem Labelled.yields_pushNode (h : Labelled rule base ntk v) {children : List ℕ}
    {function : TruthTable} (hc : ∀ c ∈ children, c < ntk.size) :
    Yields rule base ntk v (ntk.pushNode children function)
      (rule ⟨children, function⟩ (children.map v)) := by
  obtain ⟨v', hv', hgrow, hnew⟩ := h.pushNode hc
  refine ⟨v', hv', hgrow, ?_, hnew⟩
  rw [pushNode_snd, size_pushNode]
  exact Nat.lt_succ_self _

section Values

def valueRule (data : NetworkNode) (values : List Bool) : Bool := data.function.eval values

theorem Labelled.nonempty_topoView (h : Labelled rule base ntk v)
    (ho : ∀ o ∈ ntk.outputs, o < ntk.size) : Nonempty ntk.TopoView :=
  ⟨creationView (fun n hn _ => h.child_lt n hn) ho⟩

theorem Labelled.outputValues {a : ℕ → Bool} {w : ℕ → Bool}
    (h : Labelled valueRule (ntk.sourceValues a) ntk w) (V : ntk.TopoView) :
    ntk.outputValues V.gates a = ntk.outputs.map w :=
  V.outputValues_eq ⟨h.source, fun n hn =>
    h.gate n (V.gates_lt n hn) (V.sorted.not_known n hn)⟩

end Values

end Fiction.TechnologyNetwork
