import Fiction.Networks.CopyNetwork

/-!
# Partial copies of a network

While a transformation copies a network, each node of the copy belongs to a node of the source with
the same value. This is kept when a node is appended whose children have the right values.
-/

namespace Fiction.TechnologyNetwork

structure PartialCopy (ntk : TechnologyNetwork) (gates : List ℕ) (ntk' : TechnologyNetwork)
    (owner : ℕ → ℕ) : Prop where
  two_le_size : 2 ≤ ntk'.size
  constant : ∀ n ≤ 1, owner n = n
  inputs : ntk'.inputs.map owner = ntk.inputs
  input_bounds : ∀ m ∈ ntk'.inputs, 2 ≤ m ∧ m < ntk'.size
  numPis : ntk'.numPis = ntk.numPis
  child_lt : ∀ m < ntk'.size, ∀ c ∈ (ntk'.node m).children, c < m
  follows : ∀ m < ntk'.size, ¬ ntk'.IsSource m → Follows ntk ntk' gates owner m

/-- Nodes from index `size` on belong to `n`. -/
def assignOwner (size : ℕ) (owner : ℕ → ℕ) (n m : ℕ) : ℕ := if m < size then owner m else n

section PartialCopy

variable {ntk ntk' : TechnologyNetwork} {gates : List ℕ} {owner : ℕ → ℕ} {n : ℕ}

theorem assignOwner_of_lt {size m : ℕ} (h : m < size) : assignOwner size owner n m = owner m :=
  if_pos h

theorem assignOwner_of_le {size m : ℕ} (h : size ≤ m) : assignOwner size owner n m = n :=
  if_neg h.not_gt

theorem PartialCopy.pushNode (h : PartialCopy ntk gates ntk' owner) {children : List ℕ}
    {function : TruthTable} (hc : ∀ c ∈ children, c < ntk'.size)
    (hn : ∀ a v, ntk.graph.Solves ntk.IsSource gates (ntk.sourceValues a) v →
      v n = function.eval (children.map (v ∘ owner))) :
    PartialCopy ntk gates (ntk'.pushNode children function).1 (assignOwner ntk'.size owner n) where
  two_le_size := by
    rw [size_pushNode]
    exact h.two_le_size.trans (Nat.le_succ _)
  constant m hm := (assignOwner_of_lt (by have := h.two_le_size; omega)).trans (h.constant m hm)
  inputs := by
    rw [← h.inputs]
    exact List.map_congr_left fun m hm => assignOwner_of_lt (h.input_bounds m hm).2
  input_bounds m hm := by
    rw [size_pushNode]
    exact ⟨(h.input_bounds m hm).1, (h.input_bounds m hm).2.trans (Nat.lt_succ_self _)⟩
  numPis := h.numPis
  child_lt m hm c hmc := by
    rw [size_pushNode] at hm
    rw [node_pushNode] at hmc
    split_ifs at hmc with heq
    · exact heq ▸ hc c hmc
    · exact h.child_lt m (by omega) c hmc
  follows m hm hs a v hv := by
    rw [size_pushNode] at hm
    have hkeep : ∀ l : List ℕ, (∀ c ∈ l, c < ntk'.size) →
        l.map (v ∘ assignOwner ntk'.size owner n) = l.map (v ∘ owner) := fun l hl =>
      List.map_congr_left fun c hcl => congrArg v (assignOwner_of_lt (hl c hcl))
    rw [node_pushNode]
    split_ifs with heq
    · rw [heq, assignOwner_of_le le_rfl, hkeep _ hc]
      exact hn a v hv
    · have hlt : m < ntk'.size := by omega
      rw [assignOwner_of_lt hlt, hkeep _ fun c hcm => (h.child_lt m hlt c hcm).trans hlt]
      exact h.follows m hlt hs a v hv

/-- Outputs do not matter for a partial copy. -/
theorem PartialCopy.congr (h : PartialCopy ntk gates ntk' owner) {ntk'' : TechnologyNetwork}
    {owner' : ℕ → ℕ} (hnodes : ntk''.nodes = ntk'.nodes) (hinputs : ntk''.inputs = ntk'.inputs)
    (hpis : ntk''.numPis = ntk'.numPis) (ho : ∀ m < ntk'.size, owner' m = owner m) :
    PartialCopy ntk gates ntk'' owner' := by
  have hsize : ntk''.size = ntk'.size := congrArg List.length hnodes
  have hnode : ∀ m, ntk''.node m = ntk'.node m := fun m => by rw [node, node, hnodes]
  constructor
  · exact hsize ▸ h.two_le_size
  · exact fun m hm => (ho m (by have := h.two_le_size; omega)).trans (h.constant m hm)
  · rw [hinputs, ← h.inputs]
    exact List.map_congr_left fun m hm => ho m (h.input_bounds m hm).2
  · rw [hinputs, hsize]
    exact h.input_bounds
  · exact hpis.trans h.numPis
  · simp only [hsize, hnode]
    exact h.child_lt
  · intro m hm hs a v hv
    rw [hsize] at hm
    have hs' : ¬ ntk'.IsSource m := by simpa only [IsSource, hinputs] using hs
    rw [hnode, ho m hm, h.follows m hm hs' a v hv]
    refine congrArg _ (List.map_congr_left fun c hc => congrArg v ?_)
    exact (ho c ((h.child_lt m hm c hc).trans hm)).symm

theorem PartialCopy.simulation (h : PartialCopy ntk gates ntk' owner) :
    Simulation ntk ntk' gates owner :=
  ⟨h.constant, h.inputs, h.follows⟩

theorem PartialCopy.nonempty_topoView (h : PartialCopy ntk gates ntk' owner)
    (ho : ∀ m ∈ ntk'.outputs, m < ntk'.size) : Nonempty ntk'.TopoView :=
  ⟨creationView (fun n hn _ => h.child_lt n hn) ho⟩

end PartialCopy

section Start

variable {ntk : TechnologyNetwork}

/-- The owner of the copied inputs. -/
def inputOwner (ntk : TechnologyNetwork) (m : ℕ) : ℕ :=
  if m ≤ 1 then m else ntk.inputs.getD (m - 2) 0

/-- The copy that transformations start from. -/
structure FreshCopy (ntk ntk' : TechnologyNetwork) (old2new : ℕ → ℕ) : Prop where
  size : ntk'.size = 2 + ntk.inputs.length
  children : ∀ m, (ntk'.node m).children = []
  fanoutSize : ∀ m, ntk'.fanoutSize m = 0
  inputs : ntk'.inputs = ntk.inputs.map old2new
  mem_inputs : ∀ m, 2 ≤ m → m < ntk'.size → m ∈ ntk'.inputs
  numPis : ntk'.numPis = ntk.numPis
  outputs : ntk'.outputs = []
  numPos : ntk'.numPos = 0
  image_lt : ∀ n, old2new n < ntk'.size
  other : ∀ n, 2 ≤ n → n ∉ ntk.inputs → old2new n = 0
  constant : ∀ n ≤ 1, old2new n = n
  old2new : ∀ i (h : i < ntk.inputs.length), old2new ntk.inputs[i] = 2 + i

theorem initializeCopyNetwork_freshCopy [CopyInitializer] (hw : ntk.WellFormed) :
    FreshCopy ntk ntk.initializeCopyNetwork.1 ntk.initializeCopyNetwork.2 := by
  have hc := initializeCopyNetwork_copies hw
  have hsize := hc.size_eq
  have hinput : ∀ i (hi : i < ntk.inputs.length),
      ntk.initializeCopyNetwork.2 ntk.inputs[i] = 2 + i := by
    intro i hi
    rw [hc.input (List.getElem_mem hi), hw.inputs_nodup.idxOf_getElem]
  constructor
  · exact hsize
  · exact hc.children
  · intro m
    rw [fanoutSize, numUses, hc.outputs, List.countP_nil, Nat.add_zero, List.sum_eq_zero]
    intro k hk
    obtain ⟨x, hx, rfl⟩ := List.mem_map.mp hk
    rw [hc.children_of_mem hx, List.countP_nil]
  · refine hc.inputs.trans (List.ext_getElem (by simp) fun i hi _ => ?_)
    rw [List.length_range'] at hi
    rw [List.getElem_range', List.getElem_map, hinput i hi, Nat.one_mul]
  · intro m h2 hm
    rw [hc.inputs, List.mem_range'_1]
    omega
  · exact hc.numPis
  · exact hc.outputs
  · exact hc.numPos
  · exact hc.image_lt fun n => by split_ifs <;> omega
  · intro n h2 hn
    rw [hc.other hn, if_neg (by omega)]
  · intro n hn
    have hin : n ∉ ntk.inputs := fun hin => absurd (hw.input n hin).1 (by omega)
    rw [hc.other hin]
    rcases Nat.le_one_iff_eq_zero_or_eq_one.mp hn with rfl | rfl <;> rfl
  · exact hinput

variable {ntk' : TechnologyNetwork} {old2new : ℕ → ℕ}

theorem inputOwner_two_add {i : ℕ} (hi : i < ntk.inputs.length) :
    ntk.inputOwner (2 + i) = ntk.inputs[i] := by
  simp only [inputOwner, show ¬ 2 + i ≤ 1 by omega, if_false, Nat.add_sub_cancel_left]
  rw [List.getD_eq_getElem?_getD, List.getElem?_eq_getElem hi, Option.getD_some]

theorem FreshCopy.image (h : FreshCopy ntk ntk' old2new) {n : ℕ} (hn : n ∈ ntk.inputs) :
    2 ≤ old2new n ∧ old2new n < ntk'.size ∧ ntk.inputOwner (old2new n) = n := by
  obtain ⟨i, hi, rfl⟩ := List.getElem_of_mem hn
  rw [h.old2new i hi, h.size, inputOwner_two_add hi]
  exact ⟨by omega, by omega, rfl⟩

theorem FreshCopy.partialCopy (h : FreshCopy ntk ntk' old2new) (gates : List ℕ) :
    PartialCopy ntk gates ntk' ntk.inputOwner where
  two_le_size := by
    rw [h.size]
    omega
  constant _ hn := if_pos hn
  inputs := by
    rw [h.inputs, List.map_map]
    exact (List.map_congr_left fun n hn => (h.image hn).2.2).trans (List.map_id _)
  input_bounds m hm := by
    rw [h.inputs] at hm
    obtain ⟨n, hn, rfl⟩ := List.mem_map.mp hm
    exact ⟨(h.image hn).1, (h.image hn).2.1⟩
  numPis := h.numPis
  child_lt m _ c hc := by
    rw [h.children m] at hc
    cases hc
  follows m hm hs := by
    by_cases h2 : 2 ≤ m
    · exact absurd (.inr (h.mem_inputs m h2 hm)) hs
    · exact absurd (.inl (by omega)) hs

end Start

end Fiction.TechnologyNetwork
