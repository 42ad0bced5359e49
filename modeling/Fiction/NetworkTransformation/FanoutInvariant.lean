import Fiction.NetworkTransformation.FanoutFamilies

/-!
# The invariant of fan-out substitution

Each step keeps the nodes that exist already, adds nodes whose owner is the processed node, and hands
one group of uses to the families of its children.
-/

namespace Fiction

namespace TechnologyNetwork

/-- `ntk'` has more nodes or outputs than `ntk`. -/
structure Extends (ntk ntk' : TechnologyNetwork) : Prop where
  size_le : ntk.size ≤ ntk'.size
  node : ∀ m < ntk.size, ntk'.node m = ntk.node m
  inputs : ntk'.inputs = ntk.inputs
  numPis : ntk'.numPis = ntk.numPis
  fanoutSize_le : ∀ m, ntk.fanoutSize m ≤ ntk'.fanoutSize m

section Extends

variable {ntk ntk' : TechnologyNetwork}

theorem Extends.isBuf (h : Extends ntk ntk') {m : ℕ} (hm : m < ntk.size) :
    ntk'.isBuf m = ntk.isBuf m := by
  rw [TechnologyNetwork.isBuf, TechnologyNetwork.isBuf, isCi, isCi, h.node m hm, h.inputs]

theorem Extends.isSource (h : Extends ntk ntk') (m : ℕ) : ntk'.IsSource m ↔ ntk.IsSource m := by
  simp only [IsSource, h.inputs]

/-- The sources exist from the start. -/
theorem Extends.source (h : Extends ntk ntk') {src : TechnologyNetwork} {gates : List ℕ}
    {owner : ℕ → ℕ} (hc : PartialCopy src gates ntk owner)
    (hs : ∀ m, ntk.IsSource m → (ntk.node m).children = []) :
    ∀ m, ntk'.IsSource m → (ntk'.node m).children = [] := by
  intro m hm
  have hm' := (h.isSource m).mp hm
  have hlt : m < ntk.size := by
    rcases hm' with hle | hmem
    · exact (Nat.lt_succ_of_le hle).trans_le hc.two_le_size
    · exact (hc.input_bounds m hmem).2
  rw [h.node m hlt]
  exact hs m hm'

theorem extends_bufferTree {w root k : ℕ} (hw : 0 < w) (hr : root < ntk.size) :
    Extends ntk (ntk.bufferTree w root k) where
  size_le := by simp
  node m hm := node_bufferTree_of_lt hm
  inputs := rfl
  numPis := rfl
  fanoutSize_le m := by
    rw [fanoutSize_bufferTree hw hr]
    omega

theorem extends_pushNode (children : List ℕ) (function : TruthTable) :
    Extends ntk (ntk.pushNode children function).1 where
  size_le := by simp
  node m hm := by rw [node_pushNode, if_neg hm.ne]
  inputs := rfl
  numPis := rfl
  fanoutSize_le m := by
    rw [fanoutSize_pushNode]
    omega

end Extends

end TechnologyNetwork

namespace FanoutSubstitution

open TechnologyNetwork FirstFit

/-- `m` is a copy of a gate, or a buffer in the tree of a node. -/
inductive Shape (ntk : TechnologyNetwork) (gates : List ℕ) (ntk' : TechnologyNetwork)
    (owner : ℕ → ℕ) (m : ℕ) : Prop
  | gate (mem : owner m ∈ gates) (function : (ntk'.node m).function = (ntk.node (owner m)).function)
    (children : (ntk'.node m).children.map owner = (ntk.node (owner m)).children)
  | buffer {c : ℕ} (node : ntk'.node m = ⟨[c], .identity⟩) (child : owner c = owner m)

theorem Shape.congr {ntk ntk' ntk'' : TechnologyNetwork} {gates : List ℕ} {owner owner' : ℕ → ℕ}
    {m : ℕ} (h : Shape ntk gates ntk' owner m) (hnode : ntk''.node m = ntk'.node m)
    (hm : owner' m = owner m) (hc : ∀ c ∈ (ntk'.node m).children, owner' c = owner c) :
    Shape ntk gates ntk'' owner' m := by
  cases h with
  | gate hmem hfunction hchildren =>
    apply Shape.gate
    · rwa [hm]
    · rwa [hnode, hm]
    · rw [hnode, hm, List.map_congr_left hc]
      exact hchildren
  | @buffer c hbuf hchild =>
    apply Shape.buffer (hnode.trans hbuf)
    rw [hm, hc c (by rw [hbuf]; exact List.mem_singleton_self c), hchild]

structure Invariant (ntk : TechnologyNetwork) (ps : FanoutSubstitutionParams)
    (gates placed outs : List ℕ) (s : State) (g : Ghost) : Prop where
  copy : PartialCopy ntk gates s.substituted g.owner
  shape : ∀ m < s.substituted.size, ¬ s.substituted.IsSource m →
    Shape ntk gates s.substituted g.owner m
  source : ∀ m, s.substituted.IsSource m → (s.substituted.node m).children = []
  constant : ∀ n ≤ 1, s.old2new n = n
  inputs : s.substituted.inputs = ntk.inputs.map s.old2new
  input_placed : ∀ n ∈ ntk.inputs, n ∈ placed
  outputs : s.substituted.outputs.map g.owner = outs
  output_lt : ∀ m ∈ s.substituted.outputs, m < s.substituted.size
  numPos : s.substituted.numPos = min outs.length ntk.numPos
  unused : ∀ m ≥ s.substituted.size, s.substituted.fanoutSize m = 0
  member : ∀ m < s.substituted.size, 2 ≤ m → g.owner m ∈ placed ∧ m ∈ family s g (g.owner m)
  two_le_placed : ∀ n ∈ placed, 2 ≤ n
  served : ∀ n ∈ placed, Served ntk ps s g n
  queue : ∀ n ∉ placed, s.availableFanouts n = []
  not_placed : ∀ n ∉ placed, 2 ≤ n → g.trees n = 0 ∧ g.uses n = []

section Frame

variable {ntk : TechnologyNetwork} {ps : FanoutSubstitutionParams} {gates placed outs : List ℕ}
  {s s' : State} {g g' : Ghost} {n : ℕ}

/-- A family stays served if its members and its queue are the same and its loads are right. -/
theorem Served.extends (h : Served ntk ps s g n) (he : Extends s.substituted s'.substituted)
    (hf : family s' g' n = family s g n) (hb : treeBuffers g' n = treeBuffers g n)
    (ht : g'.trees n = g.trees n) (hq : s'.availableFanouts n = s.availableFanouts n)
    (ho : ∀ m < s.substituted.size, g'.owner m = g.owner m)
    (hl : ∃ hs, distribute (holders ps (ntk.isBuf n) (g.trees n)) (g'.uses n) = some hs ∧
      Loaded s'.substituted.fanoutSize (family s g n) hs) : Served ntk ps s' g' n := by
  have hroot : s'.old2new n = s.old2new n := (List.cons.inj hf).1
  have hbuf : ∀ m ∈ family s g n, s'.substituted.isBuf m = s.substituted.isBuf m := fun m hm =>
    he.isBuf (h.lt_size m hm)
  constructor
  · exact hroot ▸ h.two_le
  · exact hf ▸ h.nodup
  · exact fun m hm => (h.lt_size m (hf ▸ hm)).trans_le he.size_le
  · exact fun m hm => (ho m (h.lt_size m (hf ▸ hm))).trans (h.owner m (hf ▸ hm))
  · rw [hf, ht]
    exact hl
  · rw [hq, ht]
    exact h.queue_eq_nil
  · rw [hq, hb]
    exact fun f hle => h.queue f fun m => (he.fanoutSize_le m).trans (hle m)
  · rw [hroot, hbuf _ List.mem_cons_self, h.isBuf_root]
  · rw [hb]
    exact fun m hm => (hbuf m (List.mem_cons_of_mem _ hm)).trans (h.isBuf_tree m hm)

/-- A node without a tree and without served uses. -/
theorem Served.fresh (h2 : 2 ≤ s.old2new n) (hlt : s.old2new n < s.substituted.size)
    (ho : g.owner (s.old2new n) = n) (ht : g.trees n = 0) (hu : g.uses n = [])
    (hl : s.substituted.fanoutSize (s.old2new n) = 0) (hq : s.availableFanouts n = [])
    (hb : s.substituted.isBuf (s.old2new n) = ntk.isBuf n) : Served ntk ps s g n := by
  have hnil : treeBuffers g n = [] := by simp [treeBuffers, ht]
  have hfam : family s g n = [s.old2new n] := by rw [family, hnil]
  constructor
  · exact h2
  · rw [hfam]
    exact List.nodup_singleton _
  · rw [hfam]
    simpa using hlt
  · rw [hfam]
    simpa using ho
  · refine ⟨holders ps (ntk.isBuf n) 0, ?_, ?_⟩
    · rw [ht, hu]
      rfl
    · rw [hfam]
      exact .cons hl.symm .nil
  · simp [hq, ht]
  · rw [hnil, hq]
    exact fun _ _ => rfl
  · exact hb
  · rw [hnil]
    simp

/-- Families are disjoint. -/
theorem Invariant.notMem_family (h : Invariant ntk ps gates placed outs s g) {n' m : ℕ}
    (hn : n ∈ placed) (hn' : n' ∈ placed) (hne : n' ≠ n) (hm : m ∈ family s g n) :
    m ∉ family s g n' := fun hm' =>
  hne (((h.served n' hn').owner m hm').symm.trans ((h.served n hn).owner m hm))

end Frame

section GrowTree

variable {ntk : TechnologyNetwork} {ps : FanoutSubstitutionParams} {gates placed outs : List ℕ}
  {s : State} {g : Ghost} {n : ℕ}

/-- The tree of `n` with `k` buffers is created. -/
def Ghost.grow (g : Ghost) (size n k : ℕ) : Ghost where
  owner := assignOwner size g.owner n
  base := Function.update g.base n size
  trees := Function.update g.trees n k
  uses := g.uses

theorem Served.grow (h : Served ntk ps s g n) (hd : 2 ≤ ps.degree.toNat)
    (hunused : ∀ m ≥ s.substituted.size, s.substituted.fanoutSize m = 0)
    (hinput : ∀ m ∈ s.substituted.inputs, m < s.substituted.size) (ht : g.trees n = 0)
    (hu : g.uses n = []) {k : ℕ} (hk : 0 < k) :
    Served ntk ps { s with
      substituted := s.substituted.bufferTree (treeWidth ps) (s.old2new n) k
      availableFanouts := Function.update s.availableFanouts n
        (treeQueue ps (s.old2new n) s.substituted.size k) } (g.grow s.substituted.size n k) n := by
  have hroot : s.old2new n < s.substituted.size := h.lt_size _ List.mem_cons_self
  have hw := treeWidth_pos hd
  have htb : treeBuffers (g.grow s.substituted.size n k) n =
      List.range' s.substituted.size k := by
    simp [treeBuffers, Ghost.grow]
  have hmem : ∀ m ∈ List.range' s.substituted.size k, s.substituted.size ≤ m ∧
      m < s.substituted.size + k := fun m hm => List.mem_range'_1.mp hm
  have hzero : s.substituted.fanoutSize (s.old2new n) = 0 := by
    obtain ⟨hs, hdist, hl⟩ := h.loaded
    rw [ht, hu] at hdist
    obtain rfl := Option.some.inj hdist
    cases hl with
    | cons hr _ => exact hr.symm
  have htrees : (g.grow s.substituted.size n k).trees n = k := Function.update_self ..
  constructor
  · exact h.two_le
  · rw [family, htb]
    exact List.nodup_cons.mpr ⟨fun hm => (hmem _ hm).1.not_gt hroot, List.nodup_range'⟩
  · rw [family, htb, List.forall_mem_cons, size_bufferTree]
    exact ⟨Nat.lt_add_right k hroot, fun m hm => (hmem m hm).2⟩
  · rw [family, htb, List.forall_mem_cons]
    refine ⟨(if_pos hroot).trans (h.owner _ List.mem_cons_self), fun m hm => ?_⟩
    exact if_neg (hmem m hm).1.not_gt
  · refine ⟨holders ps (ntk.isBuf n) k, ?_, ?_⟩
    · rw [htrees]
      exact congrArg (distribute _) hu
    · rw [family, htb, List.range'_eq_map_range]
      refine .cons ?_ ?_
      · simp [fanoutSize_bufferTree hw hroot, hzero, hk, hk.ne', hroot.not_ge]
      · rw [List.forall₂_map_left_iff, List.forall₂_map_right_iff, List.forall₂_same]
        intro i hi
        have hne : s.substituted.size + i ≠ s.old2new n := by omega
        simp [fanoutSize_bufferTree hw hroot, hne, hunused]
  · simp only [Function.update_self, htrees, hk.ne', iff_false]
    exact treeQueue_ne_nil hd hk
  · intro f hf
    simp only [Function.update_self, htb]
    refine find_treeQueue hd hk fun i _ hi => ?_
    have hle := hf (s.substituted.size + i)
    have hne : s.substituted.size + i ≠ s.old2new n := by omega
    rw [fanoutSize_bufferTree hw hroot] at hle
    simp only [hne, false_and, if_false, Nat.le_add_right, if_true, Nat.add_sub_cancel_left] at hle
    have hlt : f (s.substituted.size + i) < ps.degree.toNat := of_decide_eq_true hi
    omega
  · rw [← h.isBuf_root]
    exact (extends_bufferTree hw hroot).isBuf hroot
  · rw [htb]
    intro m hm
    obtain ⟨hlo, hhi⟩ := hmem m hm
    obtain ⟨i, rfl⟩ := Nat.exists_eq_add_of_le hlo
    have hci : s.substituted.size + i ∉ s.substituted.inputs := fun hm => by
      have := hinput _ hm
      omega
    have hnode := @node_bufferTree_add (treeWidth ps) (s.old2new n) k s.substituted i (by omega)
    simp only [isBuf, isCi, hnode, true_and, decide_eq_true_eq, List.contains_iff_mem]
    exact hci

theorem Invariant.root_lt (h : Invariant ntk ps gates placed outs s g) (hn : n ∈ placed) :
    s.old2new n < s.substituted.size :=
  (h.served n hn).lt_size _ List.mem_cons_self

theorem Invariant.growTree (h : Invariant ntk ps gates placed outs s g)
    (hd : 2 ≤ ps.degree.toNat) (hn : n ∈ placed) (ht : g.trees n = 0) (hu : g.uses n = [])
    {k : ℕ} (hk : 0 < k) :
    ∃ s', growTree ps s n k = some s' ∧ s'.old2new = s.old2new ∧
      Invariant ntk ps gates placed outs s' (g.grow s.substituted.size n k) := by
  have hroot := h.root_lt hn
  have hw := treeWidth_pos hd
  have he := @extends_bufferTree s.substituted (treeWidth ps) (s.old2new n) k hw hroot
  have ho : ∀ m < s.substituted.size, (g.grow s.substituted.size n k).owner m = g.owner m :=
    fun m hm => if_pos hm
  have hnew : ∀ m, s.substituted.size ≤ m → (g.grow s.substituted.size n k).owner m = n :=
    fun m hm => if_neg hm.not_gt
  have hserved := (h.served n hn).grow hd h.unused (fun m hm => (h.copy.input_bounds m hm).2) ht hu hk
  refine ⟨_, growTree_eq hd s n hk, rfl, ?_⟩
  have hfamily : ∀ n' ≠ n, treeBuffers (g.grow s.substituted.size n k) n' = treeBuffers g n' := by
    intro n' hne
    simp only [treeBuffers, Ghost.grow, Function.update_of_ne hne]
  constructor
  · exact h.copy.bufferTree hroot ((h.served n hn).owner _ List.mem_cons_self) k
  · intro m hm hs
    rw [size_bufferTree] at hm
    rcases Nat.lt_or_ge m s.substituted.size with hlt | hge
    · exact (h.shape m hlt hs).congr (node_bufferTree_of_lt hlt) (ho m hlt)
        fun c hc => ho c ((h.copy.child_lt m hlt c hc).trans hlt)
    · obtain ⟨j, rfl⟩ := Nat.exists_eq_add_of_le hge
      apply Shape.buffer (node_bufferTree_add (by omega))
      rw [hnew _ hge, treeParent]
      split_ifs
      · exact (ho _ hroot).trans ((h.served n hn).owner _ List.mem_cons_self)
      · exact hnew _ (Nat.le_add_right _ _)
  · exact he.source h.copy h.source
  · exact h.constant
  · exact h.inputs
  · exact h.input_placed
  · refine Eq.trans ?_ h.outputs
    exact List.map_congr_left fun m hm => ho m (h.output_lt m hm)
  · exact fun m hm => (h.output_lt m hm).trans_le he.size_le
  · exact h.numPos
  · intro m hm
    rw [ge_iff_le, size_bufferTree] at hm
    have hne : m ≠ s.old2new n := by omega
    have hload : treeLoad (treeWidth ps) k (m - s.substituted.size) = 0 := by
      have : k ≤ (m - s.substituted.size) * treeWidth ps :=
        (by omega : k ≤ m - s.substituted.size).trans (Nat.le_mul_of_pos_right _ hw)
      rw [treeLoad]
      omega
    rw [fanoutSize_bufferTree hw hroot, h.unused m (by omega), hload]
    simp [hne]
  · intro m hm h2
    rw [size_bufferTree] at hm
    rcases Nat.lt_or_ge m s.substituted.size with hlt | hge
    · obtain ⟨hp, hmem⟩ := h.member m hlt h2
      rw [ho m hlt]
      refine ⟨hp, ?_⟩
      by_cases hne : g.owner m = n
      · have hnil : treeBuffers g n = [] := by simp [treeBuffers, ht]
        rw [hne, family, hnil, List.mem_singleton] at hmem
        rw [hne, hmem]
        exact List.mem_cons_self
      · rw [family, hfamily _ hne]
        exact hmem
    · rw [hnew m hge]
      refine ⟨hn, List.mem_cons_of_mem _ ?_⟩
      simp only [treeBuffers, Ghost.grow, Function.update_self]
      exact List.mem_range'_1.mpr ⟨hge, hm⟩
  · exact h.two_le_placed
  · intro n' hn'
    by_cases hne : n' = n
    · subst hne
      exact hserved
    · have hf := hfamily n' hne
      refine (h.served n' hn').extends he ?_ hf ?_ ?_ ho ?_
      · exact congrArg _ hf
      · exact Function.update_of_ne hne ..
      · exact Function.update_of_ne hne ..
      · obtain ⟨hs, hdist, hl⟩ := (h.served n' hn').loaded
        refine ⟨hs, hdist, hl.congr fun y hy => ?_⟩
        have hlt := (h.served n' hn').lt_size y hy
        have hroot' : y ≠ s.old2new n := fun hy' =>
          h.notMem_family hn hn' hne List.mem_cons_self (hy' ▸ hy)
        rw [fanoutSize_bufferTree hw hroot]
        simp [hroot', hlt.not_ge]
  · intro n' hn'
    have hne : n' ≠ n := fun he => hn' (he ▸ hn)
    exact (Function.update_of_ne hne ..).trans (h.queue n' hn')
  · intro n' hn' h2
    have hne : n' ≠ n := fun he => hn' (he ▸ hn)
    exact ⟨(Function.update_of_ne hne ..).trans (h.not_placed n' hn' h2).1,
      (h.not_placed n' hn' h2).2⟩

end GrowTree

section Uses

variable {ntk : TechnologyNetwork} {ps : FanoutSubstitutionParams} {gates placed outs : List ℕ}
  {s : State} {g : Ghost} {n : ℕ} {old new : List ℕ}

/-- The families of the nodes in `old` serve one group of uses. Nodes from index `size` on belong
to `n`. -/
def Ghost.use (g : Ghost) (size n : ℕ) (old : List ℕ) : Ghost where
  owner := assignOwner size g.owner n
  base := g.base
  trees := g.trees
  uses m := g.uses m ++ batch (old.count m)

theorem Invariant.exists_gather (h : Invariant ntk ps gates placed outs s g)
    (hd : 2 ≤ ps.degree.toNat) (hf : ∀ n, ntk.fanoutSize n < 2 ^ 31)
    (htree : ∀ n ∈ placed, g.trees n = treeSize ntk ps n)
    (hold : ∀ n ∈ old, n ≤ 1 ∨ n ∈ placed)
    (hroom : ∀ n, (g.uses n).sum + old.count n ≤ ntk.fanoutSize n) :
    ∃ new, old.mapM (gatherChild ps s) = some new ∧ Serves ntk ps s g placed old new :=
  FanoutSubstitution.exists_gather hd hf h.served htree h.two_le_placed
    (fun n hn => ⟨h.constant n hn, h.copy.constant n hn⟩) h.copy.two_le_size hold fun n _ => hroom n

theorem Invariant.not_used (h : Invariant ntk ps gates placed outs s g)
    (hold : ∀ n ∈ old, n ≤ 1 ∨ n ∈ placed) (hn : n ∉ placed) (h2 : 2 ≤ n) :
    g.trees n = 0 ∧ g.uses n ++ batch (old.count n) = [] := by
  obtain ⟨ht, hu⟩ := h.not_placed n hn h2
  have hcount : old.count n = 0 := by
    rw [List.count_eq_zero]
    intro hm
    rcases hold n hm with hle | hp
    · omega
    · exact hn hp
  rw [ht, hu, hcount]
  exact ⟨rfl, rfl⟩

theorem Invariant.cloneGate (h : Invariant ntk ps gates placed outs s g)
    (hd : 2 ≤ ps.degree.toNat) (hf : ∀ n, ntk.fanoutSize n < 2 ^ 31)
    (htree : ∀ n ∈ placed, g.trees n = treeSize ntk ps n) (hg : n ∈ gates) (hn : n ∉ placed)
    (h2 : 2 ≤ n) (hne : (ntk.node n).children ≠ [])
    (hold : ∀ c ∈ (ntk.node n).children, c ≤ 1 ∨ c ∈ placed)
    (hroom : ∀ m, (g.uses m).sum + (ntk.node n).children.count m ≤ ntk.fanoutSize m) :
    ∃ s', cloneGate ntk ps s n = some s' ∧
      Invariant ntk ps gates (placed ++ [n]) outs s'
        (g.use s.substituted.size n (ntk.node n).children) := by
  obtain ⟨new, hgather, hnew⟩ := h.exists_gather hd hf htree hold hroom
  have hnewne : new ≠ [] := by
    rintro rfl
    exact hne hnew.owner.symm
  have hclone : s.substituted.cloneNode ntk n new =
      s.substituted.pushNode new (ntk.node n).function := by
    rw [cloneNode, createNode, if_neg (by simpa using hnewne)]
  refine ⟨{ s with
      substituted := (s.substituted.pushNode new (ntk.node n).function).1
      old2new := Function.update s.old2new n s.substituted.size }, ?_, ?_⟩
  · rw [FanoutSubstitution.cloneGate, hgather, Option.bind_eq_bind, Option.bind_some, hclone]
    rfl
  have he := @extends_pushNode s.substituted new (ntk.node n).function
  have ho : ∀ m < s.substituted.size,
      (g.use s.substituted.size n (ntk.node n).children).owner m = g.owner m := fun m hm => if_pos hm
  have hon : (g.use s.substituted.size n (ntk.node n).children).owner s.substituted.size = n :=
    if_neg (lt_irrefl _)
  have hlast : (s.substituted.pushNode new (ntk.node n).function).1.node s.substituted.size =
      ⟨new, (ntk.node n).function⟩ := by rw [node_pushNode, if_pos rfl]
  have hfresh : ∀ m ≥ s.substituted.size, new.count m = 0 := fun m hm =>
    List.count_eq_zero.mpr fun hm' => (hnew.lt_size m hm').not_ge hm
  have hci : s.substituted.size ∉ s.substituted.inputs := fun hm =>
    (h.copy.input_bounds _ hm).2.false
  have hfamily : ∀ n' ∈ placed, Function.update s.old2new n s.substituted.size n' =
      s.old2new n' := fun n' hn' => Function.update_of_ne (ne_of_mem_of_not_mem hn' hn) ..
  constructor
  · refine h.copy.pushNode hnew.lt_size fun a v hv => ?_
    rw [← List.map_map, hnew.owner]
    exact hv.rule n hg
  · intro m hm hs
    rw [size_pushNode] at hm
    rcases Nat.lt_succ_iff_lt_or_eq.mp hm with hlt | rfl
    · exact (h.shape m hlt hs).congr (he.node m hlt) (ho m hlt)
        fun c hc => ho c ((h.copy.child_lt m hlt c hc).trans hlt)
    · apply Shape.gate
      · rwa [hon]
      · rw [hlast, hon]
      · rw [hlast, hon, List.map_congr_left fun c hc => ho c (hnew.lt_size c hc), hnew.owner]
  · exact he.source h.copy h.source
  · exact fun m hm => (Function.update_of_ne (by omega) ..).trans (h.constant m hm)
  · exact h.inputs.trans (List.map_congr_left fun i hi => (hfamily i (h.input_placed i hi)).symm)
  · exact fun i hi => List.mem_append_left _ (h.input_placed i hi)
  · refine Eq.trans ?_ h.outputs
    exact List.map_congr_left fun m hm => ho m (h.output_lt m hm)
  · exact fun m hm => (h.output_lt m hm).trans_le he.size_le
  · exact h.numPos
  · intro m hm
    rw [ge_iff_le, size_pushNode] at hm
    rw [fanoutSize_pushNode, h.unused m (by omega), hfresh m (by omega)]
  · intro m hm hm2
    rw [size_pushNode] at hm
    rcases Nat.lt_succ_iff_lt_or_eq.mp hm with hlt | rfl
    · obtain ⟨hp, hmem⟩ := h.member m hlt hm2
      rw [ho m hlt]
      have hroot := hfamily _ hp
      refine ⟨List.mem_append_left _ hp, ?_⟩
      simp only [family, hroot]
      exact hmem
    · rw [hon]
      refine ⟨List.mem_append_right _ (List.mem_singleton_self n), ?_⟩
      simp only [family, Function.update_self]
      exact List.mem_cons_self
  · intro n' hn'
    rcases List.mem_append.mp hn' with hn' | hn'
    · exact h.two_le_placed n' hn'
    · exact List.mem_singleton.mp hn' ▸ h2
  · intro n' hn'
    rcases List.mem_append.mp hn' with hn' | hn'
    · refine (h.served n' hn').extends he ?_ rfl rfl rfl ho ?_
      · exact congrArg (· :: _) (hfamily n' hn')
      · obtain ⟨hs, hdist, hl⟩ := hnew.loaded n' hn'
        refine ⟨hs, hdist, hl.congr fun y hy => ?_⟩
        rw [fanoutSize_pushNode]
    · obtain rfl := List.mem_singleton.mp hn'
      obtain ⟨ht, hu⟩ := h.not_used hold hn h2
      have hroot : Function.update s.old2new n' s.substituted.size n' = s.substituted.size :=
        Function.update_self ..
      refine Served.fresh ?_ ?_ ?_ ht hu ?_ (h.queue n' hn) ?_
      · simp only [hroot, h.copy.two_le_size]
      · simp only [hroot, size_pushNode, Nat.lt_succ_self]
      · simp only [hroot, hon]
      · simp only [hroot, fanoutSize_pushNode, h.unused _ le_rfl, hfresh _ le_rfl]
      · have hni : n' ∉ ntk.inputs := fun hi => hn (h.input_placed n' hi)
        simp only [hroot, isBuf, isCi, hlast, List.contains_iff_mem, hni]
        simp [hci, pushNode]
  · intro m hm
    rw [List.mem_append, not_or] at hm
    exact h.queue m hm.1
  · intro m hm hm2
    rw [List.mem_append, not_or] at hm
    exact h.not_used hold hm.1 hm2

theorem Invariant.getFanout_eq_gatherChild (h : Invariant ntk ps gates placed outs s g) {o : ℕ} :
    getFanout ps s o (s.old2new o) = gatherChild ps s o := by
  rw [gatherChild, isConstant]
  split_ifs with hc
  · have ho : o ∉ placed := fun hp => by
      have h2 := h.two_le_placed o hp
      have hle := of_decide_eq_true hc
      omega
    rw [getFanout, if_neg (by simp [h.queue o ho])]
  · rfl

/-- `out` is the network after an output for the signal that `getFanout` returned. -/
theorem Invariant.createOutput (h : Invariant ntk ps gates placed outs s g)
    (hd : 2 ≤ ps.degree.toNat) (hf : ∀ n, ntk.fanoutSize n < 2 ^ 31)
    (htree : ∀ n ∈ placed, g.trees n = treeSize ntk ps n) {o : ℕ} (hold : o ≤ 1 ∨ o ∈ placed)
    (hroom : ∀ m, (g.uses m).sum + [o].count m ≤ ntk.fanoutSize m) :
    ∃ x, getFanout ps s o (s.old2new o) = some x ∧ ∀ out : TechnologyNetwork,
      out.nodes = s.substituted.nodes → out.inputs = s.substituted.inputs →
      out.numPis = s.substituted.numPis → out.outputs = s.substituted.outputs ++ [x] →
      out.numPos = min (outs.length + 1) ntk.numPos →
        Invariant ntk ps gates placed (outs ++ [o]) { s with substituted := out }
          (g.use s.substituted.size 0 [o]) := by
  have hold' : ∀ n ∈ [o], n ≤ 1 ∨ n ∈ placed := fun n hn => List.mem_singleton.mp hn ▸ hold
  obtain ⟨new, hgather, hnew⟩ := h.exists_gather hd hf htree hold' hroom
  obtain ⟨x, hx, hnew'⟩ : ∃ x, gatherChild ps s o = some x ∧ new = [x] := by
    rw [List.mapM_cons, List.mapM_nil] at hgather
    obtain ⟨x, hx, hrest⟩ := Option.bind_eq_some_iff.mp hgather
    exact ⟨x, hx, (Option.some.inj hrest).symm⟩
  subst hnew'
  refine ⟨x, h.getFanout_eq_gatherChild.trans hx, fun out hnodes hinputs hpis houtputs hpos => ?_⟩
  have hsize : out.size = s.substituted.size := congrArg List.length hnodes
  have hnode : ∀ m, out.node m = s.substituted.node m := fun m => by rw [node, node, hnodes]
  have hfan : ∀ m, out.fanoutSize m = s.substituted.fanoutSize m + [x].count m := by
    intro m
    rw [fanoutSize, fanoutSize, numUses, numUses, hnodes, houtputs, List.countP_append,
      ← Nat.add_assoc]
    rfl
  have he : Extends s.substituted out :=
    ⟨hsize.ge, fun m _ => hnode m, hinputs, hpis, fun m => by rw [hfan]; omega⟩
  have ho : ∀ m < s.substituted.size, (g.use s.substituted.size 0 [o]).owner m = g.owner m :=
    fun m hm => if_pos hm
  have hxlt : x < s.substituted.size := hnew.lt_size x (List.mem_singleton_self x)
  have hxo : g.owner x = o := (List.cons.inj hnew.owner).1
  constructor
  · exact h.copy.congr hnodes hinputs hpis ho
  · intro m hm hs
    rw [hsize] at hm
    have hs' : ¬ s.substituted.IsSource m := by rwa [IsSource, hinputs] at hs
    exact (h.shape m hm hs').congr (hnode m) (ho m hm)
      fun c hc => ho c ((h.copy.child_lt m hm c hc).trans hm)
  · exact he.source h.copy h.source
  · exact h.constant
  · exact hinputs.trans h.inputs
  · exact h.input_placed
  · rw [houtputs, List.map_append, List.map_singleton, ho x hxlt, hxo, ← h.outputs]
    exact congrArg (· ++ _) (List.map_congr_left fun m hm => ho m (h.output_lt m hm))
  · rw [houtputs, List.forall_mem_append, hsize]
    exact ⟨h.output_lt, by simpa using hxlt⟩
  · rw [List.length_append]
    exact hpos
  · intro m hm
    rw [hsize] at hm
    have hne : x ≠ m := (hxlt.trans_le hm).ne
    rw [hfan, h.unused m hm, List.count_singleton', if_neg hne]
  · intro m hm hm2
    rw [hsize] at hm
    rw [ho m hm]
    exact h.member m hm hm2
  · exact h.two_le_placed
  · intro n' hn'
    obtain ⟨hs, hdist, hl⟩ := hnew.loaded n' hn'
    refine (h.served n' hn').extends he rfl rfl rfl rfl ho ⟨hs, hdist, hl.congr fun y _ => ?_⟩
    exact hfan y
  · exact h.queue
  · exact fun m hm hm2 => h.not_used hold' hm hm2

end Uses

section Start

variable {ntk : TechnologyNetwork} {ps : FanoutSubstitutionParams}

def Ghost.start (ntk : TechnologyNetwork) : Ghost where
  owner := ntk.inputOwner
  base _ := 0
  trees _ := 0
  uses _ := []

theorem initialState_invariant [CopyInitializer] (hw : ntk.WellFormed) (gates : List ℕ) :
    Invariant ntk ps gates ntk.inputs [] (initialState ntk) (.start ntk) := by
  have hc : FreshCopy ntk (initialState ntk).substituted (initialState ntk).old2new :=
    initializeCopyNetwork_freshCopy hw
  constructor
  · exact hc.partialCopy gates
  · intro m hm hs
    have hle : ¬ m ≤ 1 := fun hle => hs (.inl hle)
    exact absurd (.inr (hc.mem_inputs m (by omega) hm)) hs
  · exact fun m _ => hc.children m
  · exact hc.constant
  · exact hc.inputs
  · exact fun n hn => hn
  · rw [hc.outputs, List.map_nil]
  · rw [hc.outputs]
    simp
  · exact hc.numPos.trans (Nat.zero_min _).symm
  · exact fun m _ => hc.fanoutSize m
  · intro m hm h2
    have hmem := hc.mem_inputs m h2 hm
    rw [hc.inputs] at hmem
    obtain ⟨n, hn, rfl⟩ := List.mem_map.mp hmem
    have howner : (Ghost.start ntk).owner ((initialState ntk).old2new n) = n := (hc.image hn).2.2
    rw [howner]
    exact ⟨hn, List.mem_cons_self⟩
  · exact fun n hn => (hw.input n hn).1
  · intro n hn
    obtain ⟨h2, hlt, howner⟩ := hc.image hn
    refine .fresh h2 hlt howner rfl rfl (hc.fanoutSize _) rfl ?_
    have hin := hc.mem_inputs _ h2 hlt
    simp [isBuf, isCi, hin, hn]
  · exact fun _ _ => rfl
  · exact fun _ _ _ => ⟨rfl, rfl⟩

end Start

end FanoutSubstitution

end Fiction
