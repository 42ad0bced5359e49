import Fiction.NetworkTransformation.FanoutEquivalence

/-!
# When the result passes the check

The check allows as many uses as the degree for buffers and as the threshold for other nodes, but
the root of a tree is filled up to the threshold even if it is a buffer, and a gate that uses a node
several times takes all its copies from one member of the family. The result passes exactly if
neither of this makes a member exceed its limit.
-/

namespace Fiction.FanoutSubstitution

open TechnologyNetwork FirstFit

/-- The limit of the root, which is checked like a fan-out node if it is a buffer. -/
def rootLimit (ntk : TechnologyNetwork) (ps : FanoutSubstitutionParams) (n : ℕ) : ℕ :=
  if ntk.isBuf n then ps.degree.toNat else ps.threshold.toNat

/-- The number of uses that the first `i` of `k` buffers can serve. -/
def freeSlots (ps : FanoutSubstitutionParams) (k i : ℕ) : ℕ :=
  i * ps.degree.toNat - min (i * treeWidth ps) (k - 1)

/-- `p` is the smallest number of uses in whole groups that fills the root up to the threshold, or
the number of all uses. One slot of the root is taken by the tree. -/
structure IsRootShare (threshold : ℕ) (uses : List ℕ) (p : ℕ) : Prop where
  prefixSum : IsPrefixSum uses p
  full : p = uses.sum ∨ threshold ≤ 1 + p
  least : ∀ q, IsPrefixSum uses q → threshold ≤ 1 + q → p ≤ q

/-- The groups of uses can be cut where a member of the family has reached its limit. -/
def Balanced (ntk : TechnologyNetwork) (ps : FanoutSubstitutionParams) (gates : List ℕ)
    (n : ℕ) : Prop :=
  let uses := usesOf (useGroups ntk gates) n
  let k := treeSize ntk ps n
  if k = 0 then uses.sum ≤ rootLimit ntk ps n
  else ∃ p, IsRootShare ps.threshold.toNat uses p ∧ 1 + p ≤ rootLimit ntk ps n ∧
    ∀ i ≤ k, p + freeSlots ps k i ≤ uses.sum → IsPrefixSum uses (p + freeSlots ps k i)

theorem IsRootShare.unique {threshold p q : ℕ} {uses : List ℕ}
    (hp : IsRootShare threshold uses p) (hq : IsRootShare threshold uses q) : p = q := by
  have hle : ∀ {p q}, IsRootShare threshold uses p → IsRootShare threshold uses q → p ≤ q := by
    intro p q hp hq
    rcases hq.full with rfl | hfull
    · exact hp.prefixSum.le
    · exact hp.least q hq.prefixSum hfull
  exact le_antisymm (hle hp hq) (hle hq hp)

section Holders

variable {ntk : TechnologyNetwork} {ps : FanoutSubstitutionParams} {uses : List ℕ}
  {hs : List Holder} {n k : ℕ}

theorem freeSpace_buffers (hd : 2 ≤ ps.degree.toNat) {i : ℕ} (hi : i ≤ k) :
    freeSpace (((List.range k).map fun i => (⟨treeLoad (treeWidth ps) k i, some ps.degree.toNat,
      ps.degree.toNat⟩ : Holder)).take i) = freeSlots ps k i := by
  have hload : ∀ j, treeLoad (treeWidth ps) k j ≤ ps.degree.toNat := fun j =>
    (min_le_left _ _).trans (treeWidth_le hd)
  have hsum : ∀ j, ((List.range j).map fun i =>
        ps.degree.toNat - treeLoad (treeWidth ps) k i).sum +
      ((List.range j).map (treeLoad (treeWidth ps) k)).sum = j * ps.degree.toNat := by
    intro j
    induction j with
    | zero => simp
    | succ j ih =>
      simp only [List.range_succ, List.map_append, List.sum_append, List.map_singleton,
        List.sum_singleton, Nat.succ_mul]
      have := hload j
      omega
  rw [freeSpace, ← List.map_take, List.take_range, min_eq_left hi, List.map_map, freeSlots,
    ← sum_treeLoad, ← hsum i, Nat.add_sub_cancel]
  rfl

/-- A family stays within its limits exactly if the groups of uses can be cut at its members. -/
theorem withinLimits_holders_iff (hd : 2 ≤ ps.degree.toNat)
    (h : distribute (holders ps (ntk.isBuf n) k) uses = some hs) :
    WithinLimits hs ↔
      if k = 0 then uses.sum ≤ rootLimit ntk ps n
      else ∃ p, IsRootShare ps.threshold.toNat uses p ∧ 1 + p ≤ rootLimit ntk ps n ∧
        ∀ i ≤ k, p + freeSlots ps k i ≤ uses.sum → IsPrefixSum uses (p + freeSlots ps k i) := by
  by_cases hk : k = 0
  · subst hk
    have hmarks := marks_distribute h
    have htotal := totalLoad_distribute h
    rw [totalLoad_holders hd, Nat.zero_add] at htotal
    simp only [holders, List.range_zero, List.map_nil, List.map_singleton, if_true] at hmarks
    obtain ⟨r, rfl⟩ := List.length_eq_one_iff.mp (by simpa using congrArg List.length hmarks)
    simp only [List.map_singleton, List.cons.injEq, Prod.mk.injEq, and_true] at hmarks
    simp only [totalLoad, List.map_singleton, List.sum_singleton] at htotal
    rw [if_pos rfl, WithinLimits, List.forall_mem_singleton, htotal, hmarks.2, rootLimit]
  · rw [if_neg hk]
    rw [holders] at h
    obtain ⟨xs, ys, hs₂, rfl, rfl, hdist, hend, hmin⟩ := distribute_cons (if_neg hk) h
    simp only [if_neg hk] at hend hmin
    have hshare : IsRootShare ps.threshold.toNat (xs ++ ys) xs.sum := by
      refine ⟨isPrefixSum_append_add.mpr (isPrefixSum_zero ys), hend.imp_left ?_, hmin⟩
      rintro rfl
      rw [List.append_nil]
    have hbuffers := withinLimits_distribute_iff (fun b hb => ?_) hdist
    · rw [List.length_map, List.length_range] at hbuffers
      have hcut : WithinLimits hs₂ ↔ ∀ i ≤ k, xs.sum + freeSlots ps k i ≤ (xs ++ ys).sum →
          IsPrefixSum (xs ++ ys) (xs.sum + freeSlots ps k i) := by
        rw [hbuffers]
        refine forall₂_congr fun i hi => ?_
        rw [freeSpace_buffers hd hi, isPrefixSum_append_add, List.sum_append,
          Nat.add_le_add_iff_left]
      rw [WithinLimits, List.forall_mem_cons]
      change (_ ≤ rootLimit ntk ps n ∧ WithinLimits hs₂) ↔ _
      rw [hcut]
      constructor
      · rintro ⟨hroot, hcut⟩
        exact ⟨xs.sum, hshare, by simpa [Holder.add, hk] using hroot, hcut⟩
      · rintro ⟨p, hp, hroot, hcut⟩
        obtain rfl := hp.unique hshare
        exact ⟨by simpa [Holder.add, hk] using hroot, hcut⟩
    · obtain ⟨i, -, rfl⟩ := List.mem_map.mp hb
      exact ⟨rfl, (min_le_left _ _).trans (treeWidth_le hd)⟩

end Holders

section Check

variable {ntk : TechnologyNetwork} {ps : FanoutSubstitutionParams} {gates placed outs : List ℕ}
  {s : State} {g : Ghost} {n : ℕ}

theorem isNodeSubstituted_iff (hd : 2 ≤ ps.degree.toNat) (ht : 1 ≤ ps.threshold.toNat) {m : ℕ}
    (hm : 2 ≤ m) : isNodeSubstituted ntk ps m = true ↔
      ntk.fanoutSize m ≤ if ntk.isBuf m then ps.degree.toNat else ps.threshold.toNat := by
  have hc : isConstant m = false := by
    rw [isConstant, decide_eq_false_iff_not]
    omega
  rw [isNodeSubstituted, hc, if_neg Bool.false_ne_true, isFanout]
  by_cases hb : ntk.isBuf m = true
  · by_cases hf : ntk.fanoutSize m > 1
    · simp [hb, hf]
    · simp only [hb, hf, and_false, decide_false, Bool.false_eq_true, if_false, if_true,
        decide_eq_true_eq]
      omega
  · simp [hb]

theorem Served.check_iff (h : Served ntk ps s g n) (hd : 2 ≤ ps.degree.toNat)
    (ht : 1 ≤ ps.threshold.toNat) (htwo : ∀ m ∈ family s g n, 2 ≤ m) {hs : List Holder}
    (hdist : distribute (holders ps (ntk.isBuf n) (g.trees n)) (g.uses n) = some hs)
    (hl : Loaded s.substituted.fanoutSize (family s g n) hs) :
    (∀ m ∈ family s g n, isNodeSubstituted s.substituted ps m = true) ↔ WithinLimits hs := by
  have hmarks := marks_distribute hdist
  cases hl with
  | @cons _ r _ bs hr hbs =>
    simp only [holders, List.map_cons, List.cons.injEq, Prod.mk.injEq, List.map_map,
      Function.comp_def] at hmarks
    obtain ⟨⟨-, hlimit⟩, hmarks⟩ := hmarks
    have hD : ∀ b ∈ bs, b.limit = ps.degree.toNat := by
      intro b hb
      have hm : (b.mark, b.limit) ∈ bs.map fun b => (b.mark, b.limit) := List.mem_map_of_mem hb
      rw [hmarks] at hm
      obtain ⟨_, -, he⟩ := List.mem_map.mp hm
      exact (Prod.mk.inj he).2.symm
    rw [WithinLimits, family, List.forall_mem_cons, List.forall_mem_cons, hr, hlimit,
      isNodeSubstituted_iff hd ht h.two_le, h.isBuf_root]
    refine and_congr_right fun _ => ?_
    change _ ↔ WithinLimits bs
    rw [Loaded.withinLimits_iff hbs hD]
    refine forall₂_congr fun m hm => ?_
    rw [isNodeSubstituted_iff hd ht (htwo m (List.mem_cons_of_mem _ hm)), h.isBuf_tree m hm,
      if_pos rfl]

theorem Invariant.two_le_of_mem_family (h : Invariant ntk ps gates placed outs s g)
    (hn : n ∈ placed) {m : ℕ} (hm : m ∈ family s g n) : 2 ≤ m := by
  by_contra hlt
  have h1 := h.copy.constant m (by omega)
  have h2 := h.two_le_placed n hn
  rw [(h.served n hn).owner m hm] at h1
  omega

theorem Invariant.isFanoutSubstituted_iff (h : Invariant ntk ps gates placed outs s g) :
    isFanoutSubstituted s.substituted ps = true ↔
      ∀ n ∈ placed, ∀ m ∈ family s g n, isNodeSubstituted s.substituted ps m = true := by
  rw [isFanoutSubstituted, List.all_eq_true]
  constructor
  · exact fun hall n hn m hm => hall m (List.mem_range.mpr ((h.served n hn).lt_size m hm))
  · intro hall m hm
    by_cases hc : m ≤ 1
    · simp [isNodeSubstituted, isConstant, hc]
    · obtain ⟨hp, hmem⟩ := h.member m (List.mem_range.mp hm) (by omega)
      exact hall _ hp m hmem

theorem fanoutSubstitution_checked_iff [CopyInitializer] (ntk : TechnologyNetwork)
    (hw : ntk.WellFormed) (V : ntk.TopoView) (ps : FanoutSubstitutionParams)
    (hd : 2 ≤ ps.degree.toNat) (ht : 1 ≤ ps.threshold.toNat) :
    ∃ ntk', run ntk ps V.gates = some ntk' ∧
      (isFanoutSubstituted ntk' ps = true ↔
        ∀ n ∈ ntk.inputs ++ V.gates, Balanced ntk ps V.gates n) := by
  obtain ⟨s, hrun, g, h, htree, huses⟩ := run_reached hw V hd
  have hsame := ntk.restoreNames_sameLogic s.substituted V.gates s.old2new
  have heq : isFanoutSubstituted (ntk.restoreNames s.substituted V.gates s.old2new) ps =
      isFanoutSubstituted s.substituted ps := by
    rw [hsame.eq]
    rfl
  refine ⟨_, hrun, ?_⟩
  rw [heq, h.isFanoutSubstituted_iff]
  refine forall₂_congr fun n hn => ?_
  obtain ⟨hs, hdist, hl⟩ := (h.served n hn).loaded
  rw [(h.served n hn).check_iff hd ht (fun m => h.two_le_of_mem_family hn) hdist hl]
  rw [htree n hn, huses n] at hdist
  exact withinLimits_holders_iff hd hdist

theorem fanoutSubstitution_checked_iff_mixedOutputs :
    ∃ ntk', run mixedOutputs {} mixedOutputsView.gates = some ntk' ∧
      (isFanoutSubstituted ntk' {} = true ↔
        ∀ n ∈ mixedOutputs.inputs ++ mixedOutputsView.gates,
          Balanced mixedOutputs {} mixedOutputsView.gates n) :=
  fanoutSubstitution_checked_iff mixedOutputs mixedOutputs_wellFormed mixedOutputsView {}
    (by decide) (by decide)

def sharedBuffer : TechnologyNetwork :=
  let (ntk, a) := empty.createPi
  let (ntk, b) := ntk.createBuf a
  ((ntk.createPo b).createPo b).createPo b

/-- The buffer has as many uses as the threshold allows, but more than the degree. -/
theorem sharedBuffer_not_checked :
    ¬ ∀ (ntk : TechnologyNetwork) (_ : ntk.WellFormed) (V : ntk.TopoView)
      (ps : FanoutSubstitutionParams), 2 ≤ ps.degree.toNat → 1 ≤ ps.threshold.toNat →
        ∃ ntk', run ntk ps V.gates = some ntk' ∧ isFanoutSubstituted ntk' ps = true := by
  intro h
  have hw : sharedBuffer.WellFormed :=
    wellFormed_of_forall_lt (by decide) (by decide) (by decide) (by decide) (by decide)
      (by decide) (by decide)
  obtain ⟨ntk', hrun, hcheck⟩ := h sharedBuffer hw (creationView (by decide) (by decide))
    { threshold := 3 } (by decide) (by decide)
  have hfalse : (run sharedBuffer { threshold := 3 } sharedBuffer.creationOrder).map
      (fun ntk => isFanoutSubstituted ntk { threshold := 3 }) = some false := by decide
  have hrun' : run sharedBuffer { threshold := 3 } sharedBuffer.creationOrder = some ntk' := hrun
  rw [hrun', Option.map_some, hcheck] at hfalse
  exact absurd hfalse (by decide)

end Check

section Plain

variable {ntk : TechnologyNetwork} {ps : FanoutSubstitutionParams} {gates : List ℕ} {n : ℕ}

theorem isPrefixSum_of_le {xs : List ℕ} (h : ∀ x ∈ xs, x = 1) {p : ℕ} (hp : p ≤ xs.sum) :
    IsPrefixSum xs p := by
  have hsum : ∀ ys : List ℕ, (∀ x ∈ ys, x = 1) → ys.sum = ys.length := by
    intro ys hys
    rw [List.eq_replicate_iff.mpr ⟨rfl, hys⟩, List.sum_replicate_nat]
    simp
  refine ⟨p, ?_⟩
  rw [hsum xs h] at hp
  rw [hsum _ fun x hx => h x (List.mem_of_mem_take hx), List.length_take_of_le hp]

/-- A node that no gate uses twice is balanced if the threshold is at most the degree, or if it is
no buffer with more uses than the degree. -/
theorem balanced_of_simple (hw : ntk.WellFormed) (hd : 2 ≤ ps.degree.toNat)
    (ht : 1 ≤ ps.threshold.toNat) (hnd : gates.Nodup) (hlt : ∀ m ∈ gates, m < ntk.size)
    (hsimple : ∀ m ∈ gates, (ntk.node m).children.count n ≤ 1)
    (hbuf : ntk.isBuf n = true →
      ps.threshold.toNat ≤ ps.degree.toNat ∨ ntk.fanoutSize n ≤ ps.degree.toNat) :
    Balanced ntk ps gates n := by
  have hones : ∀ x ∈ usesOf (useGroups ntk gates) n, x = 1 := by
    intro x hx
    obtain ⟨group, hgroup, hx⟩ := List.mem_flatMap.mp hx
    have hone : group.count n ≤ 1 := by
      rcases List.mem_append.mp hgroup with hg | hg
      · obtain ⟨m, hm, rfl⟩ := List.mem_map.mp hg
        exact hsimple m hm
      · obtain ⟨o, -, rfl⟩ := List.mem_map.mp hg
        exact List.count_le_length
    rw [batch] at hx
    split_ifs at hx with hz
    · cases hx
    · rw [List.mem_singleton.mp hx]
      omega
  have hroom := sum_usesOf_useGroups_le hnd hlt n
  have hcap := @fanoutSize_le_capacity ps (ntk.fanoutSize n) hd (hw.fanoutSize_lt n)
  have hfew : isProperFanout ntk ps n = false → ntk.isBuf n = true →
      ntk.fanoutSize n ≤ ps.degree.toNat → ntk.fanoutSize n ≤ 1 := by
    intro hproper hb hf
    by_contra hgt
    simp [isProperFanout, isFanout, hb, hf, Nat.lt_of_not_le hgt] at hproper
  simp only [Balanced, rootLimit]
  split_ifs with hk hb hb
  · rcases hbuf hb with hle | hle
    · rw [treeSize] at hk
      split_ifs at hk with hproper
      · have := (of_decide_eq_true hproper).2
        omega
      · rw [hk, Nat.zero_mul] at hcap
        omega
    · omega
  · rw [treeSize] at hk
    split_ifs at hk with hproper
    · have := (of_decide_eq_true (of_decide_eq_true hproper).1).1
      exact absurd this hb
    · rw [hk, Nat.zero_mul] at hcap
      omega
  · have hproper : isProperFanout ntk ps n = false := by
      rw [treeSize] at hk
      split_ifs at hk with hproper
      · exact absurd rfl hk
      · simpa using hproper
    refine ⟨min (ps.threshold.toNat - 1) (usesOf (useGroups ntk gates) n).sum, ⟨?_, ?_, ?_⟩, ?_,
      fun i _ hle => isPrefixSum_of_le hones hle⟩
    · exact isPrefixSum_of_le hones (min_le_right _ _)
    · omega
    · intro q _ hq
      omega
    · rcases hbuf hb with hle | hle
      · omega
      · have := hfew hproper hb hle
        omega
  · refine ⟨min (ps.threshold.toNat - 1) (usesOf (useGroups ntk gates) n).sum, ⟨?_, ?_, ?_⟩, ?_,
      fun i _ hle => isPrefixSum_of_le hones hle⟩
    · exact isPrefixSum_of_le hones (min_le_right _ _)
    · omega
    · intro q _ hq
      omega
    · omega

end Plain

section Inputs

variable {ntk : TechnologyNetwork} {ps : FanoutSubstitutionParams} {s : State} {g : Ghost} {n : ℕ}

theorem Served.fanoutSize_root_le (h : Served ntk ps s g n) (ht : ps.threshold.toNat = 1)
    (huses : g.trees n = 0 → (g.uses n).sum ≤ 1) :
    s.substituted.fanoutSize (s.old2new n) ≤ 1 := by
  obtain ⟨hs, hdist, hl⟩ := h.loaded
  cases hl with
  | @cons _ r _ bs hr hbs =>
    rw [← hr]
    by_cases hk : g.trees n = 0
    · have htotal := totalLoad_distribute hdist
      have hload : r.load ≤ totalLoad (r :: bs) := by simp [totalLoad]
      have hzero : totalLoad (holders ps (ntk.isBuf n) (g.trees n)) = 0 := by
        simp [hk, holders, totalLoad]
      have := huses hk
      omega
    · rw [holders, distribute_cons_of_full (by simp [Holder.accepts, hk, ht])] at hdist
      obtain ⟨hs₂, -, heq⟩ := Option.map_eq_some_iff.mp hdist
      rw [← (List.cons.inj heq).1]
      simp [hk]

/-- What the substitution guarantees for the inputs of its result. -/
structure SubstitutedInputs (ntk ntk' : TechnologyNetwork) : Prop where
  fanoutSize_le : ∀ m ∈ ntk'.inputs, ntk'.fanoutSize m ≤ 1
  nodup : ntk'.inputs.Nodup
  two_le : ∀ m ∈ ntk'.inputs, 2 ≤ m
  length : ntk'.inputs.length = ntk.inputs.length
  numPis : ntk'.numPis = ntk.numPis

theorem fanoutSubstitution_inputs [CopyInitializer] (hw : ntk.WellFormed) (V : ntk.TopoView) :
    ∃ ntk', run ntk {} V.gates = some ntk' ∧ SubstitutedInputs ntk ntk' := by
  obtain ⟨s, hrun, g, h, htree, huses⟩ := @run_reached ntk {} _ hw V (by decide)
  have hsame := ntk.restoreNames_sameLogic s.substituted V.gates s.old2new
  have hinputs : s.substituted.inputs.map g.owner = ntk.inputs := h.copy.inputs
  refine ⟨_, hrun, fun m hm => ?_, ?_, fun m hm => ?_, ?_, ?_⟩
  · have hfanout : (ntk.restoreNames s.substituted V.gates s.old2new).fanoutSize m =
        s.substituted.fanoutSize m := by
      rw [hsame.eq]
      rfl
    rw [hsame.inputs, h.inputs] at hm
    obtain ⟨n, hn, rfl⟩ := List.mem_map.mp hm
    have hplaced := h.input_placed n hn
    rw [hfanout]
    refine (h.served n hplaced).fanoutSize_root_le rfl fun hk => ?_
    have hproper : isProperFanout ntk {} n = false := by
      simp [isProperFanout, isFanout, isBuf, isCi, hn]
    have hsize : numFanouts {} (ntk.fanoutSize n) = 0 := by
      rw [htree n hplaced, treeSize, hproper, if_neg Bool.false_ne_true] at hk
      exact hk
    have hcap := @fanoutSize_le_capacity {} (ntk.fanoutSize n) (by decide) (hw.fanoutSize_lt n)
    rw [hsize, Nat.zero_mul] at hcap
    have hsum := sum_usesOf_useGroups_le V.sorted.nodup V.gates_lt n
    rw [huses n]
    exact hsum.trans hcap
  · rw [hsame.inputs]
    exact List.Nodup.of_map g.owner (hinputs ▸ hw.inputs_nodup)
  · rw [hsame.inputs] at hm
    exact (h.copy.input_bounds m hm).1
  · rw [hsame.inputs, ← hinputs, List.length_map]
  · rw [hsame.numPis, h.copy.numPis]

end Inputs

end Fiction.FanoutSubstitution
