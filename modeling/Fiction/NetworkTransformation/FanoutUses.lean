import Fiction.NetworkTransformation.FanoutCheck
import Mathlib.Algebra.BigOperators.Group.Finset.Basic

/-!
# The uses of the copies

With the default parameters a node of `f` uses gets a tree of `f - 1` buffers, unless it is a
fan-out node of two uses already. Such a family has one slot for each use at most, so that none of
its members is left without uses.
-/

namespace Fiction

namespace FirstFit

variable {hs : List Holder} {c d : ℕ}

/-- If all but `d` of the slots are taken, no holder has more than `d` free slots. -/
theorem le_load_add (h : ∀ a ∈ hs, a.load ≤ c) (htotal : hs.length * c ≤ totalLoad hs + d) :
    ∀ a ∈ hs, c ≤ a.load + d := by
  induction hs generalizing d with
  | nil =>
    intro a ha
    cases ha
  | cons b hs ih =>
    obtain ⟨hb, hrest⟩ := List.forall_mem_cons.mp h
    rw [totalLoad, List.map_cons, List.sum_cons, List.length_cons, Nat.succ_mul] at htotal
    have hle : totalLoad hs ≤ hs.length * c := by
      have hsum := List.sum_le_card_nsmul (hs.map Holder.load) c (by simpa using hrest)
      rwa [List.length_map, Nat.nsmul_eq_mul] at hsum
    rw [List.forall_mem_cons]
    constructor
    · rw [totalLoad] at hle
      omega
    · apply ih hrest
      rw [totalLoad]
      omega

end FirstFit

namespace TechnologyNetwork

variable {ntk : TechnologyNetwork} {n : ℕ}

/-- If only gates have children, then only these are counted. -/
theorem sum_map_gates_eq {gates : List ℕ} (hnd : gates.Nodup) (hlt : ∀ n ∈ gates, n < ntk.size)
    {f : NetworkNode → ℕ} (hrest : ∀ n < ntk.size, n ∉ gates → f (ntk.node n) = 0) :
    (gates.map fun n => f (ntk.node n)).sum = (ntk.nodes.map f).sum := by
  rw [← List.sum_toFinset _ hnd, ← ntk.map_range_size f, ← List.sum_toFinset _ List.nodup_range]
  apply Finset.sum_subset
  · intro m hm
    rw [List.mem_toFinset] at hm ⊢
    exact List.mem_range.mpr (hlt m hm)
  · intro m hm hmg
    rw [List.mem_toFinset] at hm hmg
    exact hrest m (List.mem_range.mp hm) hmg

theorem fanoutSize_pos_iff :
    0 < ntk.fanoutSize n ↔ n ∈ ntk.outputs ∨ ∃ m < ntk.size, n ∈ (ntk.node m).children := by
  rw [fanoutSize, numUses, Nat.add_pos_iff_pos_or_pos, or_comm, List.countP_pos_iff]
  have hsum : 0 < (ntk.nodes.map fun data => data.children.countP fun c => c = n).sum ↔
      ∃ m < ntk.size, n ∈ (ntk.node m).children := by
    rw [Nat.pos_iff_ne_zero, Ne, List.sum_eq_zero_iff]
    simp only [List.forall_mem_map, List.countP_eq_zero, decide_eq_true_eq, not_forall, not_not]
    constructor
    · rintro ⟨data, hdata, c, hc, rfl⟩
      obtain ⟨m, hm, rfl⟩ := List.getElem_of_mem hdata
      refine ⟨m, hm, ?_⟩
      rwa [node, List.getD_eq_getElem?_getD, List.getElem?_eq_getElem hm]
    · rintro ⟨m, hm, hc⟩
      rw [node, List.getD_eq_getElem?_getD, List.getElem?_eq_getElem hm] at hc
      exact ⟨_, List.getElem_mem hm, n, hc, rfl⟩
  rw [hsum]
  simp

end TechnologyNetwork

namespace FanoutSubstitution

open TechnologyNetwork FirstFit

section Capacity

variable {ntk : TechnologyNetwork} {n : ℕ}

theorem numFanouts_default {fanoutSize : ℕ} (hf : fanoutSize < 2 ^ 31) :
    numFanouts {} fanoutSize = fanoutSize - 1 := by
  have hthreshold : ({} : FanoutSubstitutionParams).threshold.toNat = 1 := rfl
  have hdegree : ({} : FanoutSubstitutionParams).degree.toNat = 2 := rfl
  have hexcess : toInt32 ((fanoutSize : ℤ) - (1 : ℕ)) = fanoutSize - 1 := by
    rw [toInt32, Int.bmod_def]
    omega
  have hgain : toInt32 (toInt32 (2 : ℕ) - 1) = 1 := by decide
  rw [numFanouts, hthreshold, hdegree, toInt32_of_lt hf, toInt32_of_lt (by decide : 1 < 2 ^ 31),
    hexcess, hgain, max_self, Int.ediv_one]
  omega

theorem sum_usesOf_useGroups_eq {gates : List ℕ} (hnd : gates.Nodup)
    (hlt : ∀ n ∈ gates, n < ntk.size)
    (hrest : ∀ m < ntk.size, m ∉ gates → (ntk.node m).children = []) (n : ℕ) :
    (usesOf (useGroups ntk gates) n).sum = ntk.fanoutSize n := by
  rw [sum_usesOf_useGroups]
  refine congrArg (· + _) (sum_map_gates_eq (f := fun x => x.children.count n) hnd hlt ?_)
  intro m hm hmg
  rw [hrest m hm hmg, List.count_nil]

variable {s : State} {g : Ghost}

/-- No member of a balanced family remains without uses. -/
theorem Served.fanoutSize_pos (h : Served ntk {} s g n) (hf : ntk.fanoutSize n < 2 ^ 31)
    (htree : g.trees n = treeSize ntk {} n) (huses : (g.uses n).sum = ntk.fanoutSize n)
    (hcheck : ∀ m ∈ family s g n, isNodeSubstituted s.substituted {} m = true)
    (htwo : ∀ m ∈ family s g n, 2 ≤ m) (hpos : 0 < ntk.fanoutSize n) :
    ∀ m ∈ family s g n, 0 < s.substituted.fanoutSize m := by
  obtain ⟨hs, hdist, hl⟩ := h.loaded
  have htotal := totalLoad_distribute hdist
  rw [totalLoad_holders (by decide), huses, htree] at htotal
  have hlen : hs.length = treeSize ntk {} n + 1 := by
    have hmarks := congrArg List.length (marks_distribute hdist)
    simpa [holders, htree] using hmarks
  have hload : ∀ a ∈ hs, a.load ≤ 2 := by
    have hwithin := (h.check_iff (by decide) (by decide) htwo hdist hl).mp hcheck
    have hlimit : ∀ a ∈ hs, a.limit ≤ 2 := by
      intro a ha
      have hmem : (a.mark, a.limit) ∈ hs.map fun a => (a.mark, a.limit) := List.mem_map_of_mem ha
      rw [marks_distribute hdist, holders, List.map_cons, List.mem_cons, List.map_map] at hmem
      rcases hmem with heq | hmem
      · rw [(Prod.mk.inj heq).2]
        split_ifs <;> decide
      · obtain ⟨i, -, heq⟩ := List.mem_map.mp hmem
        exact (Prod.mk.inj heq).2.symm.le
    exact fun a ha => (hwithin a ha).trans (hlimit a ha)
  have hfull : ∀ a ∈ hs, 0 < a.load := by
    by_cases hproper : isProperFanout ntk {} n = true
    · rw [treeSize, if_pos hproper] at hlen htotal
      obtain ⟨r, rfl⟩ := List.length_eq_one_iff.mp hlen
      rw [List.forall_mem_singleton]
      simp only [totalLoad, List.map_singleton, List.sum_singleton] at htotal
      omega
    · rw [treeSize, if_neg hproper, numFanouts_default hf] at hlen htotal
      intro a ha
      have hle := le_load_add hload (d := 1) (by rw [hlen]; omega) a ha
      omega
  intro m hm
  obtain ⟨a, ha, heq⟩ : ∃ a ∈ hs, a.load = s.substituted.fanoutSize m := by
    clear hdist htotal hlen hload hcheck htwo
    generalize family s g n = ids at hl hm
    induction hl with
    | nil => cases hm
    | @cons x a ids hs hx _ ih =>
      rcases List.mem_cons.mp hm with rfl | hm
      · exact ⟨a, List.mem_cons_self, hx⟩
      · obtain ⟨b, hb, heq⟩ := ih (fun a ha => hfull a (List.mem_cons_of_mem _ ha)) hm
        exact ⟨b, List.mem_cons_of_mem _ hb, heq⟩
  exact heq ▸ hfull a ha

/-- A node without uses gets no tree. -/
theorem Served.fanoutSize_root_eq_zero (h : Served ntk {} s g n)
    (htree : g.trees n = treeSize ntk {} n) (huses : (g.uses n).sum = ntk.fanoutSize n)
    (hzero : ntk.fanoutSize n = 0) : s.substituted.fanoutSize (s.old2new n) = 0 := by
  obtain ⟨hs, hdist, hl⟩ := h.loaded
  have htotal := totalLoad_distribute hdist
  have hsize : treeSize ntk {} n = 0 := by
    rw [treeSize, hzero]
    split_ifs
    · rfl
    · exact numFanouts_default (by decide)
  rw [totalLoad_holders (by decide), huses, htree, hsize, hzero] at htotal
  cases hl with
  | @cons _ r _ bs hr _ =>
    rw [totalLoad, List.map_cons, List.sum_cons] at htotal
    rw [← hr]
    omega

end Capacity

section Names

variable {ntk : TechnologyNetwork} {ps : FanoutSubstitutionParams} {gates placed outs : List ℕ}
  {s : State} {g : Ghost}

/-- Names do not matter. -/
theorem Invariant.rename (h : Invariant ntk ps gates placed outs s g) {out : TechnologyNetwork}
    (hsame : SameLogic s.substituted out) :
    Invariant ntk ps gates placed outs { s with substituted := out } g := by
  have hfan : ∀ m, out.fanoutSize m = s.substituted.fanoutSize m := by
    intro m
    rw [hsame.eq]
    rfl
  have hnode : ∀ m, out.node m = s.substituted.node m := by
    intro m
    rw [hsame.eq]
    rfl
  have hsize : out.size = s.substituted.size := by
    rw [hsame.eq]
    rfl
  have he : Extends s.substituted out :=
    ⟨hsize.ge, fun m _ => hnode m, hsame.inputs, hsame.numPis, fun m => (hfan m).ge⟩
  constructor
  · exact h.copy.congr hsame.nodes hsame.inputs hsame.numPis fun _ _ => rfl
  · intro m hm hs
    rw [hsize] at hm
    rw [he.isSource] at hs
    exact (h.shape m hm hs).congr (hnode m) rfl fun _ _ => rfl
  · exact he.source h.copy h.source
  · exact h.constant
  · exact hsame.inputs.trans h.inputs
  · exact h.input_placed
  · exact hsame.outputs ▸ h.outputs
  · rw [hsame.outputs, hsize]
    exact h.output_lt
  · exact hsame.numPos.trans h.numPos
  · intro m hm
    rw [hsize] at hm
    exact (hfan m).trans (h.unused m hm)
  · intro m hm
    rw [hsize] at hm
    exact h.member m hm
  · exact h.two_le_placed
  · intro n hn
    obtain ⟨hs, hdist, hl⟩ := (h.served n hn).loaded
    exact (h.served n hn).extends he rfl rfl rfl rfl (fun _ _ => rfl)
      ⟨hs, hdist, hl.congr fun y _ => hfan y⟩
  · exact h.queue
  · exact h.not_placed

end Names

end FanoutSubstitution

end Fiction
