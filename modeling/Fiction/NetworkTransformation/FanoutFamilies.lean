import Fiction.Library.FirstFit
import Fiction.Library.TransitionSystem
import Mathlib.Algebra.Order.BigOperators.Group.List
import Mathlib.Algebra.Order.Group.Nat
import Fiction.NetworkTransformation.FanoutTrees

/-!
# Families of copies

The family of a processed node consists of its image and of the buffers of its tree. Its uses are
distributed over the family first fit: the image accepts them until its fan-out size reaches the
threshold, and each buffer until it reaches the degree. The formula for the number of buffers makes
sure that some member accepts.
-/

namespace Fiction.FanoutSubstitution

open TechnologyNetwork FirstFit

/-- Values that the algorithm does not store. Nodes of the result have an owner in the source; a
node of the source has `trees n` buffers from `base n` on, and the sizes of the groups of uses that
were distributed so far. -/
structure Ghost where
  owner : ℕ → ℕ
  base : ℕ → ℕ
  trees : ℕ → ℕ
  uses : ℕ → List ℕ

def treeBuffers (g : Ghost) (n : ℕ) : List ℕ := List.range' (g.base n) (g.trees n)

def family (s : State) (g : Ghost) (n : ℕ) : List ℕ := s.old2new n :: treeBuffers g n

/-- The root, which is checked like a fan-out node if it is a buffer, and the buffers of a tree that
serves no use yet. -/
def holders (ps : FanoutSubstitutionParams) (buffer : Bool) (k : ℕ) : List Holder :=
  ⟨if k = 0 then 0 else 1, if k = 0 then none else some ps.threshold.toNat,
    if buffer then ps.degree.toNat else ps.threshold.toNat⟩ ::
  (List.range k).map fun i =>
    ⟨treeLoad (treeWidth ps) k i, some ps.degree.toNat, ps.degree.toNat⟩

/-- The group of `c` uses by one gate or output, if there are any. -/
def batch (c : ℕ) : List ℕ := if c = 0 then [] else [c]

@[simp] theorem sum_batch (c : ℕ) : (batch c).sum = c := by
  rw [batch]
  split_ifs with h <;> simp [h]

variable (ntk : TechnologyNetwork) (ps : FanoutSubstitutionParams)

structure Served (s : State) (g : Ghost) (n : ℕ) : Prop where
  two_le : 2 ≤ s.old2new n
  nodup : (family s g n).Nodup
  lt_size : ∀ m ∈ family s g n, m < s.substituted.size
  owner : ∀ m ∈ family s g n, g.owner m = n
  loaded : ∃ hs, distribute (holders ps (ntk.isBuf n) (g.trees n)) (g.uses n) = some hs ∧
    Loaded s.substituted.fanoutSize (family s g n) hs
  queue_eq_nil : s.availableFanouts n = [] ↔ g.trees n = 0
  queue : ∀ f : ℕ → ℕ, (∀ m, s.substituted.fanoutSize m ≤ f m) →
    (s.availableFanouts n).find? (fun m => f m < ps.degree.toNat) =
      (treeBuffers g n).find? fun m => f m < ps.degree.toNat
  isBuf_root : s.substituted.isBuf (s.old2new n) = ntk.isBuf n
  isBuf_tree : ∀ m ∈ treeBuffers g n, s.substituted.isBuf m = true

section Capacity

variable {ntk ps}

theorem sum_treeLoad (w k j : ℕ) :
    ((List.range j).map (treeLoad w k)).sum = min (j * w) (k - 1) := by
  induction j with
  | zero => simp
  | succ j ih =>
    rw [List.range_succ, List.map_append, List.sum_append, ih, List.map_singleton,
      List.sum_singleton, treeLoad, Nat.succ_mul]
    omega

theorem totalLoad_holders (hd : 2 ≤ ps.degree.toNat) (b : Bool) (k : ℕ) :
    totalLoad (holders ps b k) = k := by
  have hle : k ≤ k * treeWidth ps := Nat.le_mul_of_pos_right k (treeWidth_pos hd)
  have h := sum_treeLoad (treeWidth ps) k k
  simp only [totalLoad, holders, List.map_cons, List.map_map, Function.comp_def, List.sum_cons]
  change _ + ((List.range k).map (treeLoad (treeWidth ps) k)).sum = k
  rw [h]
  split_ifs <;> omega

/-- As long as not all uses are distributed, some member of the family accepts. -/
theorem exists_give (hd : 2 ≤ ps.degree.toNat) {b : Bool} {n : ℕ} {uses : List ℕ} {c : ℕ}
    (hf : ntk.fanoutSize n < 2 ^ 31) (hc : 0 < c) (hroom : uses.sum + c ≤ ntk.fanoutSize n)
    {hs : List Holder}
    (h : distribute (holders ps b (treeSize ntk ps n)) uses = some hs) :
    ∃ hs', give c hs = some hs' := by
  rw [← Option.ne_none_iff_exists']
  intro hnone
  rw [give_eq_none_iff] at hnone
  have htotal := totalLoad_distribute h
  rw [totalLoad_holders hd] at htotal
  have hmarks := marks_distribute h
  generalize hk : treeSize ntk ps n = k at *
  rcases hs with - | ⟨r, bs⟩
  · simp [holders] at hmarks
  simp only [holders, List.map_cons, List.cons.injEq, Prod.mk.injEq, List.map_map,
    Function.comp_def] at hmarks
  obtain ⟨⟨hr, -⟩, hbs⟩ := hmarks
  have hlen : bs.length = k := by simpa using congrArg List.length hbs
  obtain ⟨hroot, hbuffers⟩ := List.forall_mem_cons.mp hnone
  have hk0 : k ≠ 0 := by
    rintro rfl
    simp [Holder.accepts, hr] at hroot
  have hT : ps.threshold.toNat ≤ r.load := by
    rw [if_neg hk0] at hr
    simpa [Holder.accepts, hr] using hroot
  have hD : ∀ h ∈ bs, ps.degree.toNat ≤ h.load := by
    intro h hh
    have hm : (h.mark, h.limit) ∈ bs.map fun h => (h.mark, h.limit) := List.mem_map_of_mem hh
    rw [hbs] at hm
    obtain ⟨_, -, he⟩ := List.mem_map.mp hm
    have := hbuffers h hh
    simpa [Holder.accepts, ← (Prod.mk.inj he).1] using this
  have hsum : k * ps.degree.toNat ≤ (bs.map Holder.load).sum := by
    have := List.card_nsmul_le_sum (bs.map Holder.load) ps.degree.toNat (by simpa using hD)
    simpa [hlen] using this
  have hcap : ntk.fanoutSize n ≤ ps.threshold.toNat + k * (ps.degree.toNat - 1) := by
    have hproper : ¬ isProperFanout ntk ps n := by
      intro hproper
      rw [treeSize, if_pos hproper] at hk
      exact hk0 hk.symm
    rw [treeSize, if_neg hproper] at hk
    rw [← hk]
    exact fanoutSize_le_capacity hd hf
  simp only [totalLoad, List.map_cons, List.sum_cons] at htotal
  rw [Nat.mul_sub, Nat.mul_one] at hcap
  have : k ≤ k * ps.degree.toNat := Nat.le_mul_of_pos_right k (by omega)
  omega

end Capacity

section GetFanout

variable {ntk ps} {s : State} {g : Ghost} {n : ℕ}

theorem findFanout_eq (degree : ℕ) (substituted : TechnologyNetwork) (q : List ℕ) :
    findFanout degree substituted q = q.find? fun m => substituted.fanoutSize m < degree := by
  induction q with
  | nil => rfl
  | cons m q ih =>
    rw [findFanout, List.find?_cons, ih]
    by_cases h : substituted.fanoutSize m < degree
    · simp only [h, Nat.not_le.mpr h, if_false, decide_true]
    · simp only [h, Nat.not_lt.mp h, if_true, decide_false]

theorem Served.getFanout_eq (h : Served ntk ps s g n) {hs : List Holder}
    (hd : distribute (holders ps (ntk.isBuf n) (g.trees n)) (g.uses n) = some hs)
    (hl : Loaded s.substituted.fanoutSize (family s g n) hs) :
    getFanout ps s n (s.old2new n) = pick (family s g n) hs := by
  have hmarks := marks_distribute hd
  cases hl with
  | @cons _ r _ bs hr hbs =>
    simp only [holders, List.map_cons, List.cons.injEq, Prod.mk.injEq, List.map_map,
      Function.comp_def] at hmarks
    obtain ⟨⟨hmark, -⟩, hmarks⟩ := hmarks
    have hq : findFanout ps.degree.toNat s.substituted (s.availableFanouts n) =
        pick (treeBuffers g n) bs := by
      rw [findFanout_eq, h.queue _ fun m => le_rfl, Loaded.pick_eq_find hbs fun b hb => ?_]
      have hm : (b.mark, b.limit) ∈ bs.map fun b => (b.mark, b.limit) := List.mem_map_of_mem hb
      rw [hmarks] at hm
      obtain ⟨_, -, he⟩ := List.mem_map.mp hm
      exact (Prod.mk.inj he).1.symm
    rw [getFanout, hq, family, pick, Holder.accepts, hmark, hr]
    simp only [ne_eq, h.queue_eq_nil]
    by_cases hk : g.trees n = 0
    · simp [hk]
    · by_cases ht : s.substituted.fanoutSize (s.old2new n) < ps.threshold.toNat
      · simp [hk, ht, Nat.not_le.mpr ht]
      · simp [hk, ht, Nat.not_lt.mp ht]

/-- A group of `c` uses that fits into the fan-out size of the source is served by one member. -/
theorem Served.exists_getFanout (h : Served ntk ps s g n) (hd : 2 ≤ ps.degree.toNat)
    (hf : ntk.fanoutSize n < 2 ^ 31) (htree : g.trees n = treeSize ntk ps n) {c : ℕ} (hc : 0 < c)
    (hroom : (g.uses n).sum + c ≤ ntk.fanoutSize n) :
    ∃ x ∈ family s g n, getFanout ps s n (s.old2new n) = some x ∧
      ∃ hs, distribute (holders ps (ntk.isBuf n) (g.trees n)) (g.uses n ++ [c]) = some hs ∧
        ∀ f, (∀ y ∈ family s g n, f y = s.substituted.fanoutSize y + if y = x then c else 0) →
          Loaded f (family s g n) hs := by
  obtain ⟨hs, hdist, hl⟩ := h.loaded
  obtain ⟨hs', hgive⟩ := exists_give hd hf hc hroom (htree ▸ hdist)
  obtain ⟨x, hx⟩ := hl.pick_isSome hgive
  refine ⟨x, pick_mem hx, (h.getFanout_eq hdist hl).trans hx, hs', ?_, fun f hfy => ?_⟩
  · rw [distribute_concat, hdist, Option.bind_some, hgive]
  · exact hl.give h.nodup hgive hx hfy

end GetFanout

section Gather

variable {ntk ps} {s : State} {g : Ghost} {placed : List ℕ}

/-- The copies `new` of the uses `old` belong to the families of their originals, and account for
one group of uses in each family. -/
structure Serves (ntk : TechnologyNetwork) (ps : FanoutSubstitutionParams) (s : State) (g : Ghost)
    (placed old new : List ℕ) : Prop where
  owner : new.map g.owner = old
  lt_size : ∀ m ∈ new, m < s.substituted.size
  loaded : ∀ n ∈ placed, ∃ hs,
    distribute (holders ps (ntk.isBuf n) (g.trees n)) (g.uses n ++ batch (old.count n)) = some hs ∧
      Loaded (fun m => s.substituted.fanoutSize m + new.count m) (family s g n) hs

theorem exists_gather (hd : 2 ≤ ps.degree.toNat) (hf : ∀ n, ntk.fanoutSize n < 2 ^ 31)
    (hserved : ∀ n ∈ placed, Served ntk ps s g n)
    (htree : ∀ n ∈ placed, g.trees n = treeSize ntk ps n) (hplaced : ∀ n ∈ placed, 2 ≤ n)
    (hconst : ∀ n ≤ 1, s.old2new n = n ∧ g.owner n = n) (hsize : 2 ≤ s.substituted.size)
    {old : List ℕ} (hold : ∀ n ∈ old, n ≤ 1 ∨ n ∈ placed)
    (hroom : ∀ n ∈ placed, (g.uses n).sum + old.count n ≤ ntk.fanoutSize n) :
    ∃ new, old.mapM (gatherChild ps s) = some new ∧ Serves ntk ps s g placed old new := by
  have hex : ∀ n ∈ placed, 0 < old.count n → ∃ x ∈ family s g n,
      gatherChild ps s n = some x ∧ ∃ hs,
        distribute (holders ps (ntk.isBuf n) (g.trees n)) (g.uses n ++ [old.count n]) = some hs ∧
          ∀ f, (∀ y ∈ family s g n,
              f y = s.substituted.fanoutSize y + if y = x then old.count n else 0) →
            Loaded f (family s g n) hs := by
    intro n hn hc
    obtain ⟨x, hx, hget, hs⟩ :=
      (hserved n hn).exists_getFanout hd (hf n) (htree n hn) hc (hroom n hn)
    have hnc : isConstant n = false := by
      have := hplaced n hn
      simp only [isConstant, decide_eq_false_iff_not]
      omega
    exact ⟨x, hx, by rw [gatherChild, hnc, if_neg Bool.false_ne_true, hget], hs⟩
  -- constants stand for themselves, and the copies of other nodes belong to their family
  have hgather : ∀ n ∈ old, ∃ x, gatherChild ps s n = some x ∧ g.owner x = n ∧
      x < s.substituted.size := by
    intro n hn
    rcases hold n hn with h | h
    · refine ⟨n, ?_, (hconst n h).2, by omega⟩
      simp only [gatherChild, isConstant, h, decide_true, if_true, (hconst n h).1]
    · obtain ⟨x, hx, hget, -⟩ := hex n h (List.count_pos_iff.mpr hn)
      exact ⟨x, hget, (hserved n h).owner x hx, (hserved n h).lt_size x hx⟩
  have htarget : ∀ n ∈ old, gatherChild ps s n = some ((gatherChild ps s n).getD 0) ∧
      g.owner ((gatherChild ps s n).getD 0) = n ∧
      (gatherChild ps s n).getD 0 < s.substituted.size := by
    intro n hn
    obtain ⟨x, hx, ho, hlt⟩ := hgather n hn
    rw [hx]
    exact ⟨rfl, ho, hlt⟩
  have hmap : old.mapM (gatherChild ps s) =
      some (old.map fun n => (gatherChild ps s n).getD 0) := by
    rw [mapM_eq_some_iff_map, List.map_map]
    exact List.map_congr_left fun n hn => (htarget n hn).1
  refine ⟨_, hmap, ?_, ?_, fun n hn => ?_⟩
  · rw [List.map_map]
    exact (List.map_congr_left fun n hn => (htarget n hn).2.1).trans (List.map_id old)
  · intro m hm
    obtain ⟨n, hn, rfl⟩ := List.mem_map.mp hm
    exact (htarget n hn).2.2
  · have hcount : ∀ y ∈ family s g n, (old.map fun n => (gatherChild ps s n).getD 0).count y =
        if y = (gatherChild ps s n).getD 0 then old.count n else 0 := by
      intro y hy
      have howner := (hserved n hn).owner y hy
      rw [List.count, List.countP_map]
      split_ifs with hyx
      · refine List.countP_congr fun c hc => ?_
        simp only [Function.comp_apply, beq_iff_eq]
        constructor
        · rintro rfl
          rw [← howner, (htarget c hc).2.1]
        · rintro rfl
          exact hyx.symm
      · rw [List.countP_eq_zero]
        intro c hc
        simp only [Function.comp_apply, beq_iff_eq]
        rintro rfl
        rw [(htarget c hc).2.1] at howner
        exact hyx (by rw [howner])
    rcases Nat.eq_zero_or_pos (old.count n) with hz | hpos
    · obtain ⟨hs, hdist, hl⟩ := (hserved n hn).loaded
      refine ⟨hs, ?_, hl.congr fun y hy => ?_⟩
      · rw [hz, batch, if_pos rfl, List.append_nil, hdist]
      · rw [hcount y hy, hz, ite_self, Nat.add_zero]
    · obtain ⟨x, hx, hget, hs, hdist, hl⟩ := hex n hn hpos
      refine ⟨hs, ?_, hl _ fun y hy => ?_⟩
      · rw [batch, if_neg hpos.ne', hdist]
      · rw [hcount y hy, hget, Option.getD_some]

end Gather

end Fiction.FanoutSubstitution
