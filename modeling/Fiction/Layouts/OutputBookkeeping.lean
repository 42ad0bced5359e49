import Fiction.Layouts.PlacementInvariant
import Mathlib.Data.List.Nodup

/-!
# Bookkeeping of primary outputs and register inputs

`Tracked` runs a layout next to the lists of the output nodes that a caller expects to find: a
primary output or register input is listed from its creation on until it is moved to a dead tile.
`Bookkept` says that the stored vector of output tiles and the counter `num_pos` agree with these
lists.

The code keeps them in step as long as every call is `Tame`: no output is overwritten, no primary
output is moved to a dead tile, and a node without a tile is not moved while other outputs are
without a tile, because all of these share one entry. Moving a primary output to a dead tile erases
its entry but leaves `num_pos` unchanged.
-/

namespace Fiction.GateLevelLayout

structure Tracked where
  lyt : GateLevelLayout
  pos : List ℕ
  ris : List ℕ

namespace Tracked

/-- Applies `op` and updates the lists of expected output nodes. -/
def step (g : Tracked) (op : Op) : Tracked :=
  match op with
  | .createPo .. => ⟨g.lyt.apply op, g.pos ++ [g.lyt.size], g.ris⟩
  | .createRi .. => ⟨g.lyt.apply op, g.pos, g.ris ++ [g.lyt.size]⟩
  | .moveNode n t _ =>
    if t.isDead then ⟨g.lyt.apply op, g.pos.filter (· ≠ n), g.ris.filter (· ≠ n)⟩
    else ⟨g.lyt.apply op, g.pos, g.ris⟩
  | _ => ⟨g.lyt.apply op, g.pos, g.ris⟩

def outputNodes (g : Tracked) : List ℕ := g.pos ++ g.ris

/-- Output entries of nodes without a tile cannot be told apart. -/
def Distinguishable (g : Tracked) (n : ℕ) : Prop :=
  g.lyt.isPlaced n = true ∨ ∀ m ∈ g.outputNodes, m ≠ n → g.lyt.isPlaced m = true

def Tame (g : Tracked) : Op → Prop
  | .createPi _ t | .createRo _ t => t.isDead = true ∨ t ∉ g.lyt.outputs
  | .createNode children _ t => children = [] ∨ t.isDead = true ∨ t ∉ g.lyt.outputs
  | .createPo _ _ t | .createRi _ _ t => t = default ∨ t.isDead = false ∧ t ∉ g.lyt.outputs
  | .moveNode n t _ =>
    if t.isDead then n ∉ g.pos ∧ g.Distinguishable n
    else t = g.lyt.getTile n ∨ t ∉ g.lyt.outputs ∧ g.Distinguishable n

structure Bookkept (g : Tracked) : Prop where
  length : g.lyt.numPos + g.ris.length = g.lyt.outputs.length
  foreachPo : g.lyt.foreachPo = g.pos.map g.lyt.getTile
  foreachRi : g.lyt.foreachRi = g.ris.map g.lyt.getTile
  nodup : g.pos.Nodup

def system (clocked : ClockedLayout) (name : String) : TransitionSystem Tracked Op where
  init := ⟨empty clocked name, [], []⟩
  enabled g op := g.lyt.Defined op
  step := step

/-- The calls that keep the outputs apart. -/
def tameSystem (clocked : ClockedLayout) (name : String) : TransitionSystem Tracked Op where
  init := ⟨empty clocked name, [], []⟩
  enabled g op := g.lyt.Defined op ∧ g.Tame op
  step := step

structure TrackedInv (g : Tracked) : Prop where
  placement : PlacementInv g.lyt
  outputs : g.lyt.outputs = g.outputNodes.map g.lyt.getTile
  numPos : g.lyt.numPos = g.pos.length
  nodup : g.outputNodes.Nodup
  exist : ∀ n ∈ g.outputNodes, 2 ≤ n ∧ n < g.lyt.size

variable {g : Tracked}

theorem TrackedInv.bookkept (hi : TrackedInv g) : Bookkept g where
  length := by rw [hi.outputs, hi.numPos]; simp [outputNodes]
  foreachPo := by
    rw [GateLevelLayout.foreachPo, hi.outputs, hi.numPos, outputNodes, List.map_append,
      List.take_left' (by simp)]
  foreachRi := by
    rw [GateLevelLayout.foreachRi, hi.outputs, hi.numPos, outputNodes, List.map_append,
      List.drop_left' (by simp)]
  nodup := hi.nodup.of_append_left

theorem TrackedInv.frame (hi : TrackedInv g) {l : GateLevelLayout} (hp : PlacementInv l)
    (ho : l.outputs = g.lyt.outputs) (hn : l.numPos = g.lyt.numPos) (hs : g.lyt.size ≤ l.size)
    (ht : ∀ m ∈ g.outputNodes, l.getTile m = g.lyt.getTile m) : TrackedInv ⟨l, g.pos, g.ris⟩ where
  placement := hp
  outputs := by
    rw [ho, hi.outputs]
    exact (List.map_congr_left ht).symm
  numPos := hn.trans hi.numPos
  nodup := hi.nodup
  exist n hm := ⟨(hi.exist n hm).1, (hi.exist n hm).2.trans_le hs⟩

theorem TrackedInv.getTile_ne (hi : TrackedInv g) {t : Tile} (ht : t ∉ g.lyt.outputs) {m : ℕ}
    (hm : m ∈ g.outputNodes) : g.lyt.getTile m ≠ t := by
  rintro rfl
  exact ht (hi.outputs ▸ List.mem_map_of_mem hm)

section Creations

/-- Creating a node that is no output on a tile without an output keeps the invariant. -/
theorem TrackedInv.create (hi : TrackedInv g) {l : GateLevelLayout} {t : Tile}
    (hc : CreatedAt g.lyt t l) (ho : l.outputs = g.lyt.outputs) (hn : l.numPos = g.lyt.numPos)
    (ht : t.isDead = true ∨ t ∉ g.lyt.outputs) : TrackedInv ⟨l, g.pos, g.ris⟩ :=
  hi.frame (hc.placementInv hi.placement) ho hn hc.size_lt.le fun _ hm =>
    hc.getTile_of_ne hi.placement.toMapsInv (hi.exist _ hm).2
      (ht.imp_right fun h => hi.getTile_ne h hm)

/-- Creating the output node `g.lyt.size` on `t` keeps the invariant if its entry stands in the
vector where the new node stands in the lists. -/
theorem TrackedInv.createOutput (hi : TrackedInv g) {l : GateLevelLayout} {t : Tile}
    {pos ris : List ℕ} (hc : CreatedAt g.lyt t l)
    (ht : t = default ∨ t.isDead = false ∧ t ∉ g.lyt.outputs)
    (hp : (pos ++ ris).Perm (g.lyt.size :: g.outputNodes))
    (ho : l.outputs = (pos ++ ris).map (Function.update g.lyt.getTile g.lyt.size t))
    (hn : l.numPos = pos.length) : TrackedInv ⟨l, pos, ris⟩ where
  placement := hc.placementInv hi.placement
  outputs := by
    rw [ho]
    refine List.map_congr_left fun m hm => ?_
    rcases List.mem_cons.mp (hp.subset hm) with rfl | hm
    · rw [Function.update_self, hc.getTile_new hi.placement.toMapsInv]
      rcases ht with rfl | ht
      · rfl
      · rw [if_neg (by simp [ht.1])]
    · have hlt := (hi.exist m hm).2
      rw [Function.update_of_ne hlt.ne]
      refine (hc.getTile_of_ne hi.placement.toMapsInv hlt ?_).symm
      exact ht.imp (fun h => by rw [h]; rfl) fun h => hi.getTile_ne h.2 hm
  numPos := hn
  nodup := by
    refine hp.nodup_iff.mpr (List.nodup_cons.mpr ⟨fun h => ?_, hi.nodup⟩)
    exact (hi.exist _ h).2.false
  exist n hm := by
    rcases List.mem_cons.mp (hp.subset hm) with rfl | hm
    · exact ⟨hi.placement.two_le_size, hc.size_lt⟩
    · exact ⟨(hi.exist n hm).1, (hi.exist n hm).2.trans hc.size_lt⟩

theorem TrackedInv.map_update (hi : TrackedInv g) {ns : List ℕ} (hs : ns ⊆ g.outputNodes)
    (t : Tile) : ns.map (Function.update g.lyt.getTile g.lyt.size t) = ns.map g.lyt.getTile :=
  List.map_congr_left fun m hm => Function.update_of_ne (hi.exist m (hs hm)).2.ne _ _

theorem TrackedInv.createPo_outputs (hi : TrackedInv g) (s : Signal) (name : String) (t : Tile) :
    (g.lyt.createPo s name t).1.outputs =
      (g.pos ++ [g.lyt.size] ++ g.ris).map (Function.update g.lyt.getTile g.lyt.size t) := by
  have hpos := hi.map_update (List.subset_append_left g.pos g.ris) t
  have hris := hi.map_update (List.subset_append_right g.pos g.ris) t
  rw [(createPo_sameIo s name t).outputs, hi.outputs, hi.numPos]
  simp only [outputNodes, List.map_append, List.map_singleton, List.append_assoc, hpos, hris,
    Function.update_self]
  rw [List.take_left' (by simp), List.drop_left' (by simp)]
  rfl

theorem TrackedInv.createRi_outputs (hi : TrackedInv g) (s : Signal) (name : String) (t : Tile) :
    (g.lyt.createRi s name t).1.outputs =
      (g.pos ++ (g.ris ++ [g.lyt.size])).map (Function.update g.lyt.getTile g.lyt.size t) := by
  have hall := hi.map_update (List.Subset.refl g.outputNodes) t
  rw [(createRi_sameIo s name t).outputs, hi.outputs, ← List.append_assoc, List.map_append,
    List.map_singleton, Function.update_self, ← hall]
  rfl

theorem perm_createPo (g : Tracked) :
    (g.pos ++ [g.lyt.size] ++ g.ris).Perm (g.lyt.size :: g.outputNodes) := by
  rw [outputNodes, List.append_assoc]
  exact List.perm_middle

theorem perm_createRi (g : Tracked) :
    (g.pos ++ (g.ris ++ [g.lyt.size])).Perm (g.lyt.size :: g.outputNodes) := by
  rw [← List.append_assoc]
  exact List.perm_append_singleton _ _

theorem TrackedInv.createPo (hi : TrackedInv g) (s : Signal) (name : String) {t : Tile}
    (ht : t = default ∨ t.isDead = false ∧ t ∉ g.lyt.outputs) :
    TrackedInv ⟨(g.lyt.createPo s name t).1, g.pos ++ [g.lyt.size], g.ris⟩ := by
  refine hi.createOutput (createPo_createdAt s name t) ht g.perm_createPo
    (hi.createPo_outputs s name t) ?_
  rw [(createPo_sameIo s name t).numPos, hi.numPos, List.length_append, List.length_singleton]

theorem TrackedInv.createRi (hi : TrackedInv g) (s : Signal) (name : String) {t : Tile}
    (ht : t = default ∨ t.isDead = false ∧ t ∉ g.lyt.outputs) :
    TrackedInv ⟨(g.lyt.createRi s name t).1, g.pos, g.ris ++ [g.lyt.size]⟩ :=
  hi.createOutput (createRi_createdAt s name t) ht g.perm_createRi (hi.createRi_outputs s name t)
    ((createRi_sameIo s name t).numPos.trans hi.numPos)

end Creations

section Moves

variable {n : ℕ} {t : Tile}

theorem dropChildren_sameIo (lyt : GateLevelLayout) (n : ℕ) : SameIo lyt (lyt.dropChildren n) :=
  (foldl_sameIo (fun _ _ => modifyNode_sameIo _ _) _).trans (modifyNode_sameIo n _)

theorem relocate_sameIo (lyt : GateLevelLayout) (n : ℕ) (t oldT : Tile) :
    SameIo lyt (lyt.relocate n t oldT) := by
  unfold relocate
  split_ifs
  · exact (clearTile_sameIo oldT).trans ((assignNode_sameIo t n).trans (reviveNode_sameIo n))
  · exact .refl

theorem assignChildren_sameIo (lyt : GateLevelLayout) (n : ℕ) (newChildren : List Signal) :
    SameIo lyt (lyt.assignChildren n newChildren) :=
  (modifyNode_sameIo n _).trans (foldl_sameIo (fun _ _ => modifyNode_sameIo _ _) newChildren)

/-- Until `move_node` updates the outputs, it leaves inputs and outputs unchanged. -/
theorem moveNode_sameIo (lyt : GateLevelLayout) (n : ℕ) (t : Tile) (newChildren : List Signal) :
    ∃ l, SameIo lyt l ∧ (lyt.moveNode n t newChildren).1 = l.updateOutputs t (lyt.getTile n) :=
  ⟨_, ((dropChildren_sameIo lyt n).trans (relocate_sameIo _ n t _)).trans
    (assignChildren_sameIo _ n newChildren), rfl⟩

theorem moveNode_outputs (lyt : GateLevelLayout) (n : ℕ) (t : Tile) (newChildren : List Signal) :
    (lyt.moveNode n t newChildren).1.outputs =
      if t.isDead then lyt.outputs.filter (· ≠ lyt.getTile n)
      else if t ≠ lyt.getTile n then
        lyt.outputs.map fun o => if o = lyt.getTile n then t else o
      else lyt.outputs := by
  obtain ⟨l, hl, he⟩ := moveNode_sameIo lyt n t newChildren
  rw [he, updateOutputs, hl.outputs]

theorem moveNode_numPos (lyt : GateLevelLayout) (n : ℕ) (t : Tile) (newChildren : List Signal) :
    (lyt.moveNode n t newChildren).1.numPos = lyt.numPos := by
  obtain ⟨l, hl, he⟩ := moveNode_sameIo lyt n t newChildren
  rw [he, updateOutputs, hl.numPos]

/-- No other output node shares the tile of `n`, not even the tile of nodes without one. -/
theorem TrackedInv.getTile_ne_of_distinguishable (hi : TrackedInv g) (hd : g.Distinguishable n)
    {m : ℕ} (hm : m ∈ g.outputNodes) (hne : m ≠ n) : g.lyt.getTile m ≠ g.lyt.getTile n := by
  intro he
  rcases hd with hp | hp
  · have hl : (g.lyt.getTile n).isDead = false := by simpa [isPlaced] using hp
    have h₁ := (hi.placement.getTile_eq_iff hl).mpr he
    have h₂ := (hi.placement.getTile_eq_iff hl).mpr (rfl : g.lyt.getTile n = _)
    exact hne (Option.some.inj (h₁.symm.trans h₂))
  · have hl : (g.lyt.getTile m).isDead = false := by simpa [isPlaced] using hp m hm hne
    have h₁ := (hi.placement.getTile_eq_iff hl).mpr rfl
    have h₂ := (hi.placement.getTile_eq_iff hl).mpr he.symm
    exact hne (Option.some.inj (h₁.symm.trans h₂))

theorem TrackedInv.moveLive (hi : TrackedInv g) (hn : 2 ≤ n ∧ n < g.lyt.size) (hl : t.isDead = false)
    (ht : t = g.lyt.getTile n ∨ t ∉ g.lyt.outputs ∧ g.Distinguishable n)
    (newChildren : List Signal) :
    TrackedInv ⟨(g.lyt.moveNode n t newChildren).1, g.pos, g.ris⟩ where
  placement := moveNode_placementInv hi.placement hn t newChildren
  outputs := by
    have hd : g.Distinguishable n := ht.elim (fun h => .inl (by simp [isPlaced, ← h, hl])) And.right
    have hne : ∀ m ∈ g.outputNodes, m ≠ n → g.lyt.getTile m ≠ g.lyt.getTile n := fun m hm h =>
      hi.getTile_ne_of_distinguishable hd hm h
    have hstay : ∀ m ∈ g.outputNodes, m ≠ n →
        (g.lyt.moveNode n t newChildren).1.getTile m = g.lyt.getTile m := fun m hm h => by
      refine moveNode_getTile_of_ne hi.placement.toMapsInv (hi.exist m hm).1 h (.inr ?_) newChildren
      rcases ht with rfl | ht
      · exact hne m hm h
      · exact hi.getTile_ne ht.1 hm
    have hself : (g.lyt.moveNode n t newChildren).1.getTile n = t :=
      moveNode_getTile_self hl newChildren
    have hcongr : g.outputNodes.map (g.lyt.moveNode n t newChildren).1.getTile =
        g.outputNodes.map fun m =>
          if g.lyt.getTile m = g.lyt.getTile n then t else g.lyt.getTile m := by
      refine List.map_congr_left fun m hm => ?_
      by_cases h : m = n
      · rw [h, hself, if_pos rfl]
      · rw [hstay m hm h, if_neg (hne m hm h)]
    change _ = g.outputNodes.map _
    rw [hcongr, moveNode_outputs, if_neg (by simp [hl]), hi.outputs]
    by_cases h : t = g.lyt.getTile n
    · rw [if_neg (not_not.mpr h), ← h]
      refine List.map_congr_left fun m _ => ?_
      by_cases he : g.lyt.getTile m = t
      · rw [if_pos he, he]
      · rw [if_neg he]
    · rw [if_pos h, List.map_map]
      rfl
  numPos := (moveNode_numPos _ _ _ _).trans hi.numPos
  nodup := hi.nodup
  exist m hm := ⟨(hi.exist m hm).1, (hi.exist m hm).2.trans_le (moveNode_size _ _ _)⟩

theorem TrackedInv.moveDead (hi : TrackedInv g) (hn : 2 ≤ n ∧ n < g.lyt.size) (hl : t.isDead = true)
    (ht : n ∉ g.pos ∧ g.Distinguishable n) (newChildren : List Signal) :
    TrackedInv ⟨(g.lyt.moveNode n t newChildren).1, g.pos.filter (· ≠ n),
      g.ris.filter (· ≠ n)⟩ where
  placement := moveNode_placementInv hi.placement hn t newChildren
  outputs := by
    change _ = (g.pos.filter _ ++ g.ris.filter _).map _
    rw [← List.filter_append, moveNode_outputs, if_pos hl, hi.outputs, List.filter_map]
    have hf : (g.outputNodes.filter fun m => decide (g.lyt.getTile m ≠ g.lyt.getTile n)) =
        g.outputNodes.filter (· ≠ n) := by
      refine List.filter_congr fun m hm => ?_
      by_cases h : m = n
      · simp [h]
      · simp [h, hi.getTile_ne_of_distinguishable ht.2 hm h]
    change List.map _ (g.outputNodes.filter fun m => decide (g.lyt.getTile m ≠ _)) = _
    rw [hf]
    refine (List.map_congr_left fun m hm => ?_).symm
    obtain ⟨hm, hne⟩ := List.mem_filter.mp hm
    exact moveNode_getTile_of_ne hi.placement.toMapsInv (hi.exist m hm).1 (by simpa using hne)
      (.inl hl) newChildren
  numPos := by
    have hp : g.pos.filter (· ≠ n) = g.pos :=
      List.filter_eq_self.mpr fun m hm => by simpa using fun h : m = n => ht.1 (h ▸ hm)
    rw [moveNode_numPos, hi.numPos, hp]
  nodup := by
    rw [outputNodes, ← List.filter_append]
    exact hi.nodup.filter _
  exist m hm := by
    have hm' : m ∈ g.outputNodes := by
      rw [outputNodes, ← List.filter_append] at hm
      exact (List.mem_filter.mp hm).1
    exact ⟨(hi.exist m hm').1, (hi.exist m hm').2.trans_le (moveNode_size _ _ _)⟩

end Moves

theorem step_trackedInv (hi : TrackedInv g) (op : Op) (hd : g.lyt.Defined op) (ht : g.Tame op) :
    TrackedInv (g.step op) := by
  cases op with
  | createPi name t =>
    have h : SameIo _ (g.lyt.createPi name t).1 := createPi_sameIo name t
    exact hi.create (createPi_createdAt name t) h.outputs h.numPos ht
  | createRo name t =>
    have h : SameIo _ (g.lyt.createRo name t).1 := createRo_sameIo name t
    exact hi.create (createRo_createdAt name t) h.outputs h.numPos ht
  | createPo s name t => exact hi.createPo s name ht
  | createRi s name t => exact hi.createRi s name ht
  | createNode children function t =>
    have h : SameIo g.lyt _ := createNode_sameIo children function t
    by_cases hc : children = []
    · rw [hc]
      exact hi
    · exact hi.create (createNode_createdAt hc function t) h.outputs h.numPos (ht.resolve_left hc)
  | moveNode n t newChildren =>
    simp only [step]
    simp only [Tame] at ht
    split_ifs at ht ⊢ with hl
    · exact hi.moveDead hd hl ht newChildren
    · exact hi.moveLive hd (by simpa using hl) ht newChildren

theorem init_trackedInv (clocked : ClockedLayout) (name : String) :
    TrackedInv ⟨empty clocked name, [], []⟩ :=
  ⟨empty_placementInv clocked name, rfl, rfl, .nil, by simp [outputNodes]⟩

theorem run_trackedInv {clocked : ClockedLayout} {name : String} {ops : List Op}
    (h : (tameSystem clocked name).Legal ops) : TrackedInv ((tameSystem clocked name).run ops) :=
  (tameSystem clocked name).invariant_run (I := TrackedInv) (init_trackedInv clocked name)
    (fun _ op hi ho => step_trackedInv hi op ho.1 ho.2) h

theorem TrackedInv.moveNode_outputs_eq (hi : TrackedInv g) {n : ℕ} {t : Tile}
    {newChildren : List Signal} (ht : g.Tame (.moveNode n t newChildren)) (hn : n ∉ g.outputNodes) :
    (g.lyt.moveNode n t newChildren).1.outputs = g.lyt.outputs := by
  have hne : g.Distinguishable n → ∀ o ∈ g.lyt.outputs, o ≠ g.lyt.getTile n := by
    intro hd o ho
    rw [hi.outputs] at ho
    obtain ⟨m, hm, rfl⟩ := List.mem_map.mp ho
    exact hi.getTile_ne_of_distinguishable hd hm fun h => hn (h ▸ hm)
  rw [moveNode_outputs]
  simp only [Tame] at ht
  split_ifs at ht ⊢ with hl he
  · exact List.filter_eq_self.mpr fun o ho => by simpa using hne ht.2 o ho
  · have hd := (ht.resolve_left he).2
    calc g.lyt.outputs.map (fun o => if o = g.lyt.getTile n then t else o)
        = g.lyt.outputs.map id := List.map_congr_left fun o ho => if_neg (hne hd o ho)
      _ = g.lyt.outputs := List.map_id _
  · rfl

section Converse

variable {t : Tile}

theorem Bookkept.outputs (hb : Bookkept g) : g.lyt.outputs = g.outputNodes.map g.lyt.getTile := by
  calc g.lyt.outputs = g.lyt.foreachPo ++ g.lyt.foreachRi := (List.take_append_drop _ _).symm
    _ = g.outputNodes.map g.lyt.getTile := by
      rw [hb.foreachPo, hb.foreachRi, outputNodes, List.map_append]

theorem TrackedInv.exists_of_mem_outputs (hi : TrackedInv g) (ht : t ∈ g.lyt.outputs) :
    ∃ m ∈ g.outputNodes, g.lyt.getTile m = t := by
  rw [hi.outputs] at ht
  simpa using ht

theorem default_ne {t : Tile} (hd : t.isDead = false) : default ≠ t := by
  rintro rfl
  exact Bool.noConfusion hd

theorem TrackedInv.create_free (hi : TrackedInv g) {l : GateLevelLayout}
    (hc : CreatedAt g.lyt t l) (ho : l.outputs = g.lyt.outputs)
    (hb : Bookkept ⟨l, g.pos, g.ris⟩) : t.isDead = true ∨ t ∉ g.lyt.outputs := by
  by_contra! h
  obtain ⟨hd, ht⟩ : t.isDead = false ∧ t ∈ g.lyt.outputs := by simpa using h
  obtain ⟨m, hm, rfl⟩ := hi.exists_of_mem_outputs ht
  have heq : g.outputNodes.map l.getTile = g.outputNodes.map g.lyt.getTile :=
    hb.outputs.symm.trans (ho.trans hi.outputs)
  have hmt := List.map_inj_left.mp heq m hm
  rw [hc.getTile_overwritten hi.placement.toMapsInv (hi.exist m hm).2 hd rfl] at hmt
  exact default_ne hd hmt

theorem TrackedInv.createOutput_free (hi : TrackedInv g) {l : GateLevelLayout} {pos ris : List ℕ}
    (hc : CreatedAt g.lyt t l) (hp : (pos ++ ris).Perm (g.lyt.size :: g.outputNodes))
    (ho : l.outputs = (pos ++ ris).map (Function.update g.lyt.getTile g.lyt.size t))
    (hb : Bookkept ⟨l, pos, ris⟩) : t = default ∨ t.isDead = false ∧ t ∉ g.lyt.outputs := by
  have heq := List.map_inj_left.mp (hb.outputs.symm.trans ho)
  by_cases hd : t.isDead = true
  · left
    have hs : g.lyt.size ∈ pos ++ ris := hp.symm.subset List.mem_cons_self
    have hnew := heq _ hs
    rw [Function.update_self, hc.getTile_new hi.placement.toMapsInv, if_pos hd] at hnew
    exact hnew.symm
  · right
    rw [Bool.not_eq_true] at hd
    refine ⟨hd, fun ht => ?_⟩
    obtain ⟨m, hm, rfl⟩ := hi.exists_of_mem_outputs ht
    have hmt := heq m (hp.symm.subset (List.mem_cons_of_mem _ hm))
    have hlt := (hi.exist m hm).2
    rw [hc.getTile_overwritten hi.placement.toMapsInv hlt hd rfl,
      Function.update_of_ne hlt.ne] at hmt
    exact default_ne hd hmt

/-- If `n` is not distinguishable, some other output node shares its entry. -/
theorem TrackedInv.exists_shared (hi : TrackedInv g) {n : ℕ} (hn : 2 ≤ n)
    (hd : ¬ g.Distinguishable n) :
    g.lyt.getTile n = default ∧ ∃ m ∈ g.outputNodes, m ≠ n ∧ g.lyt.getTile m = default := by
  obtain ⟨hp, m, hm, hne, hm'⟩ :
      g.lyt.isPlaced n = false ∧ ∃ m ∈ g.outputNodes, m ≠ n ∧ g.lyt.isPlaced m = false := by
    simpa [Distinguishable] using hd
  have hi' := hi.placement.toMapsInv
  exact ⟨hi'.getTile_of_not_placed hn hp, m, hm, hne,
    hi'.getTile_of_not_placed (hi.exist m hm).1 hm'⟩

theorem TrackedInv.moveLive_free (hi : TrackedInv g) {n : ℕ} (hn : 2 ≤ n) (hl : t.isDead = false)
    {newChildren : List Signal}
    (hb : Bookkept ⟨(g.lyt.moveNode n t newChildren).1, g.pos, g.ris⟩) :
    t = g.lyt.getTile n ∨ t ∉ g.lyt.outputs ∧ g.Distinguishable n := by
  by_cases he : t = g.lyt.getTile n
  · exact .inl he
  right
  have ho := hb.outputs
  change (g.lyt.moveNode n t newChildren).1.outputs = g.outputNodes.map _ at ho
  rw [moveNode_outputs, if_neg (by simp [hl]), if_pos he, hi.outputs, List.map_map] at ho
  have heq := List.map_inj_left.mp ho
  refine ⟨fun ht => ?_, ?_⟩
  · obtain ⟨m, hm, rfl⟩ := hi.exists_of_mem_outputs ht
    have hmt := heq m hm
    have hne : m ≠ n := fun h => he (by rw [h])
    rw [moveNode_getTile_overwritten hi.placement.toMapsInv hne hl rfl, Function.comp_apply,
      if_neg he] at hmt
    exact default_ne hl hmt.symm
  · by_contra hd
    obtain ⟨hdn, m, hm, hne, hdm⟩ := hi.exists_shared hn hd
    have hmt := heq m hm
    rw [Function.comp_apply, hdn, hdm, if_pos rfl, moveNode_getTile_of_ne hi.placement.toMapsInv
      (hi.exist m hm).1 hne (.inr (hdm ▸ default_ne hl)), hdm] at hmt
    exact default_ne hl hmt.symm

/-- `num_pos` still counts a primary output whose entry was erased. -/
theorem TrackedInv.moveDead_free (hi : TrackedInv g) {n : ℕ} (hn : 2 ≤ n) (hl : t.isDead = true)
    {newChildren : List Signal}
    (hb : Bookkept ⟨(g.lyt.moveNode n t newChildren).1, g.pos.filter (· ≠ n),
      g.ris.filter (· ≠ n)⟩) : n ∉ g.pos ∧ g.Distinguishable n := by
  have hlen : g.pos.length + (g.ris.filter (· ≠ n)).length =
      (g.outputNodes.filter fun m => g.lyt.getTile m ≠ g.lyt.getTile n).length := by
    have h := hb.length
    simp only at h
    rw [moveNode_numPos, hi.numPos, moveNode_outputs, if_pos hl, hi.outputs, List.filter_map,
      List.length_map] at h
    exact h
  have hpos : n ∉ g.pos := fun h => by
    have hris : g.ris.filter (· ≠ n) = g.ris := List.filter_eq_self.mpr fun m hm => by
      have hdis := (List.nodup_append'.mp hi.nodup).2.2
      simpa using fun he : m = n => hdis h (he ▸ hm)
    have hlt : (g.outputNodes.filter fun m => g.lyt.getTile m ≠ g.lyt.getTile n).length <
        g.outputNodes.length :=
      List.length_filter_lt_length_iff_exists.mpr ⟨n, List.mem_append_left _ h, by simp⟩
    rw [hris] at hlen
    rw [← hlen, outputNodes, List.length_append] at hlt
    exact hlt.false
  refine ⟨hpos, ?_⟩
  by_contra hd
  obtain ⟨hdn, m, hm, hne, hdm⟩ := hi.exists_shared hn hd
  have hkeep : (g.outputNodes.filter (· ≠ n)).length =
      g.pos.length + (g.ris.filter (· ≠ n)).length := by
    have hp : g.pos.filter (· ≠ n) = g.pos :=
      List.filter_eq_self.mpr fun k hk => by simpa using fun he : k = n => hpos (he ▸ hk)
    rw [outputNodes, List.filter_append, List.length_append, hp]
  have hsub : (g.outputNodes.filter fun m => g.lyt.getTile m ≠ g.lyt.getTile n) =
      (g.outputNodes.filter (· ≠ n)).filter fun m => g.lyt.getTile m ≠ g.lyt.getTile n := by
    rw [List.filter_filter]
    refine List.filter_congr fun k _ => ?_
    by_cases hk : k = n <;> simp [hk]
  have hlt : ((g.outputNodes.filter (· ≠ n)).filter
      fun m => g.lyt.getTile m ≠ g.lyt.getTile n).length < (g.outputNodes.filter (· ≠ n)).length :=
    List.length_filter_lt_length_iff_exists.mpr
      ⟨m, List.mem_filter.mpr ⟨hm, by simpa using hne⟩, by simp [hdn, hdm]⟩
  rw [← hsub, ← hlen, hkeep] at hlt
  exact hlt.false

/-- A call keeps the outputs in step with the layout exactly if it is tame. -/
theorem TrackedInv.bookkept_step_iff (hi : TrackedInv g) (op : Op) (hd : g.lyt.Defined op) :
    Bookkept (g.step op) ↔ g.Tame op := by
  refine ⟨fun hb => ?_, fun ht => (step_trackedInv hi op hd ht).bookkept⟩
  cases op with
  | createPi name t =>
    exact hi.create_free (createPi_createdAt name t) (createPi_sameIo name t).outputs hb
  | createRo name t =>
    exact hi.create_free (createRo_createdAt name t) (createRo_sameIo name t).outputs hb
  | createPo s name t =>
    exact hi.createOutput_free (createPo_createdAt s name t) g.perm_createPo
      (hi.createPo_outputs s name t) hb
  | createRi s name t =>
    exact hi.createOutput_free (createRi_createdAt s name t) g.perm_createRi
      (hi.createRi_outputs s name t) hb
  | createNode children function t =>
    by_cases hc : children = []
    · exact .inl hc
    · exact .inr (hi.create_free (createNode_createdAt hc function t)
        (createNode_sameIo children function t).outputs hb)
  | moveNode n t newChildren =>
    simp only [step] at hb
    simp only [Tame]
    split_ifs at hb ⊢ with hl
    · exact hi.moveDead_free hd.1 hl hb
    · exact hi.moveLive_free hd.1 (by simpa using hl) hb

end Converse

theorem bookkept_prefixes_iff {clocked : ClockedLayout} {name : String} {ops : List Op}
    (h : (system clocked name).Legal ops) :
    (∀ ops', ops' <+: ops → Bookkept ((system clocked name).run ops')) ↔
      (tameSystem clocked name).Legal ops := by
  induction ops using List.reverseRecOn with
  | nil =>
    refine ⟨fun _ => trivial, fun _ ops' hp => ?_⟩
    rw [List.prefix_nil.mp hp]
    exact (init_trackedInv clocked name).bookkept
  | append_singleton ops op ih =>
    obtain ⟨hops, hop⟩ := ((system clocked name).legal_concat ops op).mp h
    have hsplit : (∀ ops', ops' <+: ops ++ [op] → Bookkept ((system clocked name).run ops')) ↔
        Bookkept ((system clocked name).run (ops ++ [op])) ∧
          ∀ ops', ops' <+: ops → Bookkept ((system clocked name).run ops') := by
      simp only [List.prefix_concat_iff, forall_eq_or_imp]
    rw [hsplit, ih hops, TransitionSystem.legal_concat, and_comm]
    refine and_congr_right fun ht => ?_
    have hi := run_trackedInv ht
    rw [TransitionSystem.run_concat]
    exact (hi.bookkept_step_iff op hop).trans ⟨fun ht => ⟨hop, ht⟩, And.right⟩

/-- The outputs are kept in step with the layout throughout a run exactly if all its calls are tame.
Then moving a node that is no output leaves all entries unchanged. -/
theorem bookkept_iff_tame {clocked : ClockedLayout} {name : String} {ops : List Op}
    (h : (system clocked name).Legal ops) :
    ((∀ ops', ops' <+: ops → Bookkept ((system clocked name).run ops')) ↔
      (tameSystem clocked name).Legal ops) ∧
    ((tameSystem clocked name).Legal ops →
      let g := (system clocked name).run ops
      ∀ n t newChildren, g.Tame (.moveNode n t newChildren) → n ∉ g.outputNodes →
        (g.lyt.moveNode n t newChildren).1.outputs = g.lyt.outputs) :=
  ⟨bookkept_prefixes_iff h, fun ht _ _ _ hm hn => (run_trackedInv ht).moveNode_outputs_eq hm hn⟩

section Examples

instance (g : Tracked) (n : ℕ) : Decidable (g.Distinguishable n) :=
  inferInstanceAs (Decidable (_ ∨ ∀ m ∈ g.outputNodes, _))

instance (g : Tracked) (op : Op) : Decidable (g.Tame op) :=
  match op with
  | .createPi .. | .createRo .. => inferInstanceAs (Decidable (_ ∨ _))
  | .createNode .. | .createPo .. | .createRi .. => inferInstanceAs (Decidable (_ ∨ _))
  | .moveNode .. => inferInstanceAs (Decidable (ite _ _ _))

instance (clocked : ClockedLayout) (name : String) (g : Tracked) (op : Op) :
    Decidable ((system clocked name).enabled g op) :=
  inferInstanceAs (Decidable (g.lyt.Defined op))

instance (clocked : ClockedLayout) (name : String) (g : Tracked) (op : Op) :
    Decidable ((tameSystem clocked name).enabled g op) :=
  inferInstanceAs (Decidable (g.lyt.Defined op ∧ g.Tame op))

/-- A register input is created before a primary output, which then moves to another tile. -/
theorem bookkept_iff_tame_moved :
    let ops : List Op := [.createPi "" (.at2 0 0), .createRi (.at2 0 0) "" (.at2 0 1),
      .createPo (.at2 0 0) "" (.at2 1 0), .moveNode 4 (.at2 2 0) [.at2 0 0]]
    ((∀ ops', ops' <+: ops → Bookkept ((system smallLayout "").run ops')) ↔
      (tameSystem smallLayout "").Legal ops) ∧
    ((tameSystem smallLayout "").Legal ops →
      let g := (system smallLayout "").run ops
      ∀ n t newChildren, g.Tame (.moveNode n t newChildren) → n ∉ g.outputNodes →
        (g.lyt.moveNode n t newChildren).1.outputs = g.lyt.outputs) :=
  bookkept_iff_tame (by decide)

/-- A primary output that is moved to a dead tile is still counted. -/
theorem dead_po_not_bookkept :
    let ops : List Op := [.createPi "" (.at2 0 0), .createPo (.at2 0 0) "" (.at2 1 0),
      .moveNode 3 default []]
    (system smallLayout "").Legal ops ∧ ¬ Bookkept ((system smallLayout "").run ops) :=
  ⟨by decide, fun h => absurd h.length (by decide)⟩

end Examples

end Tracked

end Fiction.GateLevelLayout
