import Fiction.Layouts.LayoutOperations
import Mathlib.Data.Set.Finite.Basic
import Mathlib.Data.Finset.Card
import Mathlib.Data.Finset.Range

/-!
# Nodes and live tiles correspond one to one

`PlacementInv` relates the two maps of a layout and its two counters. Clearing a tile and
assigning an unplaced node are the only changes to the maps; both preserve the invariant, and every
public operation is composed of them and of updates that leave the placement unchanged.
-/

namespace Fiction.GateLevelLayout

/-- A node is placed when it is assigned to a live tile. -/
def isPlaced (lyt : GateLevelLayout) (n : ℕ) : Bool := !(lyt.getTile n).isDead

/-- Placed nodes that compute the identity (`wire = true`) or that do not (`wire = false`). -/
def placedNodes (lyt : GateLevelLayout) (wire : Bool) : Finset ℕ :=
  (Finset.range lyt.size).filter fun n => lyt.isPlaced n ∧ lyt.isWire n = wire

/-- `num_wires` and `num_gates` -/
def counter (lyt : GateLevelLayout) (wire : Bool) : ℕ := if wire then lyt.numWires else lyt.numGates

/-- The two maps are mutually inverse on live tiles, dead tiles host constants only, and all other
placed nodes exist. -/
structure MapsInv (lyt : GateLevelLayout) : Prop where
  tile_of_node : ∀ t n, t.isDead = false → lyt.tileNodeMap t = some n → lyt.nodeTileMap n = some t
  node_of_tile : ∀ n t, t.isDead = false → lyt.nodeTileMap n = some t → lyt.tileNodeMap t = some n
  live_node : ∀ t n, t.isDead = false → lyt.tileNodeMap t = some n → 2 ≤ n ∧ n < lyt.size
  dead_tile : ∀ t n, t.isDead = true → lyt.tileNodeMap t = some n → n ≤ 1
  dead_node : ∀ n t, t.isDead = true → lyt.nodeTileMap n = some t → n ≤ 1
  two_le_size : 2 ≤ lyt.size

structure PlacementInv (lyt : GateLevelLayout) : Prop extends MapsInv lyt where
  card : ∀ wire, lyt.counter wire = (lyt.placedNodes wire).card

variable {lyt lyt' : GateLevelLayout}

theorem MapsInv.reclock (h : MapsInv lyt) (clocked : ClockedLayout) :
    MapsInv { lyt with clocked := clocked } :=
  ⟨h.tile_of_node, h.node_of_tile, h.live_node, h.dead_tile, h.dead_node, h.two_le_size⟩

theorem PlacementInv.reclock (h : PlacementInv lyt) (clocked : ClockedLayout) :
    PlacementInv { lyt with clocked := clocked } := ⟨h.toMapsInv.reclock clocked, h.card⟩

theorem isPlaced_iff {n : ℕ} :
    lyt.isPlaced n = true ↔ ∃ t, lyt.nodeTileMap n = some t ∧ t.isDead = false := by
  unfold isPlaced getTile
  cases lyt.nodeTileMap n <;> simp

theorem getTile_eq_of_map {n : ℕ} {t : Tile} (h : lyt.nodeTileMap n = some t) :
    lyt.getTile n = t := by
  simp [getTile, h]

theorem getNode_eq_of_map {n : ℕ} {t : Tile} (h : lyt.tileNodeMap t = some n) :
    lyt.getNode t = n := by
  simp [getNode, h]

theorem nodeTileMap_getTile {n : ℕ} (h : lyt.isPlaced n = true) :
    lyt.nodeTileMap n = some (lyt.getTile n) := by
  obtain ⟨t, ht, _⟩ := isPlaced_iff.mp h
  rw [ht, getTile_eq_of_map ht]

theorem tileNodeMap_getNode {t : Tile} (h : lyt.isEmptyTile t = false) :
    lyt.tileNodeMap t = some (lyt.getNode t) := by
  simp only [isEmptyTile, getNode] at *
  cases hm : lyt.tileNodeMap t <;> simp_all

theorem MapsInv.lt_size_of_placed (h : MapsInv lyt) {n : ℕ} (hn : lyt.isPlaced n = true) :
    2 ≤ n ∧ n < lyt.size := by
  obtain ⟨t, ht, hd⟩ := isPlaced_iff.mp hn
  exact h.live_node t n hd (h.node_of_tile n t hd ht)

theorem mem_placedNodes (h : MapsInv lyt) {wire : Bool} {n : ℕ} :
    n ∈ lyt.placedNodes wire ↔ lyt.isPlaced n = true ∧ lyt.isWire n = wire := by
  simp only [placedNodes, Finset.mem_filter, Finset.mem_range, and_iff_right_iff_imp]
  exact fun hn => (h.lt_size_of_placed hn.1).2

theorem SamePlacement.counter (h : SamePlacement lyt lyt') (wire : Bool) :
    lyt'.counter wire = lyt.counter wire := by
  simp only [GateLevelLayout.counter, h.numWires, h.numGates]

theorem counter_uncount (n : ℕ) (wire : Bool) :
    (lyt.uncount n).counter wire =
      if lyt.isWire n = wire then lyt.counter wire - 1 else lyt.counter wire := by
  unfold uncount counter
  cases wire <;> by_cases hw : lyt.isWire n <;> simp [hw]

theorem counter_count (n : ℕ) (wire : Bool) :
    (lyt.count n).counter wire =
      if lyt.isWire n = wire then lyt.counter wire + 1 else lyt.counter wire := by
  unfold count counter
  cases wire <;> by_cases hw : lyt.isWire n <;> simp [hw]

theorem SameMaps.isPlaced (h : SameMaps lyt lyt') (n : ℕ) : lyt'.isPlaced n = lyt.isPlaced n := by
  simp only [GateLevelLayout.isPlaced, h.getTile]

theorem SameMaps.isWire (h : SameMaps lyt lyt') {n : ℕ} (hn : n < lyt.size) :
    lyt'.isWire n = lyt.isWire n := by
  simp only [GateLevelLayout.isWire, h.function n hn]

theorem SameMaps.mapsInv (h : SameMaps lyt lyt') (hi : MapsInv lyt) : MapsInv lyt' where
  tile_of_node := by rw [h.tileNodeMap, h.nodeTileMap]; exact hi.tile_of_node
  node_of_tile := by rw [h.tileNodeMap, h.nodeTileMap]; exact hi.node_of_tile
  live_node t n hd hm := by
    rw [h.tileNodeMap] at hm
    exact ⟨(hi.live_node t n hd hm).1, (hi.live_node t n hd hm).2.trans_le h.size⟩
  dead_tile := by rw [h.tileNodeMap]; exact hi.dead_tile
  dead_node := by rw [h.nodeTileMap]; exact hi.dead_node
  two_le_size := hi.two_le_size.trans h.size

theorem SameMaps.placedNodes (h : SameMaps lyt lyt') (hi : MapsInv lyt) (wire : Bool) :
    lyt'.placedNodes wire = lyt.placedNodes wire := by
  ext n
  rw [mem_placedNodes (h.mapsInv hi), mem_placedNodes hi, h.isPlaced]
  exact and_congr_right fun hp => by rw [h.isWire (hi.lt_size_of_placed hp).2]

theorem SamePlacement.placementInv (h : SamePlacement lyt lyt') (hi : PlacementInv lyt) :
    PlacementInv lyt' where
  toMapsInv := h.toSameMaps.mapsInv hi.toMapsInv
  card wire := by rw [h.counter, h.toSameMaps.placedNodes hi.toMapsInv, hi.card]

section Unplace

variable {t : Tile} {n : ℕ}

theorem unplace_mapsInv (hi : MapsInv lyt) (ht : lyt.tileNodeMap t = some n) :
    MapsInv (lyt.unplace t n) where
  tile_of_node t' m hd hm := by
    simp only [unplace, Function.update_apply] at hm ⊢
    split_ifs at hm with he
    have hmn := hi.tile_of_node t' m hd hm
    have hne : m ≠ n := by
      rintro rfl
      by_cases hdt : t.isDead
      · have h₁ := hi.dead_tile t m hdt ht
        have h₂ := hi.live_node t' m hd hm
        omega
      · have htn := hi.tile_of_node t m (by simpa using hdt) ht
        exact he (Option.some.inj (hmn.symm.trans htn))
    rw [if_neg hne, hmn]
  node_of_tile m t' hd hm := by
    simp only [unplace, Function.update_apply] at hm ⊢
    split_ifs at hm with he
    have htm := hi.node_of_tile m t' hd hm
    have hne : t' ≠ t := by
      rintro rfl
      exact he (Option.some.inj (htm.symm.trans ht))
    rw [if_neg hne, htm]
  live_node t' m hd hm := by
    simp only [unplace, Function.update_apply] at hm
    split_ifs at hm
    exact hi.live_node t' m hd hm
  dead_tile t' m hd hm := by
    simp only [unplace, Function.update_apply] at hm
    split_ifs at hm
    exact hi.dead_tile t' m hd hm
  dead_node m t' hd hm := by
    simp only [unplace, Function.update_apply] at hm
    split_ifs at hm
    exact hi.dead_node m t' hd hm
  two_le_size := hi.two_le_size

theorem isPlaced_unplace (m : ℕ) :
    (lyt.unplace t n).isPlaced m = if m = n then false else lyt.isPlaced m := by
  simp only [isPlaced, getTile, unplace, Function.update_apply]
  split_ifs <;> simp

theorem placedNodes_unplace (hi : MapsInv lyt) (ht : lyt.tileNodeMap t = some n) (wire : Bool) :
    (lyt.unplace t n).placedNodes wire = (lyt.placedNodes wire).erase n := by
  ext m
  rw [mem_placedNodes (unplace_mapsInv hi ht), Finset.mem_erase, mem_placedNodes hi,
    isPlaced_unplace]
  split_ifs with h <;> simp [h, isWire, node, unplace]

end Unplace

section ClearTile

theorem clearTile_none {t : Tile} (ht : lyt.tileNodeMap t = none) : lyt.clearTile t = lyt := by
  simp [clearTile, ht]

theorem clearTile_some {t : Tile} {n : ℕ} (ht : lyt.tileNodeMap t = some n) :
    lyt.clearTile t = ((if t.isDead then lyt else lyt.uncount n).killNode n).unplace t n := by
  simp [clearTile, ht]

/-- Before it is unplaced, the occupant of a tile is only discounted and marked as dead. -/
theorem killNode_uncount_sameMaps (t : Tile) (n : ℕ) :
    SameMaps lyt ((if t.isDead then lyt else lyt.uncount n).killNode n) := by
  split_ifs
  · exact (killNode_samePlacement n).toSameMaps
  · exact (uncount_sameMaps n).trans (killNode_samePlacement n).toSameMaps

theorem clearTile_tileNodeMap (t t' : Tile) :
    (lyt.clearTile t).tileNodeMap t' = if t' = t then none else lyt.tileNodeMap t' := by
  cases ht : lyt.tileNodeMap t with
  | none =>
    rw [clearTile_none ht]
    split_ifs with h
    · rw [h, ht]
    · rfl
  | some n =>
    rw [clearTile_some ht]
    simp only [unplace, Function.update_apply, (killNode_uncount_sameMaps t n).tileNodeMap]

/-- Clearing a tile unplaces its occupant, if there is one, and no other node. -/
theorem isPlaced_clearTile (t : Tile) (m : ℕ) :
    (lyt.clearTile t).isPlaced m = if lyt.tileNodeMap t = some m then false else lyt.isPlaced m := by
  cases ht : lyt.tileNodeMap t with
  | none => simp [clearTile_none ht]
  | some n =>
    rw [clearTile_some ht, isPlaced_unplace, (killNode_uncount_sameMaps t n).isPlaced]
    simp only [Option.some.injEq, eq_comm]

theorem clearTile_size (t : Tile) : (lyt.clearTile t).size = lyt.size := by
  unfold clearTile
  cases lyt.tileNodeMap t with
  | none => rfl
  | some n => simp only [unplace, size, killNode, uncount, modifyNode]; split_ifs <;> simp

theorem clearTile_placementInv (hi : PlacementInv lyt) (t : Tile) :
    PlacementInv (lyt.clearTile t) := by
  cases ht : lyt.tileNodeMap t with
  | none => rw [clearTile_none ht]; exact hi
  | some n =>
    rw [clearTile_some ht]
    have hm : SameMaps lyt _ := killNode_uncount_sameMaps t n
    have hi' := hm.mapsInv hi.toMapsInv
    have ht' := ht
    rw [← hm.tileNodeMap] at ht'
    refine ⟨unplace_mapsInv hi' ht', fun wire => ?_⟩
    rw [placedNodes_unplace hi' ht', hm.placedNodes hi.toMapsInv]
    change ((if t.isDead then lyt else lyt.uncount n).killNode n).counter wire = _
    rw [(killNode_samePlacement n).counter]
    by_cases hd : t.isDead
    · -- the constants alone live on dead tiles, and they are not counted
      have hn : n ∉ lyt.placedNodes wire := fun h => by
        have h₁ := hi.lt_size_of_placed ((mem_placedNodes hi.toMapsInv).mp h).1
        have h₂ := hi.dead_tile t n hd ht
        omega
      rw [if_pos hd, Finset.erase_eq_of_notMem hn, hi.card]
    · have hp : lyt.isPlaced n = true :=
        isPlaced_iff.mpr ⟨t, hi.tile_of_node t n (by simpa using hd) ht, by simpa using hd⟩
      rw [if_neg hd, counter_uncount, hi.card]
      by_cases hw : lyt.isWire n = wire
      · rw [if_pos hw, Finset.card_erase_of_mem ((mem_placedNodes hi.toMapsInv).mpr ⟨hp, hw⟩)]
      · rw [if_neg hw, Finset.erase_eq_of_notMem fun h => hw ((mem_placedNodes hi.toMapsInv).mp h).2]

end ClearTile

section AssignNode

variable {t : Tile} {n : ℕ}

/-- The part of `assign_node` that enters `n` and `t` into the two maps. -/
def place (lyt : GateLevelLayout) (t : Tile) (n : ℕ) : GateLevelLayout :=
  { lyt with
    tileNodeMap := Function.update lyt.tileNodeMap t (some n)
    nodeTileMap := Function.update lyt.nodeTileMap n (some t) }

theorem assignNode_live (ht : t.isDead = false) :
    lyt.assignNode t n = ((lyt.clearTile t).place t n).count n := by
  simp [assignNode, ht, place]

theorem assignNode_dead (ht : t.isDead = true) : lyt.assignNode t n = lyt := by
  simp [assignNode, ht]

theorem place_mapsInv (hi : MapsInv lyt) (ht : t.isDead = false) (he : lyt.tileNodeMap t = none)
    (hn : 2 ≤ n ∧ n < lyt.size) (hu : lyt.isPlaced n = false) : MapsInv (lyt.place t n) where
  tile_of_node t' m hd hm := by
    simp only [place, Function.update_apply] at hm ⊢
    split_ifs at hm with h
    · obtain rfl := Option.some.inj hm
      rw [if_pos rfl, h]
    · have hmt := hi.tile_of_node t' m hd hm
      have hne : m ≠ n := by
        rintro rfl
        have hp := isPlaced_iff.mpr ⟨t', hmt, hd⟩
        simp [hu] at hp
      rw [if_neg hne, hmt]
  node_of_tile m t' hd hm := by
    simp only [place, Function.update_apply] at hm ⊢
    split_ifs at hm with h
    · obtain rfl := Option.some.inj hm
      rw [if_pos rfl, h]
    · have htm := hi.node_of_tile m t' hd hm
      have hne : t' ≠ t := by
        rintro rfl
        simp [he] at htm
      rw [if_neg hne, htm]
  live_node t' m hd hm := by
    simp only [place, Function.update_apply] at hm
    split_ifs at hm with h
    · obtain rfl := Option.some.inj hm
      exact hn
    · exact hi.live_node t' m hd hm
  dead_tile t' m hd hm := by
    simp only [place, Function.update_apply] at hm
    split_ifs at hm with h
    · simp [← h, hd] at ht
    · exact hi.dead_tile t' m hd hm
  dead_node m t' hd hm := by
    simp only [place, Function.update_apply] at hm
    split_ifs at hm with h
    · simp [← Option.some.inj hm, ht] at hd
    · exact hi.dead_node m t' hd hm
  two_le_size := hi.two_le_size

theorem isPlaced_place (ht : t.isDead = false) (m : ℕ) :
    (lyt.place t n).isPlaced m = if m = n then true else lyt.isPlaced m := by
  simp only [isPlaced, getTile, place, Function.update_apply]
  split_ifs <;> simp [ht]

theorem placedNodes_place (hi : MapsInv lyt) (ht : t.isDead = false)
    (he : lyt.tileNodeMap t = none) (hn : 2 ≤ n ∧ n < lyt.size) (hu : lyt.isPlaced n = false)
    (wire : Bool) : (lyt.place t n).placedNodes wire =
      if lyt.isWire n = wire then insert n (lyt.placedNodes wire) else lyt.placedNodes wire := by
  have hw : ∀ m, (lyt.place t n).isWire m = lyt.isWire m := fun _ => rfl
  ext m
  rw [mem_placedNodes (place_mapsInv hi ht he hn hu), isPlaced_place ht, hw]
  split_ifs with h₁ h₂ h₂
  · simp [h₁, h₂]
  · simp [h₁, h₂, mem_placedNodes hi]
  · simp [h₁, mem_placedNodes hi]
  · simp [mem_placedNodes hi]

theorem assignNode_placementInv (hi : PlacementInv lyt) (hn : 2 ≤ n ∧ n < lyt.size)
    (hu : lyt.isPlaced n = false) (t : Tile) : PlacementInv (lyt.assignNode t n) := by
  by_cases ht : t.isDead = true
  · rw [assignNode_dead ht]
    exact hi
  rw [Bool.not_eq_true] at ht
  rw [assignNode_live ht]
  have hc := clearTile_placementInv hi t
  have he : (lyt.clearTile t).tileNodeMap t = none := by rw [clearTile_tileNodeMap, if_pos rfl]
  have hu' : (lyt.clearTile t).isPlaced n = false := by
    rw [isPlaced_clearTile, hu]
    split_ifs <;> rfl
  have hn' : 2 ≤ n ∧ n < (lyt.clearTile t).size := by rwa [clearTile_size]
  have hp := place_mapsInv hc.toMapsInv ht he hn' hu'
  have hs : SameMaps ((lyt.clearTile t).place t n) _ := count_sameMaps n
  refine ⟨hs.mapsInv hp, fun wire => ?_⟩
  rw [hs.placedNodes hp, placedNodes_place hc.toMapsInv ht he hn' hu', counter_count]
  change (if (lyt.clearTile t).isWire n = wire then (lyt.clearTile t).counter wire + 1
    else (lyt.clearTile t).counter wire) = _
  rw [hc.card]
  split_ifs with hw
  · rw [Finset.card_insert_of_notMem]
    simp [mem_placedNodes hc.toMapsInv, hu']
  · rfl

end AssignNode

section Tiles

theorem getTile_clearTile (t : Tile) (m : ℕ) :
    (lyt.clearTile t).getTile m =
      if lyt.tileNodeMap t = some m then default else lyt.getTile m := by
  cases ht : lyt.tileNodeMap t with
  | none => simp [clearTile_none ht]
  | some n =>
    rw [clearTile_some ht]
    simp only [getTile, unplace, (killNode_uncount_sameMaps t n).nodeTileMap,
      Function.update_apply, Option.some.injEq, eq_comm (a := n)]
    split_ifs <;> rfl

theorem getTile_assignNode {t : Tile} (ht : t.isDead = false) (n m : ℕ) :
    (lyt.assignNode t n).getTile m = if m = n then t else (lyt.clearTile t).getTile m := by
  rw [assignNode_live ht, (count_sameMaps n).getTile]
  simp only [getTile, place, Function.update_apply]
  split_ifs <;> rfl

theorem MapsInv.getTile_of_not_placed (hi : MapsInv lyt) {n : ℕ} (hn : 2 ≤ n)
    (hp : lyt.isPlaced n = false) : lyt.getTile n = default := by
  cases hm : lyt.nodeTileMap n with
  | none => simp [getTile, hm]
  | some t =>
    have hd : t.isDead = true := by simpa [isPlaced, getTile, hm] using hp
    have := hi.dead_node n t hd hm
    omega

/-- The occupant of a live tile is the node that is placed there. -/
theorem MapsInv.getTile_eq_iff (hi : MapsInv lyt) {t : Tile} (ht : t.isDead = false) {n : ℕ} :
    lyt.tileNodeMap t = some n ↔ lyt.getTile n = t := by
  constructor
  · exact fun h => getTile_eq_of_map (hi.tile_of_node t n ht h)
  · rintro rfl
    have hp : lyt.isPlaced n = true := by simp [isPlaced, ht]
    exact hi.node_of_tile n _ ht (nodeTileMap_getTile hp)

/-- A creation leaves every node on its tile whose tile is not the target of the creation. -/
theorem CreatedAt.getTile_of_ne {t : Tile} (h : CreatedAt lyt t lyt') (hi : MapsInv lyt) {m : ℕ}
    (hm : m < lyt.size) (ht : t.isDead = true ∨ lyt.getTile m ≠ t) :
    lyt'.getTile m = lyt.getTile m := by
  obtain ⟨d, l, hl, hl'⟩ := h
  have he : SameMaps lyt l := ((emplaceNode_samePlacement d).trans hl).toSameMaps
  rw [hl'.getTile, ← he.getTile]
  cases hd : t.isDead with
  | true => rw [assignNode_dead hd]
  | false =>
    rw [getTile_assignNode hd, if_neg hm.ne, getTile_clearTile, he.tileNodeMap, if_neg]
    rw [hi.getTile_eq_iff hd]
    exact ht.resolve_left (by simp [hd])

theorem CreatedAt.getTile_overwritten {t : Tile} (h : CreatedAt lyt t lyt') (hi : MapsInv lyt)
    {m : ℕ} (hm : m < lyt.size) (hd : t.isDead = false) (ht : lyt.getTile m = t) :
    lyt'.getTile m = default := by
  obtain ⟨d, l, hl, hl'⟩ := h
  have he : SameMaps lyt l := ((emplaceNode_samePlacement d).trans hl).toSameMaps
  rw [hl'.getTile, getTile_assignNode hd, if_neg hm.ne, getTile_clearTile, he.tileNodeMap, if_pos]
  exact (hi.getTile_eq_iff hd).mpr ht

theorem CreatedAt.getTile_new {t : Tile} (h : CreatedAt lyt t lyt') (hi : MapsInv lyt) :
    lyt'.getTile lyt.size = if t.isDead then default else t := by
  obtain ⟨d, l, hl, hl'⟩ := h
  have he : SameMaps lyt l := ((emplaceNode_samePlacement d).trans hl).toSameMaps
  rw [hl'.getTile]
  split_ifs with hd
  · rw [assignNode_dead hd, he.getTile]
    refine hi.getTile_of_not_placed hi.two_le_size (Bool.eq_false_iff.mpr fun hp => ?_)
    exact (hi.lt_size_of_placed hp).2.false
  · rw [getTile_assignNode (by simpa using hd), if_pos rfl]

theorem assignNode_size (t : Tile) (n : ℕ) : (lyt.assignNode t n).size = lyt.size := by
  cases hd : t.isDead with
  | true => rw [assignNode_dead hd]
  | false =>
    rw [assignNode_live hd]
    have hc : (((lyt.clearTile t).place t n).count n).size = (lyt.clearTile t).size := by
      unfold count
      split_ifs <;> rfl
    rw [hc, clearTile_size]

theorem CreatedAt.size_lt {t : Tile} (h : CreatedAt lyt t lyt') : lyt.size < lyt'.size := by
  obtain ⟨d, l, hl, hl'⟩ := h
  have h₁ := hl.size
  have h₂ := hl'.size
  rw [size_emplaceNode] at h₁
  rw [assignNode_size] at h₂
  omega

theorem relocate_getTile_self {n : ℕ} {t : Tile} (ht : t.isDead = false) :
    (lyt.relocate n t (lyt.getTile n)).getTile n = t := by
  unfold relocate
  split_ifs with h
  · rw [(reviveNode_samePlacement n).getTile, getTile_assignNode ht, if_pos rfl]
  · exact (not_not.mp h).symm

/-- Relocating `n` leaves every other node on its tile whose tile is not the target. -/
theorem relocate_getTile_of_ne (hi : MapsInv lyt) {n m : ℕ} {t : Tile} (hm : 2 ≤ m) (hne : m ≠ n)
    (ht : t.isDead = true ∨ lyt.getTile m ≠ t) :
    (lyt.relocate n t (lyt.getTile n)).getTile m = lyt.getTile m := by
  have hold : ¬ lyt.tileNodeMap (lyt.getTile n) = some m := fun h => by
    cases hd : (lyt.getTile n).isDead with
    | true =>
      have := hi.dead_tile _ m hd h
      omega
    | false =>
      have hn := (hi.getTile_eq_iff hd).mpr (rfl : lyt.getTile n = _)
      exact hne (Option.some.inj (h.symm.trans hn))
  unfold relocate
  split_ifs with h
  · rw [(reviveNode_samePlacement n).getTile]
    cases hd : t.isDead with
    | true => rw [assignNode_dead hd, getTile_clearTile, if_neg hold]
    | false =>
      rw [getTile_assignNode hd, if_neg hne, getTile_clearTile, clearTile_tileNodeMap, if_neg h,
        if_neg, getTile_clearTile, if_neg hold]
      rw [hi.getTile_eq_iff hd]
      exact ht.resolve_left (by simp [hd])
  · rfl

theorem moveNode_getTile_of_ne (hi : MapsInv lyt) {n m : ℕ} {t : Tile} (hm : 2 ≤ m) (hne : m ≠ n)
    (ht : t.isDead = true ∨ lyt.getTile m ≠ t) (newChildren : List Signal) :
    (lyt.moveNode n t newChildren).1.getTile m = lyt.getTile m := by
  have hd : SameMaps lyt (lyt.dropChildren n) := (dropChildren_samePlacement n).toSameMaps
  unfold moveNode
  dsimp only
  rw [(updateOutputs_samePlacement t _).getTile, (assignChildren_samePlacement n _).getTile,
    ← hd.getTile n, relocate_getTile_of_ne (hd.mapsInv hi) hm hne, hd.getTile]
  rwa [hd.getTile]

/-- Moving `n` to a live tile takes the tile from the node that is placed there. -/
theorem moveNode_getTile_overwritten (hi : MapsInv lyt) {n m : ℕ} {t : Tile} (hne : m ≠ n)
    (hd : t.isDead = false) (ht : lyt.getTile m = t) (newChildren : List Signal) :
    (lyt.moveNode n t newChildren).1.getTile m = default := by
  have hc : SameMaps lyt (lyt.dropChildren n) := (dropChildren_samePlacement n).toSameMaps
  have hm : lyt.tileNodeMap t = some m := (hi.getTile_eq_iff hd).mpr ht
  have hold : t ≠ lyt.getTile n := by
    rintro rfl
    exact hne (Option.some.inj (hm.symm.trans ((hi.getTile_eq_iff hd).mpr rfl)))
  unfold moveNode relocate
  dsimp only
  rw [(updateOutputs_samePlacement t _).getTile, (assignChildren_samePlacement n _).getTile,
    if_pos hold, (reviveNode_samePlacement n).getTile, getTile_assignNode hd, if_neg hne,
    getTile_clearTile, clearTile_tileNodeMap, if_neg hold, hc.tileNodeMap, if_pos hm]

theorem moveNode_getTile_self {n : ℕ} {t : Tile} (ht : t.isDead = false)
    (newChildren : List Signal) : (lyt.moveNode n t newChildren).1.getTile n = t := by
  have hd : SameMaps lyt (lyt.dropChildren n) := (dropChildren_samePlacement n).toSameMaps
  unfold moveNode
  dsimp only
  rw [(updateOutputs_samePlacement t _).getTile, (assignChildren_samePlacement n _).getTile,
    ← hd.getTile n, relocate_getTile_self ht]

theorem moveNode_size (n : ℕ) (t : Tile) (newChildren : List Signal) :
    lyt.size ≤ (lyt.moveNode n t newChildren).1.size := by
  have hr : ∀ (l : GateLevelLayout) (oldT : Tile), (l.relocate n t oldT).size = l.size := by
    intro l oldT
    unfold relocate
    split_ifs
    · unfold reviveNode
      split_ifs <;> simp [assignNode_size, clearTile_size]
    · rfl
  calc lyt.size ≤ (lyt.dropChildren n).size := (dropChildren_samePlacement n).size
    _ = ((lyt.dropChildren n).relocate n t (lyt.getTile n)).size := (hr _ _).symm
    _ ≤ (lyt.moveNode n t newChildren).1.size :=
      ((assignChildren_samePlacement n newChildren).trans (updateOutputs_samePlacement t _)).size

end Tiles

section Operations

theorem empty_placementInv (clocked : ClockedLayout) (name : String) :
    PlacementInv (empty clocked name) := by
  have hm : ∀ t n, (empty clocked name).tileNodeMap t = some n → t.isDead = true ∧ n ≤ 1 := by
    intro t n h
    simp only [empty] at h
    split_ifs at h with h₀ h₁
    · exact ⟨h₀ ▸ rfl, by have := Option.some.inj h; omega⟩
    · exact ⟨h₁ ▸ rfl, by have := Option.some.inj h; omega⟩
  have hn : ∀ n t, (empty clocked name).nodeTileMap n = some t → t.isDead = true ∧ n ≤ 1 := by
    intro n t h
    simp only [empty] at h
    split_ifs at h <;> exact ⟨Option.some.inj h ▸ rfl, by omega⟩
  have hi : MapsInv (empty clocked name) :=
    { tile_of_node := fun t n hd h => by simp [(hm t n h).1] at hd
      node_of_tile := fun n t hd h => by simp [(hn n t h).1] at hd
      live_node := fun t n hd h => by simp [(hm t n h).1] at hd
      dead_tile := fun t n _ h => (hm t n h).2
      dead_node := fun n t _ h => (hn n t h).2
      two_le_size := le_rfl }
  refine ⟨hi, fun wire => ?_⟩
  have he : (empty clocked name).placedNodes wire = ∅ := by
    refine Finset.eq_empty_of_forall_notMem fun n h => ?_
    obtain ⟨t, ht, hd⟩ := isPlaced_iff.mp ((mem_placedNodes hi).mp h).1
    simp [(hn n t ht).1] at hd
  rw [he]
  cases wire <;> rfl

theorem CreatedAt.placementInv {t : Tile} (h : CreatedAt lyt t lyt') (hi : PlacementInv lyt) :
    PlacementInv lyt' := by
  obtain ⟨d, l, hl, hl'⟩ := h
  have he : SamePlacement lyt _ := emplaceNode_samePlacement d
  refine hl'.placementInv (assignNode_placementInv ((he.trans hl).placementInv hi)
    ⟨hi.two_le_size, ?_⟩ ?_ t)
  · exact lt_of_lt_of_le (by simp) hl.size
  · rw [(he.trans hl).isPlaced, Bool.eq_false_iff]
    exact fun hp => (hi.lt_size_of_placed hp).2.false

theorem clearTile_getTile_unplaced (hi : MapsInv lyt) (n : ℕ) :
    (lyt.clearTile (lyt.getTile n)).isPlaced n = false := by
  rw [isPlaced_clearTile]
  split_ifs with h
  · rfl
  · rw [Bool.eq_false_iff]
    intro hp
    obtain ⟨t, ht, hd⟩ := isPlaced_iff.mp hp
    rw [getTile_eq_of_map ht] at h
    exact h (hi.node_of_tile n t hd ht)

theorem relocate_placementInv (hi : PlacementInv lyt) {n : ℕ} (hn : 2 ≤ n ∧ n < lyt.size)
    (t : Tile) : PlacementInv (lyt.relocate n t (lyt.getTile n)) := by
  unfold relocate
  split_ifs
  · refine (reviveNode_samePlacement n).placementInv ?_
    refine assignNode_placementInv (clearTile_placementInv hi _) ?_ ?_ t
    · rwa [clearTile_size]
    · exact clearTile_getTile_unplaced hi.toMapsInv n
  · exact hi

theorem moveNode_placementInv (hi : PlacementInv lyt) {n : ℕ} (hn : 2 ≤ n ∧ n < lyt.size)
    (t : Tile) (newChildren : List Signal) :
    PlacementInv (lyt.moveNode n t newChildren).1 := by
  have hd : SamePlacement lyt _ := dropChildren_samePlacement n
  have hr := relocate_placementInv (hd.placementInv hi) ⟨hn.1, hn.2.trans_le hd.size⟩ t
  rw [hd.getTile] at hr
  exact ((assignChildren_samePlacement n newChildren).trans
    (updateOutputs_samePlacement t _)).placementInv hr

theorem apply_placementInv (hi : PlacementInv lyt) (op : Op) (ho : lyt.Defined op) :
    PlacementInv (lyt.apply op) := by
  cases op with
  | createPi name t => exact (createPi_createdAt name t).placementInv hi
  | createRo name t => exact (createRo_createdAt name t).placementInv hi
  | createPo s name t => exact (createPo_createdAt s name t).placementInv hi
  | createRi s name t => exact (createRi_createdAt s name t).placementInv hi
  | createNode children function t =>
    by_cases hc : children = []
    · rw [hc]
      exact hi
    · exact (createNode_createdAt hc function t).placementInv hi
  | moveNode n t newChildren => exact moveNode_placementInv hi ho t newChildren

theorem run_placementInv {clocked : ClockedLayout} {name : String} {ops : List Op}
    (h : (system clocked name).Legal ops) : PlacementInv ((system clocked name).run ops) :=
  (system clocked name).invariant_run (I := PlacementInv) (empty_placementInv clocked name)
    (fun _ op hi ho => apply_placementInv hi op ho) h

/-- Nodes and non-empty live tiles correspond one to one after any sequence of defined calls, and
the two counters count the placed wires and gates. -/
theorem placement_bijective {clocked : ClockedLayout} {name : String} {ops : List Op}
    (h : (system clocked name).Legal ops) :
    let lyt := (system clocked name).run ops
    (∀ t : Tile, t.isDead = false → lyt.isEmptyTile t = false → lyt.getTile (lyt.getNode t) = t) ∧
      (∀ n, lyt.isPlaced n = true → lyt.getNode (lyt.getTile n) = n) ∧
      lyt.numWires = (lyt.placedNodes true).card ∧
      lyt.numGates = (lyt.placedNodes false).card := by
  intro lyt
  have hi : PlacementInv lyt := run_placementInv h
  refine ⟨fun t hd he => ?_, fun n hp => ?_, hi.card true, hi.card false⟩
  · exact getTile_eq_of_map (hi.tile_of_node t _ hd (tileNodeMap_getNode he))
  · have hm := nodeTileMap_getTile hp
    have hd : (lyt.getTile n).isDead = false := by simpa [isPlaced] using hp
    exact getNode_eq_of_map (hi.node_of_tile n _ hd hm)

/-- A ground layer of four times four tiles. -/
def smallLayout : ClockedLayout := ⟨⟨.at2 3 3, .cartesian⟩, .twoddwaveClocking 4⟩

/-- An input, a gate created next to it, and the input moved onto the tile of the gate. -/
theorem placement_bijective_occupied :
    let ops : List Op := [.createPi "" (.at2 1 0), .createNode [.at2 1 0] .not (.at2 2 0),
      .moveNode 2 (.at2 2 0) []]
    let lyt := (system smallLayout "").run ops
    (∀ t : Tile, t.isDead = false → lyt.isEmptyTile t = false → lyt.getTile (lyt.getNode t) = t) ∧
      (∀ n, lyt.isPlaced n = true → lyt.getNode (lyt.getTile n) = n) ∧
      lyt.numWires = (lyt.placedNodes true).card ∧
      lyt.numGates = (lyt.placedNodes false).card :=
  placement_bijective (by decide)

end Operations

section Occupancy

/-- A layout has only finitely many tiles with a node on them. -/
def FinitelyOccupied (lyt : GateLevelLayout) : Prop := {t | lyt.tileNodeMap t ≠ none}.Finite

theorem SameMaps.finitelyOccupied (h : SameMaps lyt lyt') (hf : FinitelyOccupied lyt) :
    FinitelyOccupied lyt' := by
  rw [FinitelyOccupied, h.tileNodeMap]
  exact hf

theorem clearTile_finitelyOccupied (hf : FinitelyOccupied lyt) (t : Tile) :
    FinitelyOccupied (lyt.clearTile t) := by
  refine hf.subset fun t' h => ?_
  rw [Set.mem_ofPred_eq, clearTile_tileNodeMap] at h
  split_ifs at h
  · exact absurd rfl h
  · exact h

theorem assignNode_finitelyOccupied (hf : FinitelyOccupied lyt) (t : Tile) (n : ℕ) :
    FinitelyOccupied (lyt.assignNode t n) := by
  cases ht : t.isDead with
  | true =>
    rw [assignNode_dead ht]
    exact hf
  | false =>
    rw [assignNode_live ht]
    refine (count_sameMaps n).finitelyOccupied ?_
    refine ((clearTile_finitelyOccupied hf t).insert t).subset fun t' h => ?_
    by_cases he : t' = t
    · exact .inl he
    · right
      have hplace : ((lyt.clearTile t).place t n).tileNodeMap t' = (lyt.clearTile t).tileNodeMap t' :=
        Function.update_of_ne he _ _
      rwa [Set.mem_ofPred_eq, hplace] at h

theorem CreatedAt.finitelyOccupied {t : Tile} (h : CreatedAt lyt t lyt')
    (hf : FinitelyOccupied lyt) : FinitelyOccupied lyt' := by
  obtain ⟨d, l, hl, hl'⟩ := h
  have he : SameMaps lyt l := ((emplaceNode_samePlacement d).trans hl).toSameMaps
  exact hl'.toSameMaps.finitelyOccupied
    (assignNode_finitelyOccupied (he.finitelyOccupied hf) t lyt.size)

theorem moveNode_finitelyOccupied (hf : FinitelyOccupied lyt) (n : ℕ) (t : Tile)
    (newChildren : List Signal) : FinitelyOccupied (lyt.moveNode n t newChildren).1 := by
  have hd : FinitelyOccupied (lyt.dropChildren n) :=
    (dropChildren_samePlacement n).toSameMaps.finitelyOccupied hf
  have hr : FinitelyOccupied ((lyt.dropChildren n).relocate n t (lyt.getTile n)) := by
    unfold relocate
    split_ifs
    · exact (reviveNode_samePlacement n).toSameMaps.finitelyOccupied
        (assignNode_finitelyOccupied (clearTile_finitelyOccupied hd _) t n)
    · exact hd
  exact ((assignChildren_samePlacement n newChildren).trans
    (updateOutputs_samePlacement t _)).toSameMaps.finitelyOccupied hr

theorem apply_finitelyOccupied (hf : FinitelyOccupied lyt) (op : Op) :
    FinitelyOccupied (lyt.apply op) := by
  cases op with
  | createPi name t => exact (createPi_createdAt name t).finitelyOccupied hf
  | createRo name t => exact (createRo_createdAt name t).finitelyOccupied hf
  | createPo s name t => exact (createPo_createdAt s name t).finitelyOccupied hf
  | createRi s name t => exact (createRi_createdAt s name t).finitelyOccupied hf
  | createNode children function t =>
    by_cases hc : children = []
    · rw [hc]
      exact hf
    · exact (createNode_createdAt hc function t).finitelyOccupied hf
  | moveNode n t newChildren => exact moveNode_finitelyOccupied hf n t newChildren

theorem run_finitelyOccupied {clocked : ClockedLayout} {name : String} {ops : List Op}
    (h : (system clocked name).Legal ops) : FinitelyOccupied ((system clocked name).run ops) := by
  refine (system clocked name).invariant_run (I := FinitelyOccupied) ?_
    (fun _ op hf _ => apply_finitelyOccupied hf op) h
  refine (Set.toFinite {const0, const1}).subset fun t ht => ?_
  simp only [system, empty, Set.mem_ofPred_eq] at ht
  split_ifs at ht with h₀ h₁
  · exact .inl h₀
  · exact .inr h₁
  · exact absurd rfl ht

end Occupancy

end Fiction.GateLevelLayout
