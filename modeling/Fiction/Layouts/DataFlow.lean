import Fiction.Layouts.PlacementInvariant
import Fiction.Library.OrderedSet

/-!
# Data flow between tiles

`incomingDataFlow` and `outgoingDataFlow` look for connected tiles in the clock zones that feed a
tile and in those that it feeds, and in the layers directly above and below these zones. Both
functions compare clock numbers within the layer of the tile they start from.
-/

namespace Fiction.GateLevelLayout

variable (lyt : GateLevelLayout)

def layersAround (c : Tile) : List Tile :=
  OrderedSet.ofList Ucoord.lt [c, lyt.clocked.above c, CoordinateLayout.below c]

def incomingDataFlow (t : Tile) : List Tile :=
  OrderedSet.ofList Ucoord.lt <| (lyt.clocked.incomingClockedZones t).flatMap fun i =>
    (lyt.layersAround i).filter fun dt => lyt.isChild (lyt.getNode t) dt

def outgoingDataFlow (t : Tile) : List Tile :=
  OrderedSet.ofList Ucoord.lt <| (lyt.clocked.outgoingClockedZones t).flatMap fun o =>
    (lyt.layersAround o).filter fun dt => lyt.isChild (lyt.getNode dt) t

def foreachFanin (n : ℕ) : List Signal :=
  if n ≤ 1 then [] else lyt.incomingDataFlow (lyt.getTile n)

def foreachFanout (n : ℕ) : List ℕ :=
  if n ≤ 1 then [] else (lyt.outgoingDataFlow (lyt.getTile n)).map lyt.getNode

def faninSize (n : ℕ) : ℕ := (lyt.incomingDataFlow (lyt.getTile n)).length

/-- One bit of the truth table that `compute` builds from the truth tables of the operands. -/
def compute (n : ℕ) (operands : List Bool) : Bool :=
  (lyt.node n).function.getBit (TruthTable.pattern (operands.take (lyt.faninSize n)))

section Membership

variable {lyt}

theorem eq_of_live {a b : Tile} (ha : a.isDead = false) (hb : b.isDead = false)
    (hab : a.lt b = false) (hba : b.lt a = false) : a = b :=
  Ucoord.eq_of_not_lt (ha.trans hb.symm) hab hba

theorem surrounding_live {i : Tile} (hi : lyt.clocked.Inside i) :
    ∀ c ∈ [i, lyt.clocked.above i, CoordinateLayout.below i], c.isDead = false := by
  have hz := hi.z_le
  intro c hc
  simp only [List.mem_cons, List.not_mem_nil, or_false] at hc
  rcases hc with rfl | rfl | rfl
  · exact hi.live
  · unfold CoordinateLayout.above
    split_ifs
    · omega
    · exact hi.live
    · exact hi.live
  · unfold CoordinateLayout.below
    split_ifs <;> exact hi.live

theorem mem_layersAround_iff {i s : Tile} (hi : lyt.clocked.Inside i) :
    s ∈ lyt.layersAround i ↔ s ∈ [i, lyt.clocked.above i, CoordinateLayout.below i] := by
  rw [layersAround, OrderedSet.mem_ofList fun a ha b hb =>
    eq_of_live (surrounding_live hi a ha) (surrounding_live hi b hb)]

theorem layersAround_live {i s : Tile} (hi : lyt.clocked.Inside i) (hs : s ∈ lyt.layersAround i) :
    s.isDead = false :=
  surrounding_live hi s ((mem_layersAround_iff hi).mp hs)

theorem mem_layersAround {i s : Tile} (hi : lyt.clocked.Inside i) (hs : lyt.clocked.Inside s) :
    s ∈ lyt.layersAround i ↔
      i = { s with z := i.z } ∧ s.z ≤ i.z + 1 ∧ i.z ≤ s.z + 1 := by
  rw [mem_layersAround_iff hi]
  obtain ⟨di, zi, yi, xi⟩ := i
  obtain ⟨ds, zs, ys, xs⟩ := s
  obtain ⟨hdi, -, -, hzi⟩ := hi
  obtain ⟨hds, -, -, hzs⟩ := hs
  have hdi' : di = false := hdi
  have hds' : ds = false := hds
  subst hdi' hds'
  simp only at hzi hzs
  simp only [List.mem_cons, List.not_mem_nil, or_false, CoordinateLayout.above,
    CoordinateLayout.below]
  split_ifs <;> simp only [Ucoord.mk.injEq, true_and] <;> omega

end Membership

section Duality

variable {lyt}

/-- The node on `t` stores `t'` as a child, and the two tiles are adjacent up to one layer. -/
structure Linked (lyt : GateLevelLayout) (t t' : Tile) : Prop where
  beside : lyt.clocked.Beside t t'
  above : t'.z ≤ t.z + 1
  below : t.z ≤ t'.z + 1
  child : t' ∈ (lyt.node (lyt.getNode t)).children

/-- The clock number at the position of `t'` in layer `z` is one lower than at the position of `t`. -/
def FeedsInLayer (lyt : GateLevelLayout) (t' t : Tile) (z : ℕ) : Prop :=
  lyt.clocked.isOutgoingClocked { t' with z := z } { t with z := z } = true

theorem mem_incomingDataFlow_iff {t t' : Tile} (ht : lyt.clocked.Inside t)
    (ht' : lyt.clocked.Inside t') :
    t' ∈ lyt.incomingDataFlow t ↔ lyt.Linked t t' ∧ lyt.FeedsInLayer t' t t.z := by
  have hin : ∀ i ∈ lyt.clocked.incomingClockedZones t, lyt.clocked.Inside i ∧ i.z = t.z :=
    fun i hi => CoordinateLayout.adjacentCoordinates_inside ht (List.mem_filter.mp hi).1
  have hlive : ∀ s ∈ (lyt.clocked.incomingClockedZones t).flatMap fun i =>
      (lyt.layersAround i).filter fun dt => lyt.isChild (lyt.getNode t) dt, s.isDead = false := by
    intro s hs
    obtain ⟨i, hi, hs⟩ := List.mem_flatMap.mp hs
    exact layersAround_live (hin i hi).1 (List.mem_filter.mp hs).1
  rw [incomingDataFlow,
    OrderedSet.mem_ofList fun a ha b hb => eq_of_live (hlive a ha) (hlive b hb)]
  simp only [List.mem_flatMap, List.mem_filter, isChild, List.contains_iff_mem]
  have hself : ({ t with z := t.z } : Tile) = t := rfl
  constructor
  · rintro ⟨i, hi, hs, hc⟩
    obtain ⟨hii, hz⟩ := hin i hi
    obtain ⟨he, hz₁, hz₂⟩ := (mem_layersAround hii ht').mp hs
    obtain ⟨hadj, hclk⟩ := List.mem_filter.mp hi
    rw [hz] at he hz₁ hz₂
    rw [he] at hadj hclk
    rw [ClockedLayout.isIncomingClocked_eq_isOutgoingClocked] at hclk
    exact ⟨⟨hadj, hz₁, hz₂, hc⟩, hclk⟩
  · rintro ⟨⟨hadj, hz₁, hz₂, hc⟩, hclk⟩
    have hii := (CoordinateLayout.adjacentCoordinates_inside ht hadj).1
    refine ⟨{ t' with z := t.z }, List.mem_filter.mpr ⟨hadj, ?_⟩, ?_, hc⟩
    · rw [ClockedLayout.isIncomingClocked_eq_isOutgoingClocked]
      exact hclk
    · exact (mem_layersAround hii ht').mpr ⟨rfl, hz₁, hz₂⟩

theorem outgoingDataFlow_live {t s : Tile} (ht : lyt.clocked.Inside t)
    (hs : s ∈ lyt.outgoingDataFlow t) : s.isDead = false := by
  have hs' := OrderedSet.mem_of_mem_ofList hs
  obtain ⟨o, ho, hs'⟩ := List.mem_flatMap.mp hs'
  have hoi := CoordinateLayout.adjacentCoordinates_inside ht (List.mem_filter.mp ho).1
  exact layersAround_live hoi.1 (List.mem_filter.mp hs').1

theorem mem_outgoingDataFlow_iff (hf : lyt.clocked.Fits) {t t' : Tile} (ht : lyt.clocked.Inside t)
    (ht' : lyt.clocked.Inside t') :
    t ∈ lyt.outgoingDataFlow t' ↔ lyt.Linked t t' ∧ lyt.FeedsInLayer t' t t'.z := by
  have hin : ∀ o ∈ lyt.clocked.outgoingClockedZones t', lyt.clocked.Inside o ∧ o.z = t'.z :=
    fun o ho => CoordinateLayout.adjacentCoordinates_inside ht' (List.mem_filter.mp ho).1
  have hlive : ∀ s ∈ (lyt.clocked.outgoingClockedZones t').flatMap fun o =>
      (lyt.layersAround o).filter fun dt => lyt.isChild (lyt.getNode dt) t', s.isDead = false := by
    intro s hs
    obtain ⟨o, ho, hs⟩ := List.mem_flatMap.mp hs
    exact layersAround_live (hin o ho).1 (List.mem_filter.mp hs).1
  rw [outgoingDataFlow,
    OrderedSet.mem_ofList fun a ha b hb => eq_of_live (hlive a ha) (hlive b hb)]
  simp only [List.mem_flatMap, List.mem_filter, isChild, List.contains_iff_mem]
  constructor
  · rintro ⟨o, ho, hs, hc⟩
    obtain ⟨hoi, hz⟩ := hin o ho
    obtain ⟨he, hz₁, hz₂⟩ := (mem_layersAround hoi ht).mp hs
    obtain ⟨hadj, hclk⟩ := List.mem_filter.mp ho
    rw [hz] at he hz₁ hz₂
    rw [he] at hadj hclk
    exact ⟨⟨(CoordinateLayout.beside_comm hf ht' ht).mp hadj, hz₂, hz₁, hc⟩, hclk⟩
  · rintro ⟨⟨hadj, hz₁, hz₂, hc⟩, hclk⟩
    have hadj' := (CoordinateLayout.beside_comm hf ht ht').mp hadj
    have hoi := (CoordinateLayout.adjacentCoordinates_inside ht' hadj').1
    exact ⟨{ t with z := t'.z }, List.mem_filter.mpr ⟨hadj', hclk⟩,
      (mem_layersAround hoi ht).mpr ⟨rfl, hz₂, hz₁⟩, hc⟩

theorem mem_foreachFanout_iff (hi : PlacementInv lyt) {n m : ℕ} (hn : lyt.isPlaced n = true)
    (hm : lyt.isPlaced m = true) (hin : lyt.clocked.Inside (lyt.getTile m)) :
    n ∈ lyt.foreachFanout m ↔ lyt.getTile n ∈ lyt.outgoingDataFlow (lyt.getTile m) := by
  have hn₂ := (hi.lt_size_of_placed hn).1
  have hm₂ := (hi.lt_size_of_placed hm).1
  have hnl : (lyt.getTile n).isDead = false := by simpa [isPlaced] using hn
  have hnode : lyt.getNode (lyt.getTile n) = n :=
    getNode_eq_of_map (hi.node_of_tile n _ hnl (nodeTileMap_getTile hn))
  rw [foreachFanout, if_neg (by omega), List.mem_map]
  constructor
  swap
  · exact fun h => ⟨_, h, hnode⟩
  rintro ⟨s, hs, hsn⟩
  have hsl := outgoingDataFlow_live hin hs
  have hst : lyt.tileNodeMap s = some n := by
    rw [← hsn]
    refine tileNodeMap_getNode ?_
    simp only [isEmptyTile, hsn, decide_eq_false_iff_not]
    omega
  rwa [(hi.getTile_eq_iff hsl).mp hst]

/-- The duality of the data flow. At two tiles of a layout it can fail only where the two functions
compare the clock numbers of different zones and disagree; where it holds, the fanins and the
fanouts of the placed nodes describe the same edges. The clock numbers may have been changed since
the nodes were placed, because no call reads them. -/
theorem dataFlow_dual_iff {clocked : ClockedLayout} {name : String} {ops : List Op}
    (h : (system clocked name).Legal ops) {clocked' : ClockedLayout} (hf : clocked'.Fits) :
    let lyt : GateLevelLayout := { (system clocked name).run ops with clocked := clocked' }
    (∀ t t', clocked'.Inside t → clocked'.Inside t' →
      ((t' ∈ lyt.incomingDataFlow t ↔ t ∈ lyt.outgoingDataFlow t') ↔
        (lyt.Linked t t' → (lyt.FeedsInLayer t' t t.z ↔ lyt.FeedsInLayer t' t t'.z)))) ∧
    (∀ n m, lyt.isPlaced n = true → lyt.isPlaced m = true →
      clocked'.Inside (lyt.getTile n) → clocked'.Inside (lyt.getTile m) →
      ((lyt.getTile m ∈ lyt.foreachFanin n ↔ n ∈ lyt.foreachFanout m) ↔
        (lyt.getTile m ∈ lyt.incomingDataFlow (lyt.getTile n) ↔
          lyt.getTile n ∈ lyt.outgoingDataFlow (lyt.getTile m)))) := by
  intro lyt
  have hi : PlacementInv lyt := (run_placementInv h).reclock clocked'
  refine ⟨fun t t' ht ht' => ?_, fun n m hn hm _ hm' => ?_⟩
  · rw [mem_incomingDataFlow_iff ht ht', mem_outgoingDataFlow_iff hf ht ht']
    tauto
  · have hn₂ := (hi.lt_size_of_placed hn).1
    rw [mem_foreachFanout_iff hi hn hm hm', foreachFanin, if_neg (by omega)]

/-- An input on the crossing layer that drives an inverter on the ground layer. -/
def crossingOps : List Op :=
  [.createPi "" (.at3 0 1 1), .createNode [.at3 0 1 1] .not (.at2 1 1)]

def twoLayers : ClockedLayout := ⟨⟨.at3 3 3 1, .cartesian⟩, .twoddwaveClocking 4⟩

theorem dataFlow_dual_iff_crossing :
    let lyt : GateLevelLayout := { (system twoLayers "").run crossingOps with clocked := twoLayers }
    (∀ t t', twoLayers.Inside t → twoLayers.Inside t' →
      ((t' ∈ lyt.incomingDataFlow t ↔ t ∈ lyt.outgoingDataFlow t') ↔
        (lyt.Linked t t' → (lyt.FeedsInLayer t' t t.z ↔ lyt.FeedsInLayer t' t t'.z)))) ∧
    (∀ n m, lyt.isPlaced n = true → lyt.isPlaced m = true →
      twoLayers.Inside (lyt.getTile n) → twoLayers.Inside (lyt.getTile m) →
      ((lyt.getTile m ∈ lyt.foreachFanin n ↔ n ∈ lyt.foreachFanout m) ↔
        (lyt.getTile m ∈ lyt.incomingDataFlow (lyt.getTile n) ↔
          lyt.getTile n ∈ lyt.outgoingDataFlow (lyt.getTile m)))) :=
  dataFlow_dual_iff (by decide) ⟨by decide, by decide⟩

/-- Overriding the clock number above the inverter separates the two directions. -/
theorem overridden_crossing_not_dual :
    let clocked := twoLayers.assignClockNumber (.at3 1 1 1) 0
    let lyt : GateLevelLayout := { (system twoLayers "").run crossingOps with clocked := clocked }
    .at3 0 1 1 ∈ lyt.incomingDataFlow (.at2 1 1) ∧
      .at2 1 1 ∉ lyt.outgoingDataFlow (.at3 0 1 1) ∧
      lyt.foreachFanin 3 = [.at3 0 1 1] ∧ lyt.foreachFanout 2 = [] := by
  decide

end Duality

section Fanins

variable {lyt}

/-- `c` is a live tile next to the one of `n`, in the same layer or one layer apart, and its clock
number is the one before that of the tile of `n`. -/
structure FeedsInto (lyt : GateLevelLayout) (n : ℕ) (c : Signal) : Prop where
  live : c.isDead = false
  adjacent : lyt.clocked.isAdjacentElevationOf (lyt.getTile n) c = true
  clocked : lyt.clocked.isIncomingClocked (lyt.getTile n) c = true

/-- In the layer of `n`, too, the zone at the position of `c` feeds the tile of `n`. -/
def FeedsInOwnLayer (lyt : GateLevelLayout) (n : ℕ) (c : Signal) : Prop :=
  { c with z := (lyt.getTile n).z } ∈ lyt.clocked.incomingClockedZones (lyt.getTile n)

theorem eq_of_mem_layersAround {i c : Tile} (hc : c.isDead = false) (h : c ∈ lyt.layersAround i) :
    i = { c with z := i.z } := by
  have hmem := OrderedSet.mem_of_mem_ofList h
  simp only [List.mem_cons, List.not_mem_nil, or_false] at hmem
  rcases hmem with rfl | rfl | rfl
  · rfl
  · unfold CoordinateLayout.above at hc ⊢
    split_ifs with h₁ h₂
    · rw [if_pos h₁] at hc
      cases hc
    · rfl
    · rfl
  · unfold CoordinateLayout.below
    split_ifs <;> rfl

theorem mem_layersAround_of_near {i c : Tile} (he : i = { c with z := i.z })
    (hz : c.z = i.z ∨ c.z = i.z + 1 ∧ i.z < lyt.clocked.z ∨ c.z + 1 = i.z) :
    c ∈ lyt.layersAround i := by
  rcases hz with hz | ⟨hz, hlt⟩ | hz
  · have hci : c = i := by
      rw [he, ← hz]
    rw [hci]
    exact OrderedSet.mem_ofList_of_first (l := []) fun b hb => absurd hb List.not_mem_nil
  · have habove : lyt.clocked.above i = c := by
      rw [CoordinateLayout.above, if_neg hlt.not_gt, if_pos hlt, ← hz, he]
    rw [layersAround, habove]
    apply OrderedSet.mem_ofList_of_first (l := [i])
    intro b hb _ hba
    rw [List.mem_singleton.mp hb, Ucoord.lt, if_pos (by omega)] at hba
    cases hba
  · have hbelow : CoordinateLayout.below i = c := by
      rw [CoordinateLayout.below, if_neg (by omega), ← hz, Nat.add_sub_cancel, he]
    rw [layersAround, hbelow]
    apply OrderedSet.mem_ofList_of_first (l := [i, lyt.clocked.above i])
    intro b hb hcb _
    have hlt : c.z < b.z := by
      simp only [List.mem_cons, List.not_mem_nil, or_false] at hb
      rcases hb with rfl | rfl
      · omega
      · unfold CoordinateLayout.above
        split_ifs
        · exact hz ▸ Nat.lt_succ_self c.z
        · change c.z < i.z + 1
          omega
        · omega
    rw [Ucoord.lt, if_pos hlt] at hcb
    cases hcb

theorem foreachFanin_eq_children_iff (hi : PlacementInv lyt) {n : ℕ} (hp : lyt.isPlaced n = true)
    (hc : ∀ c ∈ (lyt.node n).children, lyt.FeedsInto n c) :
    lyt.foreachFanin n = (lyt.node n).children ↔
      (∀ c ∈ (lyt.node n).children, lyt.FeedsInOwnLayer n c) ∧
        (lyt.node n).children.Pairwise fun a b => a.lt b = true := by
  have hn := (hi.lt_size_of_placed hp).1
  have hd : (lyt.getTile n).isDead = false := by simpa [isPlaced] using hp
  have hnode : lyt.getNode (lyt.getTile n) = n :=
    getNode_eq_of_map (hi.node_of_tile n _ hd (nodeTileMap_getTile hp))
  -- a child is found exactly if its zone in the layer of the node is a feeding one
  have hmem : ∀ s, (s ∈ (lyt.clocked.incomingClockedZones (lyt.getTile n)).flatMap fun i =>
      (lyt.layersAround i).filter fun dt => lyt.isChild (lyt.getNode (lyt.getTile n)) dt) ↔
        s ∈ (lyt.node n).children ∧ lyt.FeedsInOwnLayer n s := by
    intro s
    simp only [List.mem_flatMap, List.mem_filter, isChild, List.contains_iff_mem, hnode]
    constructor
    · rintro ⟨i, hzone, his, hs⟩
      have hz : i.z = (lyt.getTile n).z :=
        CoordinateLayout.adjacentCoordinates_z (List.mem_filter.mp hzone).1
      have he := eq_of_mem_layersAround (hc s hs).live his
      rw [hz] at he
      exact ⟨hs, by rwa [FeedsInOwnLayer, ← he]⟩
    · rintro ⟨hs, hown⟩
      have hz := CoordinateLayout.isAdjacentElevationOf_z (hc s hs).adjacent
      exact ⟨_, hown, mem_layersAround_of_near rfl hz, hs⟩
  rw [foreachFanin, if_neg (by omega), incomingDataFlow]
  have htrans : ∀ a b c : Tile, a.lt b = true → b.lt c = true → a.lt c = true :=
    fun _ _ _ => Ucoord.lt_trans
  constructor
  · intro heq
    constructor
    · intro c hmem'
      rw [← heq] at hmem'
      exact ((hmem c).mp (OrderedSet.mem_of_mem_ofList hmem')).2
    · rw [← heq]
      exact OrderedSet.pairwise_ofList htrans _
  · rintro ⟨hown, hsorted⟩
    refine (OrderedSet.ofList_eq_iff htrans Ucoord.lt_irrefl ?_ fun s => ?_).mpr hsorted
    · exact fun a ha b hb =>
        eq_of_live (hc a ((hmem a).mp ha).1).live (hc b ((hmem b).mp hb).1).live
    · rw [hmem s]
      exact and_iff_left_of_imp (hown s)

theorem compute_foreachFanin {n : ℕ} (hn : 2 ≤ n) (h : lyt.foreachFanin n = (lyt.node n).children)
    (val : Signal → Bool) :
    lyt.compute n ((lyt.foreachFanin n).map val) =
      (lyt.node n).function.eval ((lyt.node n).children.map val) := by
  have hs : lyt.faninSize n = (lyt.foreachFanin n).length := by
    rw [foreachFanin, if_neg (by omega), faninSize]
  rw [compute, hs, List.take_of_length_le (by simp), h, TruthTable.eval]

/-- If all children of a placed node feed into it, then its fanins are its operands exactly if they
feed into it within its own layer, too, and were given in the order of their coordinates and without
repetition. The clock numbers may have been changed since the nodes were placed. -/
theorem fanins_eq_children_iff {clocked : ClockedLayout} {name : String} {ops : List Op}
    (h : (system clocked name).Legal ops) {clocked' : ClockedLayout} {n : ℕ} :
    let lyt : GateLevelLayout := { (system clocked name).run ops with clocked := clocked' }
    lyt.isPlaced n = true → (∀ c ∈ (lyt.node n).children, lyt.FeedsInto n c) →
      (lyt.foreachFanin n = (lyt.node n).children ∧ (∀ val : Signal → Bool,
          lyt.compute n ((lyt.foreachFanin n).map val) =
            (lyt.node n).function.eval ((lyt.node n).children.map val)) ↔
        (∀ c ∈ (lyt.node n).children, lyt.FeedsInOwnLayer n c) ∧
          (lyt.node n).children.Pairwise fun a b => a.lt b = true) := by
  intro lyt hp hc
  have hi : PlacementInv lyt := (run_placementInv h).reclock clocked'
  have hiff := foreachFanin_eq_children_iff hi hp hc
  refine ⟨fun hf => hiff.mp hf.1, fun hs => ⟨hiff.mpr hs, ?_⟩⟩
  exact compute_foreachFanin (hi.lt_size_of_placed hp).1 (hiff.mpr hs)

instance (lyt : GateLevelLayout) (n : ℕ) (c : Signal) : Decidable (lyt.FeedsInto n c) :=
  decidable_of_iff (c.isDead = false ∧
    lyt.clocked.isAdjacentElevationOf (lyt.getTile n) c = true ∧
      lyt.clocked.isIncomingClocked (lyt.getTile n) c = true)
    ⟨fun h => ⟨h.1, h.2.1, h.2.2⟩, fun h => ⟨h.live, h.adjacent, h.clocked⟩⟩

/-- Two inputs, and a gate that computes its first operand and not its second. -/
def operandOps (children : List Signal) : List Op :=
  [.createPi "" (.at2 0 1), .createPi "" (.at2 1 0),
    .createNode children ⟨2, 0x2#4⟩ (.at2 1 1)]

theorem fanins_eq_children_iff_sorted :
    let lyt : GateLevelLayout :=
      { (system smallLayout "").run (operandOps [.at2 1 0, .at2 0 1]) with clocked := smallLayout }
    lyt.foreachFanin 4 = (lyt.node 4).children ∧ (∀ val : Signal → Bool,
        lyt.compute 4 ((lyt.foreachFanin 4).map val) =
          (lyt.node 4).function.eval ((lyt.node 4).children.map val)) ↔
      (∀ c ∈ (lyt.node 4).children, lyt.FeedsInOwnLayer 4 c) ∧
        (lyt.node 4).children.Pairwise fun a b => a.lt b = true :=
  @fanins_eq_children_iff smallLayout "" (operandOps [.at2 1 0, .at2 0 1]) (by decide) smallLayout 4
    (by decide) (by decide)

/-- With the operands given in the other order, the fanins are swapped and `compute` yields
another value. -/
theorem swapped_fanins :
    let lyt := (system smallLayout "").run (operandOps [.at2 0 1, .at2 1 0])
    let val : Signal → Bool := fun s => s = .at2 0 1
    lyt.isPlaced 4 = true ∧ (∀ c ∈ (lyt.node 4).children, lyt.FeedsInto 4 c) ∧
      lyt.foreachFanin 4 ≠ (lyt.node 4).children ∧
      lyt.compute 4 ((lyt.foreachFanin 4).map val) ≠
        (lyt.node 4).function.eval ((lyt.node 4).children.map val) := by
  decide

/-- An input in the crossing layer is dropped if the zone below it is overridden. -/
example :
    let clocked := twoLayers.assignClockNumber (.at2 0 1) 3
    let lyt : GateLevelLayout := { (system twoLayers "").run crossingOps with clocked := clocked }
    lyt.isPlaced 3 = true ∧ (∀ c ∈ (lyt.node 3).children, lyt.FeedsInto 3 c) ∧
      lyt.foreachFanin 3 = [] := by
  decide

end Fanins

end Fiction.GateLevelLayout
