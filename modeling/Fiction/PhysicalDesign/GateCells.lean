import Fiction.PhysicalDesign.ApplyGateLibrary
import Fiction.Technology.QcaOneGates
import Fiction.Verification.DesignRuleViolations
import Mathlib.Data.List.GetD

/-!
# The cells of assigned gates

The gates of distinct tiles cover disjoint blocks of cells. Before the optimization, a cell
therefore has the type that the gate of its tile gives it.
-/

namespace Fiction

namespace ApplyGateLibrary

open QcaOneLibrary

variable {gateLyt : GateLevelLayout}

/-- The cells of a tile. -/
def block (t : Tile) : Set Cell :=
  {c | c.x / gateSizeX = t.x ∧ c.y / gateSizeY = t.y ∧ c.z = t.z}

/-- The cell of tile `t` at the position `p` of its gate. -/
def cellAt (t : Tile) (p : PortPosition) : Cell :=
  ⟨t.x * gateSizeX + p.x, t.y * gateSizeY + p.y, t.z⟩

section Gates

variable {c : Cell} {g : Gate} {name : List Char}

theorem cellType_assignCell (cellLyt : CellLevelLayout) (offset : ℕ × ℕ) (k : Cell) :
    (assignCell c g name cellLyt offset).getCellType k =
      if k = ⟨c.x + offset.1, c.y + offset.2, c.z⟩ ∧ g.cell offset.1 offset.2 ≠ .empty then
        g.cell offset.1 offset.2
      else cellLyt.getCellType k := by
  unfold assignCell
  by_cases he : g.cell offset.1 offset.2 = .empty
  · simp [he]
  · simp only [ne_eq, he, not_false_eq_true, if_true, and_true]
    split_ifs with hio hk hk <;> simp [hk]

theorem cellMode_assignCell (cellLyt : CellLevelLayout) (offset : ℕ × ℕ) :
    (assignCell c g name cellLyt offset).getCellMode = cellLyt.getCellMode := by
  unfold assignCell
  by_cases he : g.cell offset.1 offset.2 = .empty
  · simp [he]
  · simp only [ne_eq, he, not_false_eq_true, if_true]
    split_ifs <;> simp [he]

theorem mem_gatePositions {x y : ℕ} :
    (x, y) ∈ gatePositions g ↔ y < g.length ∧ x < (g.getD y []).length := by
  simp only [gatePositions, List.mem_flatMap, List.mem_map, List.mem_range, Prod.mk.injEq]
  constructor
  · rintro ⟨y', hy, x', hx, rfl, rfl⟩
    exact ⟨hy, hx⟩
  · rintro ⟨hy, hx⟩
    exact ⟨y, hy, x, hx, rfl, rfl⟩

theorem gatePositions_nodup : (gatePositions g).Nodup := by
  refine List.nodup_flatMap.mpr ⟨fun y _ => ?_, ?_⟩
  · exact List.nodup_range.map fun _ _ h => (Prod.mk.inj h).1
  · refine List.nodup_range.imp fun hne => ?_
    intro p h₁ h₂
    obtain ⟨_, -, rfl⟩ := List.mem_map.mp h₁
    obtain ⟨_, -, h⟩ := List.mem_map.mp h₂
    exact hne (Prod.mk.inj h).2.symm

theorem cell_eq_empty {x y : ℕ} (h : (x, y) ∉ gatePositions g) : g.cell x y = .empty := by
  rw [mem_gatePositions, not_and_or, not_lt, not_lt] at h
  have hrow : (g.getD y []).length ≤ x := by
    rcases h with h | h
    · rw [List.getD_eq_default _ _ h]
      exact Nat.zero_le x
    · exact h
  exact List.getD_eq_default _ _ hrow

theorem Pinned.lt_gateSize (hg : Pinned g) {x y : ℕ} (h : (x, y) ∈ gatePositions g) :
    x < gateSizeX ∧ y < gateSizeY := by
  obtain ⟨hy, hx⟩ := mem_gatePositions.mp h
  rw [List.getD_eq_getElem _ _ hy] at hx
  exact ⟨hx.trans_le (hg.columns _ (List.getElem_mem hy)), hy.trans_le hg.rows⟩

variable {cellLyt : CellLevelLayout} {t : Tile}

theorem mem_block_iff {k : Cell} :
    k ∈ block t ↔ ∃ p : PortPosition, p.x < gateSizeX ∧ p.y < gateSizeY ∧ k = cellAt t p := by
  obtain ⟨x, y, z⟩ := k
  simp only [block, cellAt, gateSizeX, gateSizeY, Set.mem_ofPred_eq, Cell.mk.injEq]
  constructor
  · rintro ⟨hx, hy, rfl⟩
    exact ⟨⟨x % 5, y % 5⟩, by simp only; omega, by simp only; omega, by simp only; omega,
      by simp only; omega, rfl⟩
  · rintro ⟨p, hpx, hpy, rfl, rfl, rfl⟩
    exact ⟨by omega, by omega, rfl⟩

theorem cellAt_mem_block {p : PortPosition} (hx : p.x < gateSizeX) (hy : p.y < gateSizeY) :
    cellAt t p ∈ block t :=
  mem_block_iff.mpr ⟨p, hx, hy, rfl⟩

theorem block_disjoint {t t' : Tile} (ht : t.isDead = false) (ht' : t'.isDead = false)
    (hne : t ≠ t') : Disjoint (block t) (block t') := by
  rw [Set.disjoint_left]
  rintro k ⟨hx, hy, hz⟩ ⟨hx', hy', hz'⟩
  apply hne
  obtain ⟨d, z, y, x⟩ := t
  obtain ⟨d', z', y', x'⟩ := t'
  have hd : d = false := ht
  have hd' : d' = false := ht'
  simp only at hx hy hz hx' hy' hz'
  simp only [Ucoord.mk.injEq]
  exact ⟨hd.trans hd'.symm, by omega, by omega, by omega⟩

theorem cellType_assignGate_of_not_mem (hg : Pinned g) {k : Cell} (hk : k ∉ block t) :
    (assignGate cellLyt (origin t) g name).getCellType k = cellLyt.getCellType k := by
  refine RegionWrites.get_foldl_of_not_mem (fun l : CellLevelLayout => l.getCellType)
    (fun p => {cellAt t ⟨p.1, p.2⟩}) ?_ ?_ cellLyt
  · intro l p k hk
    rw [cellType_assignCell, if_neg]
    exact fun h => hk h.1
  · rintro ⟨x, y⟩ hp rfl
    obtain ⟨hx, hy⟩ := Pinned.lt_gateSize hg hp
    exact hk (cellAt_mem_block hx hy)

theorem cellType_assignGate_of_mem (p : PortPosition) :
    (assignGate cellLyt (origin t) g name).getCellType (cellAt t p) =
      if filled g p = true then g.cell p.x p.y else cellLyt.getCellType (cellAt t p) := by
  have hframe : ∀ (l : CellLevelLayout) (o : ℕ × ℕ) (k : Cell),
      k ∉ ({cellAt t ⟨o.1, o.2⟩} : Set Cell) →
      (assignCell (origin t) g name l o).getCellType k = l.getCellType k := by
    intro l o k hk
    rw [cellType_assignCell, if_neg]
    exact fun h => hk h.1
  have hinj : ∀ {o o' : ℕ × ℕ}, cellAt t ⟨o.1, o.2⟩ = cellAt t ⟨o'.1, o'.2⟩ → o = o' := by
    intro o o' h
    simp only [cellAt, Cell.mk.injEq] at h
    exact Prod.ext (by omega) (by omega)
  by_cases hp : (p.x, p.y) ∈ gatePositions g
  · refine RegionWrites.get_foldl_of_mem (fun l : CellLevelLayout => l.getCellType) _
      (f := fun old => if filled g p = true then g.cell p.x p.y else old) hframe ?_ hp rfl ?_ cellLyt
    · refine gatePositions_nodup.imp fun hne => ?_
      rw [Set.disjoint_singleton]
      exact fun h => hne (hinj h)
    · intro l
      rw [cellType_assignCell]
      simp [filled, cellAt, origin]
  · have hempty : filled g p = false := by simp [filled, cell_eq_empty hp]
    rw [hempty, if_neg Bool.false_ne_true]
    refine RegionWrites.get_foldl_of_not_mem (fun l : CellLevelLayout => l.getCellType) _ hframe ?_
      cellLyt
    rintro o ho h
    have he : (p.x, p.y) = o := hinj (o := (p.x, p.y)) h
    exact hp (he ▸ ho)

theorem cellMode_assignGate :
    (assignGate cellLyt (origin t) g name).getCellMode = cellLyt.getCellMode := by
  unfold assignGate
  induction gatePositions g generalizing cellLyt with
  | nil => rfl
  | cons o l ih => rw [List.foldl_cons, ih, cellMode_assignCell]

end Gates

section Nodes

variable {cellLyt cellLyt' : CellLevelLayout} {ns : List ℕ}

/-- The gate that is assigned to a tile, provided that there is one. -/
def gateOf (gateLyt : GateLevelLayout) (t : Tile) : Gate := (setUpGate gateLyt t).toOption.getD []

/-- The effect of the loop body on a node whose tile has a gate. -/
def assignOf (gateLyt : GateLevelLayout) (cellLyt : CellLevelLayout) (n : ℕ) : CellLevelLayout :=
  assignGate cellLyt (origin (gateLyt.getTile n)) (gateOf gateLyt (gateLyt.getTile n))
    (gateLyt.getName n).toList

theorem foldlM_assignNodeGate
    (h : ns.foldlM (assignNodeGate gateLyt) cellLyt = .ok cellLyt') :
    cellLyt' = (ns.filter (!GateLevelLayout.isConstant ·)).foldl (assignOf gateLyt) cellLyt ∧
      ∀ n ∈ ns.filter (!GateLevelLayout.isConstant ·),
        setUpGate gateLyt (gateLyt.getTile n) = .ok (gateOf gateLyt (gateLyt.getTile n)) := by
  induction ns generalizing cellLyt with
  | nil =>
    cases h
    exact ⟨rfl, by simp⟩
  | cons n ns ih =>
    rw [List.foldlM_cons] at h
    unfold assignNodeGate at h
    by_cases hn : GateLevelLayout.isConstant n = true
    · simp only [hn, if_true] at h
      simpa [hn] using ih h
    · simp only [hn] at h
      cases hg : setUpGate gateLyt (gateLyt.getTile n) with
      | error e =>
        rw [hg] at h
        contradiction
      | ok g =>
        rw [hg] at h
        have hgate : gateOf gateLyt (gateLyt.getTile n) = g := by simp [gateOf, hg, Except.toOption]
        obtain ⟨hl, hs⟩ := ih h
        have hn' : (!GateLevelLayout.isConstant n) = true := by simpa using hn
        simp only [List.filter_cons, hn', if_true, List.foldl_cons]
        refine ⟨?_, ?_⟩
        · rw [hl]
          simp only [assignOf, hgate]
        · rintro m hm
          rcases List.mem_cons.mp hm with rfl | hm
          · rw [hg, hgate]
          · exact hs m hm

end Nodes

section Occupied

def gatesAssigned (gateLyt : GateLevelLayout) : CellLevelLayout :=
  gateLyt.checkedNodes.foldl (assignOf gateLyt) (initialLayout gateLyt)

/-- The tile hosts a living node. -/
def hostsLiving (gateLyt : GateLevelLayout) (t : Tile) : Bool :=
  gateLyt.checkedNodes.contains (gateLyt.getNode t)

/-- The tile hosts a gate that has a cell in the middle of side `d`. -/
def occupies (gateLyt : GateLevelLayout) (t : Tile) (d : Side) : Bool :=
  hostsLiving gateLyt t && fills gateLyt t d

/-- Every living node is placed and has a gate. -/
structure Assignable (gateLyt : GateLevelLayout) : Prop where
  maps : gateLyt.MapsInv
  placed : ∀ n ∈ gateLyt.checkedNodes, gateLyt.isPlaced n = true
  gates : ∀ n ∈ gateLyt.checkedNodes,
    setUpGate gateLyt (gateLyt.getTile n) = .ok (gateOf gateLyt (gateLyt.getTile n))

theorem applyGateLibrary_eq_ok {cellLyt : CellLevelLayout}
    (h : applyGateLibrary gateLyt = .ok cellLyt) :
    cellLyt = { postLayoutOptimization (gatesAssigned gateLyt) with
      layoutName := gateLyt.layoutName.toList } ∧
    ∀ n ∈ gateLyt.checkedNodes,
      setUpGate gateLyt (gateLyt.getTile n) = .ok (gateOf gateLyt (gateLyt.getTile n)) := by
  unfold applyGateLibrary at h
  cases hrun : gateLyt.foreachNode.foldlM (assignNodeGate gateLyt) (initialLayout gateLyt) with
  | error e =>
    rw [hrun] at h
    contradiction
  | ok lyt =>
    rw [hrun] at h
    cases h
    obtain ⟨rfl, hgates⟩ := foldlM_assignNodeGate hrun
    exact ⟨rfl, hgates⟩

theorem pinned_gateOf (t : Tile) : Pinned (gateOf gateLyt t) := by
  unfold gateOf
  cases h : setUpGate gateLyt t with
  | error e => exact (by decide : Pinned [])
  | ok g => exact (setUpGate_touches h).1

theorem checkedNodes_nodup : gateLyt.checkedNodes.Nodup :=
  (List.nodup_range.filter _).filter _

variable (ha : Assignable gateLyt)
include ha

theorem Assignable.getNode_getTile {n : ℕ} (hn : n ∈ gateLyt.checkedNodes) :
    gateLyt.getNode (gateLyt.getTile n) = n :=
  GateLevelLayout.getNode_getTile ha.maps (ha.placed n hn)

theorem Assignable.getTile_getNode {t : Tile} (h : hostsLiving gateLyt t = true) :
    gateLyt.getTile (gateLyt.getNode t) = t := by
  have hn : gateLyt.getNode t ∈ gateLyt.checkedNodes := by simpa [hostsLiving] using h
  exact (ha.maps.getTile_getNode (GateLevelLayout.mem_checkedNodes.mp hn).2.2).2

theorem Assignable.blocks_disjoint : gateLyt.checkedNodes.Pairwise fun n m =>
    Disjoint (block (gateLyt.getTile n)) (block (gateLyt.getTile m)) := by
  apply checkedNodes_nodup.pairwise_of_forall_ne
  intro n hn m hm hne
  apply block_disjoint (GateLevelLayout.live_of_isPlaced (ha.placed n hn))
    (GateLevelLayout.live_of_isPlaced (ha.placed m hm))
  intro h
  rw [← ha.getNode_getTile hn, h, ha.getNode_getTile hm] at hne
  exact hne rfl

theorem Assignable.isEmptyCell_cellAt {t : Tile} (ht : t.isDead = false) {p : PortPosition}
    (hx : p.x < gateSizeX) (hy : p.y < gateSizeY) :
    (gatesAssigned gateLyt).isEmptyCell (cellAt t p) =
      !(hostsLiving gateLyt t && filled (gateOf gateLyt t) p) := by
  have hframe : ∀ (l : CellLevelLayout) (n : ℕ) (k : Cell), k ∉ block (gateLyt.getTile n) →
      (assignOf gateLyt l n).getCellType k = l.getCellType k :=
    fun l n k hk => cellType_assignGate_of_not_mem (pinned_gateOf _) hk
  have hinit : (initialLayout gateLyt).getCellType (cellAt t p) = .empty := rfl
  cases hl : hostsLiving gateLyt t with
  | true =>
    have hn : gateLyt.getNode t ∈ gateLyt.checkedNodes := by simpa [hostsLiving] using hl
    have htile := ha.getTile_getNode hl
    have hmem : cellAt t p ∈ block (gateLyt.getTile (gateLyt.getNode t)) := by
      rw [htile]
      exact cellAt_mem_block hx hy
    have hcell := RegionWrites.get_foldl_of_mem (fun l : CellLevelLayout => l.getCellType)
      (fun n => block (gateLyt.getTile n)) hframe ha.blocks_disjoint hn hmem
      (f := fun old => if filled (gateOf gateLyt t) p = true then (gateOf gateLyt t).cell p.x p.y
        else old) (fun l => by
          simp only [assignOf, htile]
          exact cellType_assignGate_of_mem p) (initialLayout gateLyt)
    rw [CellLevelLayout.isEmptyCell_eq, gatesAssigned, hcell, hinit]
    cases hf : filled (gateOf gateLyt t) p with
    | true => simpa [filled] using hf
    | false => simp
  | false =>
    have hout : ∀ n ∈ gateLyt.checkedNodes, cellAt t p ∉ block (gateLyt.getTile n) := by
      intro n hn hmem
      have hne : t ≠ gateLyt.getTile n := by
        rintro rfl
        rw [hostsLiving, ha.getNode_getTile hn] at hl
        simp [hn] at hl
      exact Set.disjoint_left.mp (block_disjoint ht
        (GateLevelLayout.live_of_isPlaced (ha.placed n hn)) hne) (cellAt_mem_block hx hy) hmem
    have hcell := RegionWrites.get_foldl_of_not_mem (fun l : CellLevelLayout => l.getCellType) _
      hframe hout (initialLayout gateLyt)
    rw [CellLevelLayout.isEmptyCell_eq, gatesAssigned, hcell, hinit]
    simp

end Occupied

end ApplyGateLibrary
end Fiction
