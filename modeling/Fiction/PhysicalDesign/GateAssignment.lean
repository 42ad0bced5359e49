import Fiction.Layouts.CardinalSignals
import Fiction.Layouts.CellStorage
import Fiction.Layouts.Liveness
import Fiction.Library.RegionWrites
import Mathlib.Data.List.FinRange

/-!
# Assigning the gates of any library

`applyGateLibrary` is generic in the technology, in the gate library and in the kind of the
gate-level layout. Gates are rectangular arrays of one size. Where a gate starts depends on the kind
of the layout: shifted rows and columns start half a tile later, and hexagons overlap their
neighbours by a quarter.

The products of positions and sizes are signed words, whose overflow is undefined. What is stored
in a coordinate is reduced to 31 bits.
-/

namespace Fiction.GateAssignment

open CoordinateLayout (toField isPointyTop)

/-- The modes of the cells are not assigned here. -/
structure CellLyt (τ : Type) extends CellStorage Ucoord τ Unit where
  clocked : ClockedLayout
  layoutName : String
  tileSizeX : ℕ
  tileSizeY : ℕ

namespace CellLyt

variable {τ : Type} (lyt : CellLyt τ) (c : Ucoord)

def assignCellName (n : String) : CellLyt τ :=
  { lyt with toCellStorage := lyt.toCellStorage.assignCellName c n.toList }

/-- A clock zone of the scheme covers as many cells as a gate. -/
def getClockNumber : ℕ :=
  lyt.clocked.getClockNumber (.at3 (c.x / lyt.tileSizeX) (c.y / lyt.tileSizeY) c.z)

structure SameZones (lyt lyt' : CellLyt τ) : Prop where
  clocked : lyt'.clocked = lyt.clocked
  tileSizeX : lyt'.tileSizeX = lyt.tileSizeX
  tileSizeY : lyt'.tileSizeY = lyt.tileSizeY

variable {lyt} {lyt' lyt'' : CellLyt τ}

theorem SameZones.trans (h : SameZones lyt lyt') (h' : SameZones lyt' lyt'') :
    SameZones lyt lyt'' where
  clocked := h'.clocked.trans h.clocked
  tileSizeX := h'.tileSizeX.trans h.tileSizeX
  tileSizeY := h'.tileSizeY.trans h.tileSizeY

theorem SameZones.getClockNumber (h : SameZones lyt lyt') (c : Ucoord) :
    lyt'.getClockNumber c = lyt.getClockNumber c := by
  simp only [CellLyt.getClockNumber, h.clocked, h.tileSizeX, h.tileSizeY]

theorem assignCellName_sameZones (n : String) : SameZones lyt (lyt.assignCellName c n) :=
  ⟨rfl, rfl, rfl⟩

variable [DecidableEq τ] [Technology τ] (lyt)

def assignCellType (ct : τ) : CellLyt τ :=
  { lyt with toCellStorage := lyt.toCellStorage.assignCellType c ct }

theorem assignCellType_sameZones (ct : τ) : SameZones lyt (lyt.assignCellType c ct) :=
  ⟨rfl, rfl, rfl⟩

end CellLyt

/-- Gate sizes are 16-bit words. -/
structure GateLibrary (τ ε : Type) where
  gateXSize : ℕ
  gateYSize : ℕ
  gateXSize_lt : gateXSize < 2 ^ 16
  gateYSize_lt : gateYSize < 2 ^ 16
  /-- the rows of the gate for a tile -/
  setUpGate : GateLevelLayout → Tile → Except ε (Fin gateYSize → Fin gateXSize → τ)
  postLayoutOptimization : Option (CellLyt τ → CellLyt τ)

/-- Shifted Cartesian layouts reuse the arrangements of hexagonal ones. -/
inductive LayoutKind where
  | cartesian | shiftedCartesian | hexagonal
  deriving DecidableEq

inductive Failure (ε : Type) where
  | exception (e : ε)
  | overflow

section Origins

variable {τ ε : Type} (kind : LayoutKind) (lib : GateLibrary τ ε) (arr : Arrangement)

def intProduct (a b : ℕ) : Except (Failure ε) ℕ :=
  if a * b < 2 ^ 31 then .ok (a * b) else .error .overflow

def isInShiftedRow (t : Tile) : Bool :=
  match arr with
  | .oddRowHex => t.y % 2 = 1
  | .evenRowHex => t.y % 2 = 0
  | _ => false

def isInShiftedColumn (t : Tile) : Bool :=
  match arr with
  | .oddColumnHex => t.x % 2 = 1
  | .evenColumnHex => t.x % 2 = 0
  | _ => false

/-- The distance of neighbouring columns; it is three quarters of the width of flat-top hexagons. -/
def strideX : ℕ :=
  if kind = .hexagonal ∧ isPointyTop arr = false then lib.gateXSize * 3 / 4 else lib.gateXSize

/-- The distance of neighbouring rows; it is three quarters of the height of pointy-top hexagons. -/
def strideY : ℕ :=
  if kind = .hexagonal ∧ isPointyTop arr = true then lib.gateYSize * 3 / 4 else lib.gateYSize

def shift (t : Tile) (c : Ucoord) : Ucoord :=
  if isInShiftedRow arr t then { c with x := toField (c.x + (lib.gateXSize / 2 : ℕ)) }
  else if isInShiftedColumn arr t then { c with y := toField (c.y + (lib.gateYSize / 2 : ℕ)) }
  else c

/-- The cell from which the gate of a tile extends to the south-east. -/
def origin (t : Tile) : Except (Failure ε) Ucoord := do
  let x ← intProduct t.x (strideX kind lib arr)
  let y ← intProduct t.y (strideY kind lib arr)
  let c : Ucoord := .at3 x y t.z
  match kind with
  | .cartesian => return c
  | .shiftedCartesian | .hexagonal => return shift lib arr t c

end Origins

variable {τ ε : Type} [DecidableEq τ] [Technology τ]

section Gates

variable {width height : ℕ}

def gatePositions (width height : ℕ) : List (Fin width × Fin height) :=
  (List.finRange height).flatMap fun y => (List.finRange width).map fun x => (x, y)

def cellPosition (c : Ucoord) (offset : Fin width × Fin height) : Ucoord :=
  .at3 (toField (c.x + offset.1)) (toField (c.y + offset.2)) c.z

def assignCell (c : Ucoord) (g : Fin height → Fin width → τ) (name : String) (cellLyt : CellLyt τ)
    (offset : Fin width × Fin height) : CellLyt τ :=
  let pos := cellPosition c offset
  let type := g offset.2 offset.1
  let cellLyt := if type ≠ Technology.empty then cellLyt.assignCellType pos type else cellLyt
  if type = Technology.input ∨ type = Technology.output then cellLyt.assignCellName pos name
  else cellLyt

def assignGate (c : Ucoord) (g : Fin height → Fin width → τ) (name : String)
    (cellLyt : CellLyt τ) : CellLyt τ :=
  (gatePositions width height).foldl (assignCell c g name) cellLyt

end Gates

variable (kind : LayoutKind) (lib : GateLibrary τ ε) (lyt : GateLevelLayout)

/-- The position with the largest coordinates of the created layout. -/
def cellDimension : Ucoord :=
  .at3 (toField ((lyt.clocked.x + 1) * lib.gateXSize - 1))
    (toField ((lyt.clocked.y + 1) * lib.gateYSize - 1)) lyt.clocked.z

def initialLayout : CellLyt τ where
  toCellStorage := .new
  clocked := ⟨⟨cellDimension lib lyt, .cartesian⟩, lyt.clocked.clocking⟩
  layoutName := ""
  tileSizeX := lib.gateXSize
  tileSizeY := lib.gateYSize

/-- The body of the loop over all nodes. -/
def assignNode (cellLyt : CellLyt τ) (n : ℕ) : Except (Failure ε) (CellLyt τ) :=
  if GateLevelLayout.isConstant n then .ok cellLyt
  else do
    let t := lyt.getTile n
    let c ← origin kind lib lyt.clocked.arrangement t
    let g ← (lib.setUpGate lyt t).mapError Failure.exception
    return assignGate c g (lyt.getName n) cellLyt

def assignGates : Except (Failure ε) (CellLyt τ) :=
  lyt.foreachNode.foldlM (assignNode kind lib lyt) (initialLayout lib lyt)

def applyGateLibrary : Except (Failure ε) (CellLyt τ) := do
  let cellLyt ← assignGates kind lib lyt
  let cellLyt := (lib.postLayoutOptimization.getD id) cellLyt
  return { cellLyt with layoutName := lyt.layoutName }

section Effects

variable {kind lib lyt} {cellLyt cellLyt' : CellLyt τ} {n : ℕ} {ns : List ℕ}

section Gates

variable {width height : ℕ} {c : Ucoord} {g : Fin height → Fin width → τ} {name : String}

theorem assignCell_sameZones (offset : Fin width × Fin height) :
    cellLyt.SameZones (assignCell c g name cellLyt offset) := by
  dsimp only [assignCell]
  split_ifs
  · exact (cellLyt.assignCellType_sameZones _ _).trans (CellLyt.assignCellName_sameZones _ _)
  · exact CellLyt.assignCellName_sameZones _ _
  · exact cellLyt.assignCellType_sameZones _ _
  · exact ⟨rfl, rfl, rfl⟩

theorem isEmptyCell_assignCell (offset : Fin width × Fin height) (p : Ucoord) :
    (assignCell c g name cellLyt offset).isEmptyCell p = false ↔ cellLyt.isEmptyCell p = false ∨
      cellPosition c offset = p ∧ g offset.2 offset.1 ≠ Technology.empty := by
  have htype : (assignCell c g name cellLyt offset).getCellType p =
      if g offset.2 offset.1 ≠ Technology.empty ∧ cellPosition c offset = p then
        g offset.2 offset.1
      else cellLyt.getCellType p := by
    dsimp only [assignCell]
    by_cases he : g offset.2 offset.1 = Technology.empty
    · simp only [he, ne_eq, not_true_eq_false, false_and, if_false]
      split_ifs <;> rfl
    · simp only [he, ne_eq, not_false_eq_true, true_and, if_true]
      rw [← CellStorage.getCellType_assignCellType]
      split_ifs <;> rfl
  rw [CellStorage.isEmptyCell, htype, CellStorage.isEmptyCell]
  by_cases hp : g offset.2 offset.1 ≠ Technology.empty ∧ cellPosition c offset = p
  · simp [Technology.isEmptyCell, hp]
  · rw [if_neg hp, and_comm, or_iff_left hp]

theorem mem_gatePositions (offset : Fin width × Fin height) :
    offset ∈ gatePositions width height := by
  simp only [gatePositions, List.mem_flatMap, List.mem_map]
  exact ⟨offset.2, List.mem_finRange _, offset.1, List.mem_finRange _, rfl⟩

theorem assignGate_sameZones : cellLyt.SameZones (assignGate c g name cellLyt) := by
  unfold assignGate
  induction gatePositions width height generalizing cellLyt with
  | nil => exact ⟨rfl, rfl, rfl⟩
  | cons offset l ih => exact (assignCell_sameZones offset).trans ih

theorem isEmptyCell_assignGate (c : Ucoord) (g : Fin height → Fin width → τ) (name : String)
    (cellLyt : CellLyt τ) (p : Ucoord) :
    (assignGate c g name cellLyt).isEmptyCell p = false ↔ cellLyt.isEmptyCell p = false ∨
      ∃ x y, cellPosition c (x, y) = p ∧ g y x ≠ Technology.empty := by
  rw [assignGate, RegionWrites.marked_foldl_iff (fun (l : CellLyt τ) p => l.isEmptyCell p = false)
    (fun (offset : Fin width × Fin height) p =>
      cellPosition c offset = p ∧ g offset.2 offset.1 ≠ Technology.empty)
    (fun l offset p => isEmptyCell_assignCell offset p)]
  simp only [mem_gatePositions, true_and, Prod.exists]

end Gates

section Nodes

/-- The gate that is assigned for the node `n` starts at `c`. -/
def HasGate (kind : LayoutKind) (lib : GateLibrary τ ε) (lyt : GateLevelLayout) (n : ℕ)
    (c : Ucoord) (g : Fin lib.gateYSize → Fin lib.gateXSize → τ) : Prop :=
  GateLevelLayout.isConstant n = false ∧
    origin kind lib lyt.clocked.arrangement (lyt.getTile n) = .ok c ∧
    lib.setUpGate lyt (lyt.getTile n) = .ok g

/-- The node `n` has an effect on the cell `p`. -/
def Writes (kind : LayoutKind) (lib : GateLibrary τ ε) (lyt : GateLevelLayout) (n : ℕ)
    (p : Ucoord) : Prop :=
  ∃ cellLyt cellLyt' : CellLyt τ, assignNode kind lib lyt cellLyt n = .ok cellLyt' ∧
    cellLyt'.isEmptyCell p ≠ cellLyt.isEmptyCell p

theorem assignNode_eq_ok_iff : assignNode kind lib lyt cellLyt n = .ok cellLyt' ↔
    GateLevelLayout.isConstant n = true ∧ cellLyt' = cellLyt ∨
      ∃ c g, HasGate kind lib lyt n c g ∧ cellLyt' = assignGate c g (lyt.getName n) cellLyt := by
  unfold assignNode HasGate
  cases hn : GateLevelLayout.isConstant n with
  | true => simp [eq_comm]
  | false =>
    cases ho : origin kind lib lyt.clocked.arrangement (lyt.getTile n) with
    | error e => simp [ho, bind, Except.bind]
    | ok c =>
      cases hg : lib.setUpGate lyt (lyt.getTile n) with
      | error e => simp [ho, hg, bind, Except.bind, Except.mapError]
      | ok g => simp [ho, hg, bind, Except.bind, Except.mapError, pure, Except.pure, eq_comm]

theorem writes_iff (p : Ucoord) : Writes kind lib lyt n p ↔
    ∃ c g x y, HasGate kind lib lyt n c g ∧ cellPosition c (x, y) = p ∧
      g y x ≠ Technology.empty := by
  constructor
  · rintro ⟨cellLyt, cellLyt', hstep, hne⟩
    rcases assignNode_eq_ok_iff.mp hstep with ⟨-, rfl⟩ | ⟨c, g, hg, rfl⟩
    · exact absurd rfl hne
    · have hiff := isEmptyCell_assignGate c g (lyt.getName n) cellLyt p
      by_cases hw : ∃ x y, cellPosition c (x, y) = p ∧ g y x ≠ Technology.empty
      · obtain ⟨x, y, hxy⟩ := hw
        exact ⟨c, g, x, y, hg, hxy⟩
      · rw [or_iff_left hw] at hiff
        exact absurd (Bool.eq_iff_iff.mpr (by simpa using not_congr hiff)) hne
  · rintro ⟨c, g, x, y, hg, hp, hfilled⟩
    have hafter := (isEmptyCell_assignGate c g (lyt.getName n) (initialLayout lib lyt) p).mpr
      (Or.inr ⟨x, y, hp, hfilled⟩)
    refine ⟨initialLayout lib lyt, _, assignNode_eq_ok_iff.mpr (Or.inr ⟨c, g, hg, rfl⟩), ?_⟩
    rw [hafter]
    simp [CellStorage.isEmptyCell, CellStorage.getCellType, CellStorage.new, initialLayout]

theorem isEmptyCell_assignNode (h : assignNode kind lib lyt cellLyt n = .ok cellLyt') (p : Ucoord) :
    cellLyt'.isEmptyCell p = false ↔
      cellLyt.isEmptyCell p = false ∨ Writes kind lib lyt n p := by
  rw [writes_iff]
  rcases assignNode_eq_ok_iff.mp h with ⟨hn, rfl⟩ | ⟨c, g, hg, rfl⟩
  · have hno : ∀ c g, ¬ HasGate kind lib lyt n c g := fun c g hg =>
      absurd hn (by simp [hg.1])
    simp [hno]
  · rw [isEmptyCell_assignGate]
    have huniq : ∀ c' g', HasGate kind lib lyt n c' g' → c' = c ∧ g' = g := by
      rintro c' g' ⟨-, hc, hg'⟩
      exact ⟨Except.ok.inj (hc.symm.trans hg.2.1), Except.ok.inj (hg'.symm.trans hg.2.2)⟩
    apply or_congr_right
    constructor
    · rintro ⟨x, y, hxy⟩
      exact ⟨c, g, x, y, hg, hxy⟩
    · rintro ⟨c', g', x, y, hg', hxy⟩
      obtain ⟨rfl, rfl⟩ := huniq c' g' hg'
      exact ⟨x, y, hxy⟩

theorem assignNode_sameZones (h : assignNode kind lib lyt cellLyt n = .ok cellLyt') :
    cellLyt.SameZones cellLyt' := by
  rcases assignNode_eq_ok_iff.mp h with ⟨-, rfl⟩ | ⟨c, g, -, rfl⟩
  · exact ⟨rfl, rfl, rfl⟩
  · exact assignGate_sameZones

theorem foldlM_assignNode (h : ns.foldlM (assignNode kind lib lyt) cellLyt = .ok cellLyt') :
    cellLyt.SameZones cellLyt' ∧
      (∀ n ∈ ns, GateLevelLayout.isConstant n = false → ∃ c g, HasGate kind lib lyt n c g) ∧
      ∀ p, cellLyt'.isEmptyCell p = false ↔
        cellLyt.isEmptyCell p = false ∨ ∃ n ∈ ns, Writes kind lib lyt n p := by
  induction ns generalizing cellLyt with
  | nil =>
    cases h
    exact ⟨⟨rfl, rfl, rfl⟩, by simp, by simp⟩
  | cons n ns ih =>
    rw [List.foldlM_cons] at h
    cases hstep : assignNode kind lib lyt cellLyt n with
    | error e =>
      rw [hstep] at h
      contradiction
    | ok next =>
      rw [hstep] at h
      obtain ⟨hzones, hgates, hfilled⟩ := ih h
      refine ⟨(assignNode_sameZones hstep).trans hzones, ?_, ?_⟩
      · intro m hm hc
        rcases List.mem_cons.mp hm with rfl | hm
        · rcases assignNode_eq_ok_iff.mp hstep with ⟨hc', -⟩ | ⟨c, g, hg, -⟩
          · exact absurd hc' (by simp [hc])
          · exact ⟨c, g, hg⟩
        · exact hgates m hm hc
      · intro p
        rw [hfilled, isEmptyCell_assignNode hstep, or_assoc]
        simp only [List.mem_cons, exists_eq_or_imp]

theorem exists_assignNode_eq_error {e : Failure ε}
    (h : ns.foldlM (assignNode kind lib lyt) cellLyt = .error e) :
    ∃ n ∈ ns, ∃ l, assignNode kind lib lyt l n = .error e := by
  induction ns generalizing cellLyt with
  | nil => contradiction
  | cons n ns ih =>
    rw [List.foldlM_cons] at h
    cases hstep : assignNode kind lib lyt cellLyt n with
    | error e' =>
      rw [hstep] at h
      cases h
      exact ⟨n, List.mem_cons_self, cellLyt, hstep⟩
    | ok next =>
      rw [hstep] at h
      obtain ⟨m, hm, l, hl⟩ := ih h
      exact ⟨m, List.mem_cons_of_mem n hm, l, hl⟩

theorem assignNode_eq_error {e : Failure ε} (h : assignNode kind lib lyt cellLyt n = .error e) :
    GateLevelLayout.isConstant n = false ∧
      (origin kind lib lyt.clocked.arrangement (lyt.getTile n) = .error e ∨
        ∃ e', lib.setUpGate lyt (lyt.getTile n) = .error e' ∧ e = .exception e') := by
  unfold assignNode at h
  cases hn : GateLevelLayout.isConstant n with
  | true =>
    rw [hn] at h
    contradiction
  | false =>
    refine ⟨rfl, ?_⟩
    cases ho : origin kind lib lyt.clocked.arrangement (lyt.getTile n) with
    | error e' =>
      simp only [hn, ho, bind, Except.bind] at h
      cases h
      exact Or.inl rfl
    | ok c =>
      cases hg : lib.setUpGate lyt (lyt.getTile n) with
      | error e' =>
        simp only [hn, ho, hg, bind, Except.bind, Except.mapError] at h
        cases h
        exact Or.inr ⟨e', rfl, rfl⟩
      | ok g =>
        simp only [hn, ho, hg, bind, Except.bind, Except.mapError] at h
        contradiction

end Nodes

end Effects

end Fiction.GateAssignment
