import Fiction.Layouts.CellStorage

/-!
# Cell-level QCA layouts

Besides the storage of its cells, a layout has dimensions and clock numbers. A new layout has the
open clocking scheme with four phases and clock zones of one cell, so that a clock number is
assigned to a single cell and is `0` elsewhere.
-/

namespace Fiction

structure Cell where
  x : ℕ
  y : ℕ
  z : ℤ
  deriving DecidableEq, Repr

structure CellLevelLayout extends CellStorage Cell QcaCellType QcaCellMode where
  layoutName : List Char
  /-- the position with the largest coordinates -/
  aspectRatio : Cell
  clockNumber : Cell → ℕ
  numClocks : ℕ

namespace CellLevelLayout

/-- `lyt{{}, name}` -/
def new (name : List Char) : CellLevelLayout where
  toCellStorage := .new
  layoutName := name
  aspectRatio := ⟨0, 0, 0⟩
  clockNumber _ := 0
  numClocks := 4

variable (lyt : CellLevelLayout) (c : Cell)

def assignCellType (ct : QcaCellType) : CellLevelLayout :=
  { lyt with toCellStorage := lyt.toCellStorage.assignCellType c ct }

def assignCellMode (m : QcaCellMode) : CellLevelLayout :=
  { lyt with toCellStorage := lyt.toCellStorage.assignCellMode c m }

def assignCellName (n : List Char) : CellLevelLayout :=
  { lyt with toCellStorage := lyt.toCellStorage.assignCellName c n }

def assignClockNumber (cn : ℕ) : CellLevelLayout :=
  { lyt with clockNumber := Function.update lyt.clockNumber c cn }

def resize (ar : Cell) : CellLevelLayout := { lyt with aspectRatio := ar }

def isCrossingLayer : Bool := c.z > 0

def foreachCellPosition : List Cell :=
  (List.range (lyt.aspectRatio.z.toNat + 1)).flatMap fun (z : ℕ) =>
    (List.range (lyt.aspectRatio.y + 1)).flatMap fun y =>
      (List.range (lyt.aspectRatio.x + 1)).map fun x => ⟨x, y, z⟩

/-- The neighbours of a position within the layout. -/
def adjacentCoordinates : List Cell :=
  [if c.y = 0 then c else { c with y := c.y - 1 },
    if c.x < lyt.aspectRatio.x then { c with x := c.x + 1 } else c,
    if c.y < lyt.aspectRatio.y then { c with y := c.y + 1 } else c,
    if c.x = 0 then c else { c with x := c.x - 1 }].filter (· ≠ c)

section Assignments

variable {lyt c}

theorem isEmptyCell_eq : lyt.isEmptyCell c = decide (lyt.getCellType c = .empty) := rfl

@[simp] theorem getCellType_assignCellType (ct : QcaCellType) :
    (lyt.assignCellType c ct).getCellType = Function.update lyt.getCellType c ct := by
  cases ct <;> rfl

@[simp] theorem getCellType_assignCellMode (m : QcaCellMode) :
    (lyt.assignCellMode c m).getCellType = lyt.getCellType := rfl

@[simp] theorem getCellType_assignCellName (n : List Char) :
    (lyt.assignCellName c n).getCellType = lyt.getCellType := rfl

@[simp] theorem getCellType_assignClockNumber (cn : ℕ) :
    (lyt.assignClockNumber c cn).getCellType = lyt.getCellType := rfl

@[simp] theorem getCellMode_assignCellType {ct : QcaCellType} (h : ct ≠ .empty) :
    (lyt.assignCellType c ct).getCellMode = lyt.getCellMode := by
  cases ct <;> first | rfl | contradiction

@[simp] theorem getCellMode_assignCellMode (m : QcaCellMode) :
    (lyt.assignCellMode c m).getCellMode = Function.update lyt.getCellMode c m := rfl

@[simp] theorem getCellMode_assignCellName (n : List Char) :
    (lyt.assignCellName c n).getCellMode = lyt.getCellMode := rfl

@[simp] theorem getCellName_assignCellType (ct : QcaCellType) :
    (lyt.assignCellType c ct).getCellName = lyt.getCellName := by
  cases ct <;> rfl

@[simp] theorem getCellName_assignCellName (n : List Char) :
    (lyt.assignCellName c n).getCellName = Function.update lyt.getCellName c n := rfl

@[simp] theorem getCellName_assignClockNumber (cn : ℕ) :
    (lyt.assignClockNumber c cn).getCellName = lyt.getCellName := rfl

@[simp] theorem isPi_assignCellType {ct : QcaCellType} (h : ct ≠ .empty) :
    (lyt.assignCellType c ct).isPi =
      Function.update lyt.isPi c (decide (ct = .input) || lyt.isPi c) := by
  funext d
  rw [Bool.eq_iff_iff]
  refine (decide_eq_true_iff.trans (CellStorage.mem_inputs_assignCellType _ c ct)).trans ?_
  by_cases hd : d = c
  · subst hd
    simp [h, CellStorage.isPi, Technology.input, Technology.empty]
  · simp [hd, Ne.symm hd, CellStorage.isPi]

@[simp] theorem isPo_assignCellType {ct : QcaCellType} (h : ct ≠ .empty) :
    (lyt.assignCellType c ct).isPo =
      Function.update lyt.isPo c (decide (ct = .output) || lyt.isPo c) := by
  funext d
  rw [Bool.eq_iff_iff]
  refine (decide_eq_true_iff.trans (CellStorage.mem_outputs_assignCellType _ c ct)).trans ?_
  by_cases hd : d = c
  · subst hd
    simp [h, CellStorage.isPo, Technology.output, Technology.empty]
  · simp [hd, Ne.symm hd, CellStorage.isPo]

@[simp] theorem isPi_assignCellName (n : List Char) :
    (lyt.assignCellName c n).isPi = lyt.isPi := rfl

@[simp] theorem isPo_assignCellName (n : List Char) :
    (lyt.assignCellName c n).isPo = lyt.isPo := rfl

@[simp] theorem isPi_assignClockNumber (cn : ℕ) :
    (lyt.assignClockNumber c cn).isPi = lyt.isPi := rfl

@[simp] theorem isPo_assignClockNumber (cn : ℕ) :
    (lyt.assignClockNumber c cn).isPo = lyt.isPo := rfl

end Assignments

end CellLevelLayout
end Fiction
