import Fiction.Formats.FqcaLayout
import Fiction.Layouts.Coordinates

/-!
# Reading fqca files into offset coordinates

The reader constructs the coordinate of a cell from its column, its row and the number of layer
separators before it, minus one. A `ucoord_t` keeps one bit of the layer and 31 bits of each other
field. The highest position is default-constructed, and only its three fields are assigned.
-/

namespace Fiction.Fqca

/-- `{current_cell_column, current_cell_row, next_cell_layer - 1}` in offset coordinates. -/
def FilePosition.coordinate (p : FilePosition) : Ucoord :=
  ⟨false, (p.separators + 2 ^ 64 - 1) % 2, p.row % 2 ^ 31, p.column % 2 ^ 31⟩

namespace Offset

def cellOf (c : Ucoord) : Cell := ⟨c.x, c.y, c.z⟩

section Reader

/-- A layout over `ucoord_t` and its aspect ratio. -/
structure OffsetLayout where
  lyt : CellLevelLayout
  dimension : Ucoord

def offsetCell (p : FilePosition) : Cell := cellOf p.coordinate

/-- `max_cell_pos`: a default-constructed coordinate with assigned fields. -/
def maxCellPos (s : ReadState) : Ucoord :=
  { (default : Ucoord) with
    z := s.maxCellPos.z.toNat, y := s.maxCellPos.y, x := s.maxCellPos.x }

def readFqcaLayout (is name : List Char) : Except ReadError OffsetLayout := do
  let s ← readFile offsetCell is name
  .ok ⟨s.lyt, maxCellPos s⟩

end Reader

section Files

def rowCells (row separators column : ℕ) : List Char → List FilePosition
  | [] => []
  | [c] => if isSpace c then [] else [⟨column, row, separators⟩]
  | c :: _ :: line =>
    (if isSpace c then [] else [⟨column, row, separators⟩]) ++
      rowCells row separators (column + 1) line

def lineCells (row separators : ℕ) : List (List Char) → List FilePosition
  | [] => []
  | line :: lines =>
    let substituted := substituteWhiteSpace line
    if line = [] ∨ matchesComment substituted then lineCells row separators lines
    else if matchesLayerSeparator substituted then lineCells 0 (separators + 1) lines
    else if substituted = ['$'] then []
    else rowCells row separators 0 line ++ lineCells (row + 1) separators lines

def fileCells (is : List Char) : List FilePosition := lineCells 0 0 (Lines.splitLines '\n' is)

/-- All cells of the file are in the layout, at distinct coordinates and in their layers, which are
counted from the first separator. -/
structure PlacesCells (is : List Char) (result : OffsetLayout) : Prop where
  distinct : ∀ p ∈ fileCells is, ∀ q ∈ fileCells is, p ≠ q → p.coordinate ≠ q.coordinate
  layer : ∀ p ∈ fileCells is, (p.coordinate.z : ℤ) = p.separators - 1
  kept : ∀ p ∈ fileCells is, result.lyt.isEmptyCell (cellOf p.coordinate) = false

/-- The aspect ratio is live, too, and covers all cells. -/
structure LayersHandled (is : List Char) (result : OffsetLayout) : Prop
    extends PlacesCells is result where
  live : result.dimension.isDead = false
  covers : ∀ p ∈ fileCells is, p.coordinate.x ≤ result.dimension.x ∧
    p.coordinate.y ≤ result.dimension.y ∧ p.coordinate.z ≤ result.dimension.z

end Files

section Kept

variable {s s' : ReadState}

/-- No cell gets lost. -/
def Keeps (s s' : ReadState) : Prop :=
  ∀ c, s.lyt.isEmptyCell c = false → s'.lyt.isEmptyCell c = false

theorem Keeps.trans {s'' : ReadState} (h : Keeps s s') (h' : Keeps s' s'') : Keeps s s'' :=
  fun c hc => h' c (h c hc)

theorem Keeps.of_update {cell : Cell} {ct : QcaCellType} (hct : ct ≠ .empty)
    (h : s'.lyt.getCellType = Function.update s.lyt.getCellType cell ct) :
    Keeps s s' ∧ s'.lyt.isEmptyCell cell = false := by
  have hcell : s'.lyt.isEmptyCell cell = false := by simp [CellLevelLayout.isEmptyCell_eq, h, hct]
  refine ⟨fun c hc => ?_, hcell⟩
  by_cases he : c = cell
  · rw [he]
    exact hcell
  · rw [CellLevelLayout.isEmptyCell_eq, h, Function.update_of_ne he]
    exact hc

structure SamePlace (s s' : ReadState) : Prop where
  row : s'.currentCellRow = s.currentCellRow
  layer : s'.nextCellLayer = s.nextCellLayer
  status : s'.parsingStatus = s.parsingStatus

theorem SamePlace.trans {s'' : ReadState} (h : SamePlace s s') (h' : SamePlace s' s'') :
    SamePlace s s'' :=
  ⟨h'.row.trans h.row, h'.layer.trans h.layer, h'.status.trans h.status⟩

theorem parseSymbol_spec {c : Char} {cell : Cell} (h : parseSymbol s c cell = .ok s') :
    (∃ ct ≠ .empty, s'.lyt.getCellType = Function.update s.lyt.getCellType cell ct) ∧
      SamePlace s s' := by
  unfold parseSymbol at h
  split_ifs at h
  all_goals
    cases h
    exact ⟨⟨_, by decide, rfl⟩, rfl, rfl, rfl⟩

theorem parseCell_spec {c : Char} {cell : Cell} (h : parseCell s c cell = .ok s') :
    Keeps s s' ∧ (isSpace c = false → s'.lyt.isEmptyCell cell = false) ∧ SamePlace s s' := by
  unfold parseCell at h
  by_cases hc : isSpace c = true
  · rw [if_pos hc] at h
    cases h
    exact ⟨fun _ => id, fun hn => by simp [hc] at hn, rfl, rfl, rfl⟩
  · rw [if_neg hc] at h
    cases hs : parseSymbol s c cell with
    | error e =>
      rw [hs] at h
      contradiction
    | ok t =>
      rw [hs] at h
      cases h
      obtain ⟨⟨ct, hct, ht⟩, hplace⟩ := parseSymbol_spec hs
      have hmode : (parseMode t cell).lyt.getCellType = t.lyt.getCellType ∧
          SamePlace t (parseMode t cell) := by
        unfold parseMode
        split_ifs <;> exact ⟨rfl, rfl, rfl, rfl⟩
      have hupdate : (storePosition (parseMode t cell) cell).lyt.getCellType =
          Function.update s.lyt.getCellType cell ct := hmode.1.trans ht
      obtain ⟨hk, hcell⟩ := Keeps.of_update hct hupdate
      exact ⟨hk, fun _ => hcell, hplace.trans ⟨hmode.2.row, hmode.2.layer, hmode.2.status⟩⟩

theorem parseRow_spec {column : ℕ} {line : List Char}
    (h : parseRow offsetCell s column line = .ok s') :
    Keeps s s' ∧ (∀ p ∈ rowCells s.currentCellRow s.nextCellLayer column line,
      s'.lyt.isEmptyCell (cellOf p.coordinate) = false) ∧ SamePlace s s' := by
  fun_induction parseRow offsetCell s column line with
  | case1 s column =>
    cases h
    exact ⟨fun _ => id, by simp [rowCells], rfl, rfl, rfl⟩
  | case2 s column c =>
    obtain ⟨hk, hcell, hp⟩ := parseCell_spec h
    refine ⟨hk, ?_, hp⟩
    intro p hmem
    rw [rowCells] at hmem
    split_ifs at hmem with hc
    · cases hmem
    · rw [List.mem_singleton.mp hmem]
      exact hcell (by simpa using hc)
  | case3 s column c d line ih =>
    cases hs : parseCell s c (offsetCell ⟨column, s.currentCellRow, s.nextCellLayer⟩) with
    | error e =>
      rw [hs] at h
      contradiction
    | ok t =>
      rw [hs] at h
      obtain ⟨hk, hcell, hp⟩ := parseCell_spec hs
      obtain ⟨hk', hcells, hp'⟩ := ih t h
      refine ⟨hk.trans hk', ?_, hp.trans hp'⟩
      intro p hmem
      rw [rowCells] at hmem
      rcases List.mem_append.mp hmem with hmem | hmem
      · split_ifs at hmem with hc
        · cases hmem
        · rw [List.mem_singleton.mp hmem]
          exact hk' _ (hcell (by simpa using hc))
      · rw [← hp.row, ← hp.layer] at hmem
        exact hcells p hmem

theorem readCellLine_spec {lineNumber : ℕ} {line : List Char}
    (h : readCellLine lineNumber s line = .ok s') :
    Keeps s s' ∧ s'.parsingStatus = s.parsingStatus := by
  unfold readCellLine at h
  simp only at h
  repeat' split at h
  all_goals
    first
      | contradiction
      | cases h
  all_goals
    first
      | exact ⟨fun _ => id, rfl⟩
      | exact ⟨(Keeps.of_update (by decide) rfl).1, rfl⟩

theorem readLines_spec {lineNumber : ℕ} {lines : List (List Char)}
    (h : readLines offsetCell lineNumber s lines = .ok s') :
    Keeps s s' ∧ (s.parsingStatus = .layoutDefinition →
      ∀ p ∈ lineCells s.currentCellRow s.nextCellLayer lines,
        s'.lyt.isEmptyCell (cellOf p.coordinate) = false) := by
  induction lines generalizing s lineNumber with
  | nil =>
    cases h
    exact ⟨fun _ => id, fun _ p hp => by cases hp⟩
  | cons line lines ih =>
    rw [readLines] at h
    cases ht : readLine offsetCell lineNumber s line with
    | error e =>
      rw [ht] at h
      contradiction
    | ok t =>
      rw [ht] at h
      obtain ⟨hk, hcells⟩ := ih h
      unfold readLine at ht
      by_cases hl : line = []
      · rw [if_pos hl] at ht
        cases ht
        refine ⟨hk, fun hs p hp => hcells hs p ?_⟩
        simpa only [lineCells, hl, true_or, if_true] using hp
      rw [if_neg hl] at ht
      cases hs : s.parsingStatus with
      | cellDefinition =>
        rw [hs] at ht
        exact ⟨(readCellLine_spec ht).1.trans hk, fun hcon => by cases hcon⟩
      | layoutDefinition =>
        rw [hs] at ht
        simp only at ht
        unfold readLayoutLine at ht
        simp only at ht
        by_cases hc : matchesComment (substituteWhiteSpace line) = true
        · rw [if_pos hc] at ht
          cases ht
          refine ⟨hk, fun _ p hp => hcells hs p ?_⟩
          simpa only [lineCells, hc, or_true, if_true] using hp
        have hskip : ¬ (line = [] ∨ matchesComment (substituteWhiteSpace line) = true) :=
          not_or_intro hl hc
        rw [if_neg hc] at ht
        by_cases hsep : matchesLayerSeparator (substituteWhiteSpace line) = true
        · rw [if_pos hsep] at ht
          cases ht
          refine ⟨fun c hc => hk c hc, fun _ p hp => hcells hs p ?_⟩
          simpa only [lineCells, if_neg hskip, if_pos hsep] using hp
        rw [if_neg hsep] at ht
        by_cases hend : substituteWhiteSpace line = ['$']
        · rw [if_pos hend] at ht
          cases ht
          refine ⟨fun c hc => hk c hc, fun _ p hp => ?_⟩
          simp only [lineCells, if_neg hskip, if_neg hsep, if_pos hend] at hp
          cases hp
        rw [if_neg hend] at ht
        cases hrow : parseRow offsetCell s 0 line with
        | error e =>
          rw [hrow] at ht
          contradiction
        | ok r =>
          rw [hrow] at ht
          cases ht
          obtain ⟨hkr, hrcells, hplace⟩ := parseRow_spec hrow
          refine ⟨hkr.trans hk, fun _ p hp => ?_⟩
          simp only [lineCells, if_neg hskip, if_neg hsep, if_neg hend, List.mem_append] at hp
          rcases hp with hp | hp
          · exact hk _ (hrcells p hp)
          · refine hcells (hplace.status.trans hs) p ?_
            simpa only [hplace.row, hplace.layer] using hp

end Kept

section Results

variable {is name : List Char} {result : OffsetLayout}

theorem placesCells_iff (h : readFqcaLayout is name = .ok result) :
    PlacesCells is result ↔
      (∀ p ∈ fileCells is, p.separators = 1 ∨ p.separators = 2) ∧
        ∀ p ∈ fileCells is, ∀ q ∈ fileCells is, p ≠ q → p.separators = q.separators →
          p.column % 2 ^ 31 = q.column % 2 ^ 31 → p.row % 2 ^ 31 ≠ q.row % 2 ^ 31 := by
  have hkept : ∀ p ∈ fileCells is, result.lyt.isEmptyCell (cellOf p.coordinate) = false := by
    unfold readFqcaLayout at h
    cases hs : readFile offsetCell is name with
    | error e =>
      rw [hs] at h
      contradiction
    | ok s =>
      rw [hs] at h
      cases h
      exact (readLines_spec hs).2 rfl
  constructor
  · rintro ⟨hd, hl, -⟩
    have hsep : ∀ p ∈ fileCells is, p.separators = 1 ∨ p.separators = 2 := by
      intro p hp
      have hz := hl p hp
      simp only [FilePosition.coordinate] at hz
      omega
    refine ⟨hsep, fun p hp q hq hne hs hx hy => hd p hp q hq hne ?_⟩
    simp only [FilePosition.coordinate, hs, hx, hy]
  · rintro ⟨hsep, hd⟩
    refine ⟨fun p hp q hq hne heq => ?_, fun p hp => ?_, hkept⟩
    · simp only [FilePosition.coordinate, Ucoord.mk.injEq, true_and] at heq
      have hp' := hsep p hp
      have hq' := hsep q hq
      exact hd p hp q hq hne (by omega) heq.2.2 heq.2.1
    · have hp' := hsep p hp
      simp only [FilePosition.coordinate]
      omega

/-- No file leads to a live aspect ratio. Its cells are placed as they should be exactly if they lie
in the first two layers and no two cells of one layer agree in the bits that are kept of their
columns and rows. -/
theorem layers_not_handled (h : readFqcaLayout is name = .ok result) :
    ¬ LayersHandled is result ∧ (PlacesCells is result ↔
      (∀ p ∈ fileCells is, p.separators = 1 ∨ p.separators = 2) ∧
        ∀ p ∈ fileCells is, ∀ q ∈ fileCells is, p ≠ q → p.separators = q.separators →
          p.column % 2 ^ 31 = q.column % 2 ^ 31 → p.row % 2 ^ 31 ≠ q.row % 2 ^ 31) := by
  refine ⟨fun hh => ?_, placesCells_iff h⟩
  unfold readFqcaLayout at h
  cases hs : readFile offsetCell is name with
  | error e =>
    rw [hs] at h
    contradiction
  | ok s =>
    rw [hs] at h
    cases h
    exact Bool.noConfusion hh.live

def groundCell : List Char := ['=', '\n', '0', '\n', '=', '\n', '$', '\n']

theorem groundCell_not_handled :
    ∃ result, readFqcaLayout groundCell [] = .ok result ∧ ¬ LayersHandled groundCell result :=
  ⟨_, rfl, (@layers_not_handled groundCell [] _ rfl).1⟩

def threeLayers : List Char :=
  ['=', '\n', '0', '\n', '=', '\n', '1', '\n', '=', '\n', '2', '\n', '$', '\n']

theorem threeLayers_not_handled :
    ∃ result, readFqcaLayout threeLayers [] = .ok result ∧ ¬ LayersHandled threeLayers result := by
  refine ⟨_, rfl, fun h => ?_⟩
  exact h.distinct ⟨0, 0, 1⟩ (by decide) ⟨0, 0, 3⟩ (by decide) (by decide) (by decide)

end Results

end Offset

end Fiction.Fqca
