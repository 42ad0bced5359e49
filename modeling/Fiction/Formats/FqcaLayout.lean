import Fiction.Layouts.CellLevelLayout
import Fiction.Library.Lines
import Mathlib.Data.Nat.Notation

/-!
# Writing and reading fqca files

A file consists of a header, of the rows of each layer between layer separators, and, after a `$`,
of a block for each labelled cell. A cell takes two characters in its row: the clock number of a
normal cell, the sign of a constant one or the designator of a labelled one, and a separator. The
reader removes all white space from a line before it matches the line as a whole, but takes the
cells of a row from the line as it stands.
-/

namespace Fiction.Fqca

/-- The version information is generated when the program is built. It is part of a single line. -/
structure VersionInfo where
  version : List Char
  repo : List Char
  notMem_version : '\n' ∉ version
  notMem_repo : '\n' ∉ repo

section Writer

structure WriteFqcaLayoutParams where
  createInterLayerViaCells : Bool := false

/-- `labeledCells` and what is left of the alphabet belong to the whole run, the buffer for via
cells to one layer. -/
structure WriteState where
  os : List Char
  alphabet : List Char
  labeledCells : List (Cell × Char)
  viaLayerBuffer : List Char

def alphabet : List Char := "abcdefghijklmnopqrstuvwxyzABCDEFGHIJKLMNOPQRSTUVWXYZ".toList

def WriteState.put (s : WriteState) (text : List Char) : WriteState := { s with os := s.os ++ text }

def WriteState.putVia (s : WriteState) (text : List Char) : WriteState :=
  { s with viaLayerBuffer := s.viaLayerBuffer ++ text }

variable (lyt : CellLevelLayout) (ps : WriteFqcaLayoutParams)

/-- `std::to_string` -/
def number (n : ℕ) : List Char := (Nat.repr n).toList

def header (info : VersionInfo) : List Char :=
  let name := if lyt.layoutName = [] then [] else lyt.layoutName ++ " - ".toList
  "[ ".toList ++ name ++ "generated by ".toList ++ info.version ++ " (".toList ++ info.repo ++
    ") ]\n\n".toList

def layerSeparator : List Char :=
  (List.range (lyt.aspectRatio.x + 1)).flatMap fun _ => "= ".toList

def isLabelled (c : Cell) : Bool := lyt.getCellName c ≠ [] ∨ lyt.isPi c ∨ lyt.isPo c

/-- `none` is the `out_of_cell_names_exception`. -/
def writeCell (s : WriteState) (c : Cell) : Option WriteState :=
  if lyt.isEmptyCell c then some (s.put "  ".toList)
  else if isLabelled lyt c then
    match s.alphabet with
    | [] => none
    | d :: alphabet =>
      some ({ s with alphabet, labeledCells := s.labeledCells ++ [(c, d)] }.put [d, ' '])
  else if lyt.getCellType c = .const0 then some (s.put "- ".toList)
  else if lyt.getCellType c = .const1 then some (s.put "+ ".toList)
  else some (s.put (number (lyt.clockNumber c) ++ [' ']))

def writeViaCell (s : WriteState) (c : Cell) : WriteState :=
  if lyt.getCellMode c = .vertical then s.putVia (number (lyt.clockNumber c) ++ [' '])
  else s.putVia "  ".toList

def createsVias (z : ℕ) : Bool := ps.createInterLayerViaCells ∧ (z : ℤ) ≠ lyt.aspectRatio.z

def writeRow (z : ℕ) (s : WriteState) (y : ℕ) : Option WriteState := do
  let s ← (List.range (lyt.aspectRatio.x + 1)).foldlM (fun s x => do
    let s ← writeCell lyt s ⟨x, y, z⟩
    some (if createsVias lyt ps z then writeViaCell lyt s ⟨x, y, z⟩ else s)) s
  let s := s.put ['\n']
  some (if createsVias lyt ps z then s.putVia ['\n'] else s)

def writeLayer (s : WriteState) (z : ℕ) : Option WriteState := do
  let s := { s with viaLayerBuffer := [] }.put (layerSeparator lyt ++ ['\n'])
  let s ← (List.range (lyt.aspectRatio.y + 1)).foldlM (writeRow lyt ps z) s
  some (if createsVias lyt ps z then
    (s.put (layerSeparator lyt ++ ['\n'])).put s.viaLayerBuffer else s)

def writeLayoutDefinition (s : WriteState) : Option WriteState := do
  let s ← (List.range (lyt.aspectRatio.z.toNat + 1)).foldlM (writeLayer lyt ps) s
  some (s.put (layerSeparator lyt ++ ['\n']))

def labeledCellText (lc : Cell × Char) : List Char :=
  [lc.2] ++ ":\n".toList ++
    (if lyt.isPi lc.1 then "- input\n".toList else []) ++
    (if lyt.isPo lc.1 then "- output\n".toList else []) ++
    (if lyt.getCellName lc.1 ≠ [] then
      "- label = \"".toList ++ lyt.getCellName lc.1 ++ "\"\n".toList else []) ++
    "- clock = ".toList ++ number (lyt.clockNumber lc.1) ++ "\n\n".toList

def writeFqcaLayout (info : VersionInfo) : Option (List Char) := do
  let s : WriteState := ⟨header lyt info, alphabet, [], []⟩
  let s ← writeLayoutDefinition lyt ps s
  let s := s.put "\n\n$\n\n".toList
  let s := s.labeledCells.foldl (fun s lc => s.put (labeledCellText lyt lc)) s
  some s.os

end Writer

section Reader

inductive FqcaSection where
  | layoutDefinition | cellDefinition
  deriving DecidableEq

inductive ReadError where
  | unsupportedCharacter (c : Char)
  | undefinedCellLabel (l : Char)
  | unrecognizedCellDefinition (line : ℕ)
  deriving DecidableEq

structure ReadState where
  lyt : CellLevelLayout
  parsingStatus : FqcaSection
  nextCellLayer : ℕ
  currentCellRow : ℕ
  maxCellPos : Cell
  currentLabeledCell : Cell
  cellLabelMap : Char → Option Cell

/-- `std::isspace` -/
def isSpace (c : Char) : Bool := c = ' ' ∨ 9 ≤ c.toNat ∧ c.toNat ≤ 13

def substituteWhiteSpace (line : List Char) : List Char := line.filter fun c => !isSpace c

def matchesComment (line : List Char) : Bool :=
  2 ≤ line.length ∧ line.head? = some '[' ∧ line.getLast? = some ']'

def matchesLayerSeparator (line : List Char) : Bool := line ≠ [] ∧ line.all fun c => c = '='

/-- The group of the expression that begins with `before` and ends with `after`. -/
def matchBetween (before after line : List Char) : Option (List Char) :=
  if before <+: line ∧ after <:+ line ∧ before.length + after.length ≤ line.length then
    some ((line.drop before.length).take (line.length - before.length - after.length))
  else none

def isWord (c : Char) : Bool := c.isAlphanum ∨ c = '_'

def matchCellDefinitionId (line : List Char) : Option Char :=
  match line with
  | [c, ':'] => if isWord c then some c else none
  | _ => none

def matchDigit (before line : List Char) : Option Char :=
  match matchBetween before [] line with
  | some [c] => if c.isDigit then some c else none
  | _ => none

def matchesDecimal (s : List Char) : Bool :=
  let s := if s.head? = some '-' then s.tail else s
  match s.dropWhile Char.isDigit with
  | [] => true
  | '.' :: fraction => fraction ≠ [] ∧ fraction.all Char.isDigit
  | _ => false

def matchesOffset (line : List Char) : Bool :=
  match matchBetween "-offset=(".toList ")".toList line with
  | some s => (s.splitOn ',').length = 3 ∧ (s.splitOn ',').all matchesDecimal
  | none => false

def toClockNumber (lyt : CellLevelLayout) (c : Char) : ℕ := c.toNat % lyt.numClocks

def ReadState.update (s : ReadState) (f : CellLevelLayout → CellLevelLayout) : ReadState :=
  { s with lyt := f s.lyt }

def parseSymbol (s : ReadState) (c : Char) (cell : Cell) : Except ReadError ReadState :=
  if c.isDigit then .ok (s.update fun lyt =>
    (lyt.assignCellType cell .normal).assignClockNumber cell (toClockNumber lyt c))
  else if c.isAlpha then
    .ok { s.update fun lyt => lyt.assignCellType cell .normal with
      cellLabelMap := Function.update s.cellLabelMap c (some cell) }
  else if c = '-' then .ok (s.update fun lyt => lyt.assignCellType cell .const0)
  else if c = '+' then .ok (s.update fun lyt => lyt.assignCellType cell .const1)
  else .error (.unsupportedCharacter c)

def parseMode (s : ReadState) (cell : Cell) : ReadState :=
  if cell.z ≠ 0 then
    s.update fun lyt => lyt.assignCellMode cell (if cell.z % 2 = 0 then .crossover else .vertical)
  else s

def storePosition (s : ReadState) (cell : Cell) : ReadState :=
  { s with maxCellPos := ⟨max s.maxCellPos.x cell.x, max s.maxCellPos.y cell.y,
      max s.maxCellPos.z cell.z⟩ }

def parseCell (s : ReadState) (c : Char) (cell : Cell) : Except ReadError ReadState := do
  if isSpace c then .ok s
  else
    let s ← parseSymbol s c cell
    .ok (storePosition (parseMode s cell) cell)

/-- The place of a cell in a file; `separators` counts the layer separators before it. -/
structure FilePosition where
  column : ℕ
  row : ℕ
  separators : ℕ
  deriving DecidableEq

/-- `{current_cell_column, current_cell_row, next_cell_layer - 1}` in cube coordinates. -/
def FilePosition.cell (p : FilePosition) : Cell := ⟨p.column, p.row, p.separators - 1⟩

section Lines

variable (place : FilePosition → Cell)

/-- Every other character of the line belongs to a cell, which `place` constructs. -/
def parseRow (s : ReadState) (column : ℕ) : List Char → Except ReadError ReadState
  | [] => .ok s
  | [c] => parseCell s c (place ⟨column, s.currentCellRow, s.nextCellLayer⟩)
  | c :: _ :: line => do
    let s ← parseCell s c (place ⟨column, s.currentCellRow, s.nextCellLayer⟩)
    parseRow s (column + 1) line

def readLayoutLine (s : ReadState) (line : List Char) : Except ReadError ReadState := do
  let substituted := substituteWhiteSpace line
  if matchesComment substituted then .ok s
  else if matchesLayerSeparator substituted then
    .ok { s with currentCellRow := 0, nextCellLayer := s.nextCellLayer + 1 }
  else if substituted = ['$'] then .ok { s with parsingStatus := .cellDefinition }
  else
    let s ← parseRow place s 0 line
    .ok { s with currentCellRow := s.currentCellRow + 1 }

/-- Offsets, numbers and the propagate flag are not supported. -/
def readCellLine (lineNumber : ℕ) (s : ReadState) (line : List Char) :
    Except ReadError ReadState :=
  let substituted := substituteWhiteSpace line
  if substituted = [] then .ok s
  else match matchCellDefinitionId substituted with
  | some cellId =>
    match s.cellLabelMap cellId with
    | some cell => .ok { s with currentLabeledCell := cell }
    | none => .error (.undefinedCellLabel cellId)
  | none =>
    if substituted = "-input".toList then
      .ok (s.update fun lyt => lyt.assignCellType s.currentLabeledCell .input)
    else if substituted = "-output".toList then
      .ok (s.update fun lyt => lyt.assignCellType s.currentLabeledCell .output)
    else match matchBetween "-label=\"".toList "\"".toList substituted with
    | some cellLabel => .ok (s.update fun lyt => lyt.assignCellName s.currentLabeledCell cellLabel)
    | none =>
      match matchDigit "-clock=".toList substituted with
      | some clockNumberChar => .ok (s.update fun lyt =>
          lyt.assignClockNumber s.currentLabeledCell (toClockNumber lyt clockNumberChar))
      | none =>
        if substituted = "-propagate".toList then .ok s
        else if (matchDigit "-number=".toList substituted).isSome then .ok s
        else if matchesOffset substituted then .ok s
        else .error (.unrecognizedCellDefinition lineNumber)

def readLine (lineNumber : ℕ) (s : ReadState) (line : List Char) : Except ReadError ReadState :=
  if line = [] then .ok s
  else match s.parsingStatus with
    | .layoutDefinition => readLayoutLine place s line
    | .cellDefinition => readCellLine lineNumber s line

def readLines (lineNumber : ℕ) (s : ReadState) : List (List Char) → Except ReadError ReadState
  | [] => .ok s
  | line :: lines => do
    let s ← readLine place lineNumber s line
    readLines (lineNumber + 1) s lines

def readFile (is name : List Char) : Except ReadError ReadState :=
  readLines place 1 ⟨.new name, .layoutDefinition, 0, 0, ⟨0, 0, 0⟩, ⟨0, 0, 0⟩, fun _ => none⟩
    (Lines.splitLines '\n' is)

end Lines

def readFqcaLayout (is name : List Char) : Except ReadError CellLevelLayout := do
  let s ← readFile FilePosition.cell is name
  .ok (s.lyt.resize s.maxCellPos)

end Reader

end Fiction.Fqca
