import Fiction.Formats.FqcaLayout
import Mathlib.Data.List.Basic
import Mathlib.Data.List.Nodup
import Mathlib.Data.List.Range

/-!
# The lines of the file of a ground layer

The cells are written row by row, and the designators are handed out in this order. So each cell has
its symbol, and the file consists of lines that depend on the symbols only, up to the blocks of the
labelled cells.
-/

namespace Fiction.Fqca

section Symbols

variable (lyt : CellLevelLayout)

def groundRow (y : ℕ) : List Cell := (List.range (lyt.aspectRatio.x + 1)).map fun x => ⟨x, y, 0⟩

/-- The positions in the order in which they are written. -/
def groundCells : List Cell := (List.range (lyt.aspectRatio.y + 1)).flatMap (groundRow lyt)

/-- Cells that get a designator. -/
def needsLabel (c : Cell) : Bool := !lyt.isEmptyCell c && isLabelled lyt c

def labelledCells : List Cell := (groundCells lyt).filter (needsLabel lyt)

def designator (c : Cell) : Char := alphabet.getD ((labelledCells lyt).idxOf c) ' '

def digit (n : ℕ) : Char := Char.ofNat (48 + n)

def symbol (c : Cell) : Char :=
  if lyt.isEmptyCell c then ' '
  else if isLabelled lyt c then designator lyt c
  else if lyt.getCellType c = .const0 then '-'
  else if lyt.getCellType c = .const1 then '+'
  else digit (lyt.clockNumber c)

/-- The layouts of which a file can be written. -/
structure Writable : Prop where
  layer : lyt.aspectRatio.z = 0
  inside : ∀ c, lyt.isEmptyCell c = false →
    c.x ≤ lyt.aspectRatio.x ∧ c.y ≤ lyt.aspectRatio.y ∧ c.z = 0
  clock : ∀ c, lyt.isEmptyCell c = false → lyt.clockNumber c < 4
  cellName : ∀ c, lyt.isEmptyCell c = false → ∀ a ∈ lyt.getCellName c, isSpace a = false
  layoutName : '\n' ∉ lyt.layoutName
  fits : (labelledCells lyt).length ≤ 52

variable {lyt} {c : Cell} {done suf : List Cell}

theorem mem_groundCells : c ∈ groundCells lyt ↔
    c.x ≤ lyt.aspectRatio.x ∧ c.y ≤ lyt.aspectRatio.y ∧ c.z = 0 := by
  simp only [groundCells, groundRow, List.mem_flatMap, List.mem_map, List.mem_range,
    Nat.lt_succ_iff]
  constructor
  · rintro ⟨y, hy, x, hx, rfl⟩
    exact ⟨hx, hy, rfl⟩
  · rintro ⟨hx, hy, hz⟩
    obtain ⟨x, y, z⟩ := c
    exact ⟨y, hy, x, hx, by rw [show z = 0 from hz]⟩

theorem nodup_groundCells : (groundCells lyt).Nodup := by
  refine List.nodup_flatMap.mpr ⟨fun y _ => ?_, ?_⟩
  · refine List.nodup_range.map fun x x' h => ?_
    exact congrArg Cell.x h
  · refine List.nodup_range.imp fun {y y'} hne => ?_
    intro c hc hc'
    simp only [groundRow, List.mem_map] at hc hc'
    obtain ⟨x, -, rfl⟩ := hc
    obtain ⟨x', -, h⟩ := hc'
    exact hne (congrArg Cell.y h).symm

theorem mem_labelledCells (h : Writable lyt) :
    c ∈ labelledCells lyt ↔ needsLabel lyt c = true := by
  rw [labelledCells, List.mem_filter, and_iff_right_iff_imp, mem_groundCells]
  intro hc
  refine h.inside c ?_
  rw [needsLabel, Bool.and_eq_true, Bool.not_eq_true'] at hc
  exact hc.1

theorem nodup_labelledCells : (labelledCells lyt).Nodup := nodup_groundCells.filter _

/-- The designator of a cell is the first one that is left when the cell is written. -/
theorem idxOf_labelledCells (hsplit : groundCells lyt = done ++ c :: suf)
    (hc : needsLabel lyt c = true) :
    (labelledCells lyt).idxOf c = (done.filter (needsLabel lyt)).length := by
  have hnd := @nodup_groundCells lyt
  rw [hsplit, List.nodup_append] at hnd
  have hnot : c ∉ done.filter (needsLabel lyt) := fun hmem =>
    hnd.2.2 c (List.mem_of_mem_filter hmem) c List.mem_cons_self rfl
  rw [labelledCells, hsplit, List.filter_append, List.filter_cons_of_pos hc,
    List.idxOf_append_of_notMem hnot, List.idxOf_cons_self, Nat.add_zero]

theorem length_labelledCells (hsplit : groundCells lyt = done ++ c :: suf)
    (hc : needsLabel lyt c = true) :
    (done.filter (needsLabel lyt)).length < (labelledCells lyt).length := by
  rw [labelledCells, hsplit, List.filter_append, List.filter_cons_of_pos hc, List.length_append,
    List.length_cons]
  omega

theorem length_alphabet : alphabet.length = 52 := by decide

theorem nodup_alphabet : alphabet.Nodup := by decide +kernel

theorem designator_mem (h : Writable lyt) (hc : needsLabel lyt c = true) :
    designator lyt c ∈ alphabet := by
  have hlt := List.idxOf_lt_length_of_mem ((mem_labelledCells h).mpr hc)
  have hle := h.fits
  have hidx : (labelledCells lyt).idxOf c < alphabet.length := by rw [length_alphabet]; omega
  rw [designator, List.getD_eq_getElem?_getD, List.getElem?_eq_getElem hidx]
  exact List.getElem_mem hidx

theorem designator_injective (h : Writable lyt) {c' : Cell} (hc : needsLabel lyt c = true)
    (hc' : needsLabel lyt c' = true) (heq : designator lyt c = designator lyt c') : c = c' := by
  have hlt := List.idxOf_lt_length_of_mem ((mem_labelledCells h).mpr hc)
  have hlt' := List.idxOf_lt_length_of_mem ((mem_labelledCells h).mpr hc')
  have hle := h.fits
  have hidx : (labelledCells lyt).idxOf c < alphabet.length := by rw [length_alphabet]; omega
  have hidx' : (labelledCells lyt).idxOf c' < alphabet.length := by rw [length_alphabet]; omega
  rw [designator, designator, List.getD_eq_getElem?_getD, List.getD_eq_getElem?_getD,
    List.getElem?_eq_getElem hidx, List.getElem?_eq_getElem hidx'] at heq
  have hpos := (nodup_alphabet.getElem_inj_iff).mp heq
  exact (List.idxOf_inj ((mem_labelledCells h).mpr hc)).mp hpos

theorem number_eq {n : ℕ} (hn : n < 4) : number n = [digit n] := by
  match n, hn with
  | 0, _ => decide
  | 1, _ => decide
  | 2, _ => decide
  | 3, _ => decide

end Symbols

section Lines

variable (lyt : CellLevelLayout)

def rowLine (y : ℕ) : List Char := (groundRow lyt y).flatMap fun c => [symbol lyt c, ' ']

def headerLine (info : VersionInfo) : List Char :=
  "[ ".toList ++ (if lyt.layoutName = [] then [] else lyt.layoutName ++ " - ".toList) ++
    "generated by ".toList ++ info.version ++ " (".toList ++ info.repo ++ ") ]".toList

def blockLines (c : Cell) : List (List Char) :=
  [[designator lyt c, ':']] ++
    (if lyt.isPi c then ["- input".toList] else []) ++
    (if lyt.isPo c then ["- output".toList] else []) ++
    (if lyt.getCellName c ≠ [] then
      ["- label = \"".toList ++ lyt.getCellName c ++ "\"".toList] else []) ++
    ["- clock = ".toList ++ number (lyt.clockNumber c), []]

/-- The lines of the whole file. -/
def fileLines (info : VersionInfo) : List (List Char) :=
  [headerLine lyt info, [], layerSeparator lyt] ++
    (List.range (lyt.aspectRatio.y + 1)).map (rowLine lyt) ++
    [layerSeparator lyt, [], [], ['$'], []] ++ (labelledCells lyt).flatMap (blockLines lyt)

/-- The writer after the cells `done`. -/
def written (done : List Cell) (os : List Char) : WriteState where
  os := os
  alphabet := alphabet.drop (done.filter (needsLabel lyt)).length
  labeledCells := (done.filter (needsLabel lyt)).map fun c => (c, designator lyt c)
  viaLayerBuffer := []

variable {lyt} {ps : WriteFqcaLayoutParams} {c : Cell} {done suf : List Cell} {os : List Char}

theorem os_written : (written lyt done os).os = os := rfl

theorem written_put (text : List Char) :
    (written lyt done os).put text = written lyt done (os ++ text) := rfl

theorem filter_concat (hc : needsLabel lyt c = false) :
    (done ++ [c]).filter (needsLabel lyt) = done.filter (needsLabel lyt) := by
  rw [List.filter_append, List.filter_cons_of_neg (Bool.eq_false_iff.mp hc), List.filter_nil,
    List.append_nil]

theorem written_concat (hc : needsLabel lyt c = false) :
    written lyt (done ++ [c]) os = written lyt done os := by
  rw [written, written, filter_concat hc]

theorem writeCell_eq (h : Writable lyt) (hsplit : groundCells lyt = done ++ c :: suf) :
    writeCell lyt (written lyt done os) c =
      some (written lyt (done ++ [c]) (os ++ [symbol lyt c, ' '])) := by
  unfold writeCell symbol
  by_cases hempty : lyt.isEmptyCell c = true
  · rw [if_pos hempty, if_pos hempty, written_concat (by rw [needsLabel, hempty]; rfl)]
    rfl
  rw [if_neg hempty, if_neg hempty]
  rw [Bool.not_eq_true] at hempty
  by_cases hlabel : isLabelled lyt c = true
  · rw [if_pos hlabel, if_pos hlabel]
    have hc : needsLabel lyt c = true := by rw [needsLabel, hempty, hlabel]; rfl
    have hidx := idxOf_labelledCells hsplit hc
    have hlt := length_labelledCells hsplit hc
    have hle := h.fits
    have hlen : (done.filter (needsLabel lyt)).length < alphabet.length := by
      rw [length_alphabet]
      omega
    have hdes : alphabet[(done.filter (needsLabel lyt)).length] = designator lyt c := by
      rw [designator, hidx, List.getD_eq_getElem?_getD, List.getElem?_eq_getElem hlen,
        Option.getD_some]
    have hrest : (written lyt done os).alphabet = designator lyt c ::
        alphabet.drop ((done.filter (needsLabel lyt)).length + 1) := by
      rw [written, List.drop_eq_getElem_cons hlen, hdes]
    have hfilter : (done ++ [c]).filter (needsLabel lyt) = done.filter (needsLabel lyt) ++ [c] := by
      rw [List.filter_append, List.filter_cons_of_pos hc, List.filter_nil]
    rw [hrest, written, written, hfilter, List.length_append, List.map_append]
    rfl
  · rw [if_neg hlabel, if_neg hlabel, written_concat (by simp [needsLabel, hlabel])]
    by_cases h0 : lyt.getCellType c = .const0
    · rw [if_pos h0, if_pos h0]
      rfl
    by_cases h1 : lyt.getCellType c = .const1
    · rw [if_neg h0, if_pos h1, if_neg h0, if_pos h1]
      rfl
    · rw [if_neg h0, if_neg h1, if_neg h0, if_neg h1, number_eq (h.clock c hempty)]
      rfl

theorem createsVias_eq_false (h : Writable lyt) : createsVias lyt ps 0 = false :=
  decide_eq_false fun hv => hv.2 h.layer.symm

theorem foldlM_writeCell (h : Writable lyt) (y : ℕ) {xs : List ℕ}
    (hsplit : groundCells lyt = done ++ xs.map (fun x => ⟨x, y, 0⟩) ++ suf) :
    (xs.foldlM (fun s x => do
      let s ← writeCell lyt s ⟨x, y, (0 : ℕ)⟩
      some (if createsVias lyt ps 0 then writeViaCell lyt s ⟨x, y, (0 : ℕ)⟩ else s))
      (written lyt done os) : Option WriteState) =
    some (written lyt (done ++ xs.map fun x => ⟨x, y, 0⟩)
      (os ++ (xs.map fun x => (⟨x, y, 0⟩ : Cell)).flatMap fun c => [symbol lyt c, ' '])) := by
  induction xs generalizing done os with
  | nil => simp [List.map_nil]
  | cons x xs ih =>
    rw [List.map_cons, List.append_assoc, List.cons_append] at hsplit
    have hcell : writeCell lyt (written lyt done os) ⟨x, y, ((0 : ℕ) : ℤ)⟩ =
        some (written lyt (done ++ [⟨x, y, 0⟩]) (os ++ [symbol lyt ⟨x, y, 0⟩, ' '])) :=
      writeCell_eq h hsplit
    rw [List.foldlM_cons, hcell, createsVias_eq_false h]
    have hrest := @ih (done ++ [⟨x, y, 0⟩]) (os ++ [symbol lyt ⟨x, y, 0⟩, ' '])
      (by rw [hsplit]; simp)
    rw [createsVias_eq_false h] at hrest
    refine hrest.trans ?_
    simp

theorem writeRow_eq (h : Writable lyt) (y : ℕ)
    (hsplit : groundCells lyt = done ++ groundRow lyt y ++ suf) :
    writeRow lyt ps 0 (written lyt done os) y =
      some (written lyt (done ++ groundRow lyt y) (os ++ (rowLine lyt y ++ ['\n']))) := by
  rw [writeRow, foldlM_writeCell h y hsplit, createsVias_eq_false h, ← List.append_assoc]
  rfl

theorem foldlM_writeRow (h : Writable lyt) {ys : List ℕ}
    (hsplit : groundCells lyt = done ++ ys.flatMap (groundRow lyt) ++ suf) :
    ys.foldlM (writeRow lyt ps 0) (written lyt done os) =
      some (written lyt (done ++ ys.flatMap (groundRow lyt))
        (os ++ Lines.joinLines '\n' (ys.map (rowLine lyt)))) := by
  induction ys generalizing done os with
  | nil => simp [Lines.joinLines]
  | cons y ys ih =>
    rw [List.flatMap_cons, ← List.append_assoc] at hsplit
    rw [List.foldlM_cons, writeRow_eq h y (hsplit.trans (List.append_assoc _ _ _))]
    have hrest := @ih (done ++ groundRow lyt y) (os ++ (rowLine lyt y ++ ['\n'])) hsplit
    refine hrest.trans ?_
    rw [List.flatMap_cons, List.map_cons, Lines.joinLines, Lines.joinLines, List.flatMap_cons]
    simp only [List.append_assoc]

/-- The rows between two layer separators. -/
theorem writeLayoutDefinition_eq (h : Writable lyt) :
    writeLayoutDefinition lyt ps (written lyt [] os) =
      some (written lyt (groundCells lyt) (os ++ Lines.joinLines '\n'
        ([layerSeparator lyt] ++ (List.range (lyt.aspectRatio.y + 1)).map (rowLine lyt) ++
          [layerSeparator lyt]))) := by
  have hrows := @foldlM_writeRow lyt ps [] [] (os ++ (layerSeparator lyt ++ ['\n'])) h
    (List.range (lyt.aspectRatio.y + 1)) (List.append_nil _).symm
  rw [writeLayoutDefinition, h.layer]
  change ((List.range 1).foldlM (writeLayer lyt ps) (written lyt [] os)).bind _ = _
  have hlayer : writeLayer lyt ps (written lyt [] os) 0 = some (written lyt (groundCells lyt)
      (os ++ (layerSeparator lyt ++ ['\n']) ++ Lines.joinLines '\n'
        ((List.range (lyt.aspectRatio.y + 1)).map (rowLine lyt)))) := by
    rw [writeLayer, createsVias_eq_false h]
    change ((List.range (lyt.aspectRatio.y + 1)).foldlM (writeRow lyt ps 0)
      (written lyt [] (os ++ (layerSeparator lyt ++ ['\n'])))).bind _ = _
    rw [hrows]
    rfl
  rw [List.range_one, List.foldlM_cons, hlayer]
  change some ((written lyt _ _).put _) = _
  rw [written_put]
  simp only [Lines.joinLines, List.flatMap_append, List.flatMap_singleton, List.append_assoc]

theorem labeledCellText_eq (c : Cell) :
    labeledCellText lyt (c, designator lyt c) = Lines.joinLines '\n' (blockLines lyt c) := by
  have hcolon : ":\n".toList = [':', '\n'] := by decide
  have hinput : "- input\n".toList = "- input".toList ++ ['\n'] := by decide
  have houtput : "- output\n".toList = "- output".toList ++ ['\n'] := by decide
  have hquote : "\"\n".toList = "\"".toList ++ ['\n'] := by decide
  have hend : "\n\n".toList = ['\n'] ++ ['\n'] := by decide
  rw [labeledCellText, blockLines, hcolon, hinput, houtput, hquote, hend]
  simp only [Lines.joinLines, List.flatMap_append, List.flatMap_cons, List.flatMap_nil]
  split_ifs <;> simp only [List.flatMap_cons, List.flatMap_nil, List.append_assoc,
    List.nil_append, List.append_nil, List.cons_append]

theorem foldl_put {σ : Type*} (l : List σ) (f : σ → List Char) (s : WriteState) :
    (l.foldl (fun s lc => s.put (f lc)) s).os = s.os ++ l.flatMap f := by
  induction l generalizing s with
  | nil => simp
  | cons a l ih =>
    rw [List.foldl_cons, ih, List.flatMap_cons, ← List.append_assoc]
    rfl

theorem header_eq (info : VersionInfo) :
    header lyt info = Lines.joinLines '\n' [headerLine lyt info, []] := by
  have hend : ") ]\n\n".toList = ") ]".toList ++ ['\n', '\n'] := by decide
  -- the equation lemmas of both are slow to derive
  delta header headerLine
  rw [hend]
  simp only [Lines.joinLines, List.flatMap_cons, List.flatMap_nil, List.append_assoc,
    List.append_nil, List.nil_append, List.singleton_append]

theorem writeFqcaLayout_eq (h : Writable lyt) (info : VersionInfo) :
    writeFqcaLayout lyt ps info = some (Lines.joinLines '\n' (fileLines lyt info)) := by
  have hstart : (⟨header lyt info, alphabet, [], []⟩ : WriteState) =
      written lyt [] (header lyt info) := rfl
  have hsection : "\n\n$\n\n".toList = Lines.joinLines '\n' [[], [], ['$'], []] := by decide
  rw [writeFqcaLayout, hstart, writeLayoutDefinition_eq h]
  change some (List.foldl _ _ _ : WriteState).os = _
  rw [foldl_put, hsection]
  change some ((_ ++ _) ++ ((labelledCells lyt).map fun c => (c, designator lyt c)).flatMap
    (labeledCellText lyt)) = _
  rw [List.flatMap_map, fileLines]
  have hblocks : ((labelledCells lyt).flatMap fun c => labeledCellText lyt (c, designator lyt c)) =
      Lines.joinLines '\n' ((labelledCells lyt).flatMap (blockLines lyt)) := by
    simp only [labeledCellText_eq, Lines.joinLines, List.flatMap_assoc]
  rw [hblocks, header_eq, os_written]
  simp only [← Lines.joinLines_append, List.append_assoc]
  rfl

end Lines

end Fiction.Fqca
