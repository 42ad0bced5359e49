import Fiction.Formats.FqcaText

/-!
# Reading back the rows of a ground layer

The rows give each cell the type and the clock number of its symbol, and each designator its cell.
A labelled cell is a normal cell at first, and only digits carry a clock number.
-/

namespace Fiction.Fqca

section Symbols

variable (lyt : CellLevelLayout)

/-- The type that the symbol of a cell stands for. -/
def symbolType (c : Cell) : QcaCellType :=
  if lyt.isEmptyCell c then .empty
  else if isLabelled lyt c then .normal
  else if lyt.getCellType c = .const0 then .const0
  else if lyt.getCellType c = .const1 then .const1
  else .normal

/-- Only digits carry a clock number. -/
def symbolClock (c : Cell) : ℕ :=
  if lyt.isEmptyCell c ∨ isLabelled lyt c ∨ lyt.getCellType c = .const0 ∨
      lyt.getCellType c = .const1
  then 0 else lyt.clockNumber c

variable {lyt} {c : Cell}

theorem isDigit_digit {n : ℕ} (hn : n < 4) : (digit n).isDigit = true ∧
    isSpace (digit n) = false ∧ (digit n).toNat % 4 = n := by
  match n, hn with
  | 0, _ => decide
  | 1, _ => decide
  | 2, _ => decide
  | 3, _ => decide

theorem designator_kind (h : Writable lyt) (hc : needsLabel lyt c = true) :
    (designator lyt c).isAlpha = true ∧ (designator lyt c).isDigit = false ∧
      isSpace (designator lyt c) = false := by
  have hall : (alphabet.all fun d => d.isAlpha && !d.isDigit && !isSpace d) = true := by
    decide +kernel
  have hd := List.all_eq_true.mp hall _ (designator_mem h hc)
  simp only [Bool.and_eq_true, Bool.not_eq_true'] at hd
  exact ⟨hd.1.1, hd.1.2, hd.2⟩

/-- No cell has a bracket, an equality sign, a dollar sign or a line break. -/
theorem symbol_ne (h : Writable lyt) (c : Cell) : symbol lyt c ∉ ['[', '=', '$', '\n'] := by
  unfold symbol
  split_ifs with hempty hlabel
  · decide
  · have hc : needsLabel lyt c = true := by simp [needsLabel, hempty, hlabel]
    have hall : (alphabet.all fun d => d ∉ ['[', '=', '$', '\n']) = true := by decide +kernel
    exact of_decide_eq_true (List.all_eq_true.mp hall _ (designator_mem h hc))
  · decide
  · decide
  · have hclock := h.clock c (Bool.eq_false_iff.mpr hempty)
    have hall : ∀ n < 4, digit n ∉ ['[', '=', '$', '\n'] := by decide
    exact hall _ hclock

end Symbols

section Rows

variable {lyt : CellLevelLayout} {c : Cell} {done : List Cell} {row : ℕ} {st st' : ReadState}

/-- The reader after the cells `done` in the rows below `row` and its next cells. -/
structure ReadCells (lyt : CellLevelLayout) (done : List Cell) (row : ℕ) (st : ReadState) :
    Prop where
  status : st.parsingStatus = .layoutDefinition
  layer : st.nextCellLayer = 1
  row : st.currentCellRow = row
  cellType : ∀ c, st.lyt.getCellType c = if c ∈ done then symbolType lyt c else .empty
  clockNumber : ∀ c, st.lyt.clockNumber c = if c ∈ done then symbolClock lyt c else 0
  cellName : ∀ c, st.lyt.getCellName c = []
  isPi : ∀ c, st.lyt.isPi c = false
  isPo : ∀ c, st.lyt.isPo c = false
  numClocks : st.lyt.numClocks = 4
  label : ∀ c ∈ done, needsLabel lyt c = true → st.cellLabelMap (designator lyt c) = some c

theorem update_if_mem {α : Type*} {f g : Cell → α} {a : α}
    (hf : ∀ c, f c = if c ∈ done then g c else a) (c c' : Cell) :
    Function.update f c (g c) c' = if c' ∈ done ++ [c] then g c' else a := by
  by_cases heq : c' = c
  · rw [heq, Function.update_self, if_pos (List.mem_append_right _ (List.mem_singleton_self c))]
  · rw [Function.update_of_ne heq, hf]
    simp only [List.mem_append, List.mem_singleton, heq, or_false]

/-- One cell more has been read. -/
theorem ReadCells.add (h : ReadCells lyt done row st)
    (hstatus : st'.parsingStatus = st.parsingStatus)
    (hlayer : st'.nextCellLayer = st.nextCellLayer)
    (hrow : st'.currentCellRow = st.currentCellRow)
    (htype : st'.lyt.getCellType = Function.update st.lyt.getCellType c (symbolType lyt c))
    (hclock : st'.lyt.clockNumber = Function.update st.lyt.clockNumber c (symbolClock lyt c))
    (hname : st'.lyt.getCellName = st.lyt.getCellName) (hpi : st'.lyt.isPi = st.lyt.isPi)
    (hpo : st'.lyt.isPo = st.lyt.isPo) (hnum : st'.lyt.numClocks = st.lyt.numClocks)
    (hlabel : ∀ c' ∈ done ++ [c], needsLabel lyt c' = true →
      st'.cellLabelMap (designator lyt c') = some c') :
    ReadCells lyt (done ++ [c]) row st' where
  status := hstatus.trans h.status
  layer := hlayer.trans h.layer
  row := hrow.trans h.row
  cellType c' := by rw [htype, update_if_mem h.cellType]
  clockNumber c' := by rw [hclock, update_if_mem h.clockNumber]
  cellName c' := by rw [hname, h.cellName]
  isPi c' := by rw [hpi, h.isPi]
  isPo c' := by rw [hpo, h.isPo]
  numClocks := hnum.trans h.numClocks
  label := hlabel

theorem ReadCells.label_add (h : ReadCells lyt done row st) (hc : needsLabel lyt c = false) :
    ∀ c' ∈ done ++ [c], needsLabel lyt c' = true →
      st.cellLabelMap (designator lyt c') = some c' := by
  intro c' hc' hn
  rcases List.mem_append.mp hc' with hc' | hc'
  · exact h.label c' hc' hn
  · rw [List.mem_singleton.mp hc', hc] at hn
    cases hn

theorem ReadCells.update_clockNumber (h : ReadCells lyt done row st) (hc : c ∉ done)
    (hclock : symbolClock lyt c = 0) :
    st.lyt.clockNumber = Function.update st.lyt.clockNumber c (symbolClock lyt c) := by
  rw [hclock, eq_comm, Function.update_eq_self_iff, h.clockNumber, if_neg hc]

theorem ReadCells.parseCell (h : ReadCells lyt done row st) (hw : Writable lyt) (hc : c ∉ done)
    (hz : c.z = 0) : ∃ st', Fqca.parseCell st (symbol lyt c) c = .ok st' ∧
      ReadCells lyt (done ++ [c]) row st' := by
  have hmode : ∀ s, parseMode s c = s := fun s => if_neg (not_not.mpr hz)
  unfold Fqca.parseCell
  by_cases hempty : lyt.isEmptyCell c = true
  · have hsym : symbol lyt c = ' ' := if_pos hempty
    refine ⟨st, by rw [hsym]; rfl, ?_⟩
    have hclock : symbolClock lyt c = 0 := if_pos (.inl hempty)
    refine h.add rfl rfl rfl ?_ (h.update_clockNumber hc hclock) rfl rfl rfl rfl (h.label_add ?_)
    · rw [show symbolType lyt c = .empty from if_pos hempty, eq_comm, Function.update_eq_self_iff,
        h.cellType, if_neg hc]
    · rw [needsLabel, hempty]
      rfl
  rw [Bool.not_eq_true] at hempty
  have hparse : ∀ s, isSpace (symbol lyt c) = false → parseSymbol st (symbol lyt c) c = .ok s →
      (if isSpace (symbol lyt c) = true then Except.ok st else do
        let s ← parseSymbol st (symbol lyt c) c
        .ok (storePosition (parseMode s c) c)) = .ok (storePosition s c) := by
    intro s hspace hs
    rw [hspace, if_neg Bool.false_ne_true, hs]
    change Except.ok (storePosition (parseMode s c) c) = _
    rw [hmode]
  by_cases hlabel : isLabelled lyt c = true
  · have hn : needsLabel lyt c = true := by rw [needsLabel, hempty, hlabel]; rfl
    have hsym : symbol lyt c = designator lyt c := by
      rw [symbol, hempty, if_neg Bool.false_ne_true, if_pos hlabel]
    have htype : symbolType lyt c = .normal := by
      rw [symbolType, hempty, if_neg Bool.false_ne_true, if_pos hlabel]
    have hclock : symbolClock lyt c = 0 := if_pos (.inr (.inl hlabel))
    obtain ⟨halpha, hdigit, hspace⟩ := designator_kind hw hn
    rw [← hsym] at halpha hdigit hspace
    refine ⟨_, hparse _ hspace (by
      rw [parseSymbol, hdigit, if_neg Bool.false_ne_true, if_pos halpha]), ?_⟩
    refine h.add rfl rfl rfl (by rw [htype]; rfl) (h.update_clockNumber hc hclock) rfl rfl rfl
      rfl ?_
    intro c' hc' hn'
    change Function.update st.cellLabelMap (symbol lyt c) (some c) (designator lyt c') = some c'
    rcases List.mem_append.mp hc' with hc' | hc'
    · have hne : c' ≠ c := fun heq => hc (heq ▸ hc')
      rw [hsym, Function.update_of_ne fun heq => hne (designator_injective hw hn' hn heq)]
      exact h.label c' hc' hn'
    · rw [List.mem_singleton.mp hc', hsym, Function.update_self]
  rw [Bool.not_eq_true] at hlabel
  have hn : needsLabel lyt c = false := by rw [needsLabel, hlabel, Bool.and_false]
  by_cases h0 : lyt.getCellType c = .const0
  · have hsym : symbol lyt c = '-' := by
      rw [symbol, hempty, hlabel, if_neg Bool.false_ne_true, if_neg Bool.false_ne_true, if_pos h0]
    have htype : symbolType lyt c = .const0 := by
      rw [symbolType, hempty, hlabel, if_neg Bool.false_ne_true, if_neg Bool.false_ne_true,
        if_pos h0]
    have hclock : symbolClock lyt c = 0 := if_pos (.inr (.inr (.inl h0)))
    refine ⟨_, hparse _ (by rw [hsym]; decide) (by rw [hsym]; rfl), ?_⟩
    exact h.add rfl rfl rfl (by rw [htype]; rfl) (h.update_clockNumber hc hclock) rfl rfl rfl rfl
      (h.label_add hn)
  by_cases h1 : lyt.getCellType c = .const1
  · have hsym : symbol lyt c = '+' := by
      rw [symbol, hempty, hlabel, if_neg Bool.false_ne_true, if_neg Bool.false_ne_true, if_neg h0,
        if_pos h1]
    have htype : symbolType lyt c = .const1 := by
      rw [symbolType, hempty, hlabel, if_neg Bool.false_ne_true, if_neg Bool.false_ne_true,
        if_neg h0, if_pos h1]
    have hclock : symbolClock lyt c = 0 := if_pos (.inr (.inr (.inr h1)))
    refine ⟨_, hparse _ (by rw [hsym]; decide) (by rw [hsym]; rfl), ?_⟩
    exact h.add rfl rfl rfl (by rw [htype]; rfl) (h.update_clockNumber hc hclock) rfl rfl rfl rfl
      (h.label_add hn)
  · have hsym : symbol lyt c = digit (lyt.clockNumber c) := by
      rw [symbol, hempty, hlabel, if_neg Bool.false_ne_true, if_neg Bool.false_ne_true, if_neg h0,
        if_neg h1]
    have htype : symbolType lyt c = .normal := by
      rw [symbolType, hempty, hlabel, if_neg Bool.false_ne_true, if_neg Bool.false_ne_true,
        if_neg h0, if_neg h1]
    obtain ⟨hdigit, hspace, hmod⟩ := isDigit_digit (hw.clock c hempty)
    have hclock : symbolClock lyt c = toClockNumber st.lyt (symbol lyt c) := by
      rw [symbolClock, hempty, hlabel, toClockNumber, h.numClocks, hsym, hmod]
      exact if_neg (by simp [h0, h1])
    rw [← hsym] at hdigit hspace
    refine ⟨_, hparse _ hspace (by rw [parseSymbol, if_pos hdigit]), ?_⟩
    exact h.add rfl rfl rfl (by rw [htype]; rfl) (by rw [hclock]; rfl) rfl rfl rfl rfl
      (h.label_add hn)

/-- The cells of a row are found in every other character of its line. -/
theorem ReadCells.parseRow (hw : Writable lyt) {k column : ℕ} {st : ReadState}
    (h : ReadCells lyt done row st)
    (hnew : ∀ x, column ≤ x → (⟨x, row, 0⟩ : Cell) ∉ done) :
    ∃ st', Fqca.parseRow FilePosition.cell st column (((List.range' column k).map
        fun x => (⟨x, row, 0⟩ : Cell)).flatMap fun c => [symbol lyt c, ' ']) = .ok st' ∧
      ReadCells lyt (done ++ (List.range' column k).map fun x => ⟨x, row, 0⟩) row st' := by
  induction k generalizing column done st with
  | zero => exact ⟨st, rfl, by simpa using h⟩
  | succ k ih =>
    obtain ⟨st₁, h₁, hst₁⟩ := h.parseCell hw (hnew column le_rfl) rfl
    have hnew₁ : ∀ x, column + 1 ≤ x → (⟨x, row, 0⟩ : Cell) ∉ done ++ [⟨column, row, 0⟩] := by
      intro x hx hmem
      rcases List.mem_append.mp hmem with hmem | hmem
      · exact hnew x (by omega) hmem
      · have := congrArg Cell.x (List.mem_singleton.mp hmem)
        simp only at this
        omega
    obtain ⟨st₂, h₂, hst₂⟩ := ih hst₁ hnew₁
    rw [List.append_assoc] at hst₂
    refine ⟨st₂, ?_, hst₂⟩
    rw [List.range'_succ, List.map_cons, List.flatMap_cons]
    change (Fqca.parseCell st (symbol lyt ⟨column, row, 0⟩)
      (FilePosition.cell ⟨column, st.currentCellRow, st.nextCellLayer⟩)).bind _ = _
    rw [h.row, h.layer]
    change (Fqca.parseCell st (symbol lyt ⟨column, row, 0⟩) ⟨column, row, 0⟩).bind _ = _
    rw [h₁]
    exact h₂

/-- The lines are read one after another without an error. -/
inductive Reads : ReadState → List (List Char) → ReadState → Prop
  | nil (s : ReadState) : Reads s [] s
  | cons {s s' s'' : ReadState} {line : List Char} {lines : List (List Char)}
      (head : ∀ lineNumber, readLine FilePosition.cell lineNumber s line = .ok s')
      (tail : Reads s' lines s'') :
      Reads s (line :: lines) s''

variable {s s' s'' : ReadState} {line : List Char} {lines lines' : List (List Char)}

theorem Reads.readLines (h : Reads s lines s') (lineNumber : ℕ) :
    Fqca.readLines FilePosition.cell lineNumber s lines = .ok s' := by
  induction h generalizing lineNumber with
  | nil s => rfl
  | cons head tail ih =>
    rw [Fqca.readLines, head lineNumber]
    exact ih (lineNumber + 1)

theorem Reads.append (h : Reads s lines s') (h' : Reads s' lines' s'') :
    Reads s (lines ++ lines') s'' := by
  induction h with
  | nil s => exact h'
  | cons head tail ih => exact .cons head (ih h')

theorem Reads.single (h : ∀ lineNumber, readLine FilePosition.cell lineNumber s line = .ok s') :
    Reads s [line] s' := .cons h (.nil s')

theorem readLine_nil (s : ReadState) (lineNumber : ℕ) :
    readLine FilePosition.cell lineNumber s [] = .ok s := rfl

theorem readLine_layout (h : s.parsingStatus = .layoutDefinition) (hline : line ≠ [])
    (lineNumber : ℕ) : readLine FilePosition.cell lineNumber s line =
      readLayoutLine FilePosition.cell s line := by
  rw [readLine, if_neg hline, h]

theorem readLine_cell (h : s.parsingStatus = .cellDefinition) (hline : line ≠ [])
    (lineNumber : ℕ) : readLine FilePosition.cell lineNumber s line =
      readCellLine lineNumber s line := by
  rw [readLine, if_neg hline, h]

theorem substituteWhiteSpace_append (line line' : List Char) :
    substituteWhiteSpace (line ++ line') =
      substituteWhiteSpace line ++ substituteWhiteSpace line' :=
  List.filter_append line line'

theorem matchesComment_eq_false (h : '[' ∉ line) : matchesComment line = false := by
  refine decide_eq_false fun hc => h ?_
  exact List.mem_of_mem_head? hc.2.1

theorem readLine_headerLine (h : s.parsingStatus = .layoutDefinition) (info : VersionInfo)
    (lineNumber : ℕ) : readLine FilePosition.cell lineNumber s (headerLine lyt info) = .ok s := by
  obtain ⟨mid, hmid⟩ : ∃ mid, headerLine lyt info = '[' :: mid ++ [']'] := by
    have hclose : ") ]".toList = [')', ' '] ++ [']'] := by decide
    delta headerLine
    rw [hclose, ← List.append_assoc]
    exact ⟨_, congrArg (· ++ [']']) rfl⟩
  have hcomment : matchesComment (substituteWhiteSpace (headerLine lyt info)) = true := by
    rw [hmid, substituteWhiteSpace_append]
    change matchesComment ('[' :: substituteWhiteSpace mid ++ [']']) = true
    exact decide_eq_true ⟨by simp, rfl, List.getLast?_concat⟩
  have hline : headerLine lyt info ≠ [] := by rw [hmid]; simp
  rw [readLine_layout h hline, readLayoutLine, if_pos hcomment]

theorem mem_layerSeparator {a : Char} :
    a ∈ substituteWhiteSpace (layerSeparator lyt) ↔ a = '=' := by
  have htext : "= ".toList = ['=', ' '] := by decide
  have hspace : isSpace '=' = false := by decide
  have hblank : isSpace ' ' = true := by decide
  rw [substituteWhiteSpace, layerSeparator, htext, List.mem_filter, List.mem_flatMap]
  constructor
  · rintro ⟨⟨-, -, ha⟩, hs⟩
    rcases List.mem_cons.mp ha with rfl | ha
    · rfl
    · rw [List.mem_singleton.mp ha, hblank] at hs
      cases hs
  · rintro rfl
    exact ⟨⟨0, List.mem_range.mpr (Nat.succ_pos _), List.mem_cons_self⟩, by rw [hspace]; rfl⟩

theorem readLine_layerSeparator (h : s.parsingStatus = .layoutDefinition) (lineNumber : ℕ) :
    readLine FilePosition.cell lineNumber s (layerSeparator lyt) =
      .ok { s with currentCellRow := 0, nextCellLayer := s.nextCellLayer + 1 } := by
  have hmem : '=' ∈ substituteWhiteSpace (layerSeparator lyt) := mem_layerSeparator.mpr rfl
  have hline : layerSeparator lyt ≠ [] := by
    intro hnil
    rw [hnil] at hmem
    cases hmem
  have hcomment : matchesComment (substituteWhiteSpace (layerSeparator lyt)) = false :=
    matchesComment_eq_false fun hb => absurd (mem_layerSeparator.mp hb) (by decide)
  have hsep : matchesLayerSeparator (substituteWhiteSpace (layerSeparator lyt)) = true := by
    refine decide_eq_true ⟨List.ne_nil_of_mem hmem, List.all_eq_true.mpr fun a ha => ?_⟩
    exact decide_eq_true (mem_layerSeparator.mp ha)
  rw [readLine_layout h hline, readLayoutLine, hcomment, if_neg Bool.false_ne_true, if_pos hsep]

theorem readLine_section (h : s.parsingStatus = .layoutDefinition) (lineNumber : ℕ) :
    readLine FilePosition.cell lineNumber s ['$'] =
      .ok { s with parsingStatus := .cellDefinition } := by
  rw [readLine_layout h (List.cons_ne_nil _ _)]
  rfl

/-- A row of cells is none of the other lines. -/
theorem readLine_row (h : s.parsingStatus = .layoutDefinition) (hline : line ≠ [])
    (hmem : ∀ a ∈ line, a ∉ ['[', '=', '$', '\n'])
    (hs : Fqca.parseRow FilePosition.cell s 0 line = .ok s')
    (lineNumber : ℕ) : readLine FilePosition.cell lineNumber s line =
      .ok { s' with currentCellRow := s'.currentCellRow + 1 } := by
  have hsub : ∀ a ∈ substituteWhiteSpace line, a ∉ ['[', '=', '$', '\n'] := fun a ha =>
    hmem a (List.mem_of_mem_filter ha)
  have hcomment : matchesComment (substituteWhiteSpace line) = false :=
    matchesComment_eq_false fun hb => hsub _ hb (by decide)
  have hsep : matchesLayerSeparator (substituteWhiteSpace line) = false := by
    refine decide_eq_false fun ⟨hne, hall⟩ => ?_
    obtain ⟨a, ha⟩ := List.exists_mem_of_ne_nil _ hne
    have heq := of_decide_eq_true (List.all_eq_true.mp hall a ha)
    exact hsub a ha (by rw [heq]; decide)
  have hsection : substituteWhiteSpace line ≠ ['$'] := by
    intro heq
    refine hsub '$' ?_ (by decide)
    rw [heq]
    exact List.mem_singleton_self '$'
  rw [readLine_layout h hline, readLayoutLine, hcomment, if_neg Bool.false_ne_true, hsep,
    if_neg Bool.false_ne_true, if_neg hsection, hs]
  rfl

theorem mem_rowLine (hw : Writable lyt) (y : ℕ) {a : Char} (ha : a ∈ rowLine lyt y) :
    a ∉ ['[', '=', '$', '\n'] := by
  obtain ⟨c, -, hc⟩ := List.mem_flatMap.mp ha
  rcases List.mem_cons.mp hc with rfl | hc
  · exact symbol_ne hw c
  · rw [List.mem_singleton.mp hc]
    decide

/-- The rows from `row` on. -/
theorem ReadCells.rows (hw : Writable lyt) {k row : ℕ} {st : ReadState}
    (h : ReadCells lyt ((List.range row).flatMap (groundRow lyt)) row st) :
    ∃ st', Reads st ((List.range' row k).map (rowLine lyt)) st' ∧
      ReadCells lyt ((List.range (row + k)).flatMap (groundRow lyt)) (row + k) st' := by
  induction k generalizing row st with
  | zero => exact ⟨st, .nil st, h⟩
  | succ k ih =>
    have hnew : ∀ x, 0 ≤ x → (⟨x, row, 0⟩ : Cell) ∉ (List.range row).flatMap (groundRow lyt) := by
      intro x _ hmem
      simp only [List.mem_flatMap, List.mem_range, groundRow, List.mem_map] at hmem
      obtain ⟨y, hy, x', -, heq⟩ := hmem
      have := congrArg Cell.y heq
      simp only at this
      omega
    obtain ⟨st₁, h₁, hst₁⟩ := h.parseRow hw (k := lyt.aspectRatio.x + 1) hnew
    have hrow : rowLine lyt row = ((List.range' 0 (lyt.aspectRatio.x + 1)).map
        fun x => (⟨x, row, 0⟩ : Cell)).flatMap fun c => [symbol lyt c, ' '] := by
      rw [rowLine, groundRow, List.range_eq_range']
    rw [← hrow] at h₁
    have hline : rowLine lyt row ≠ [] := by
      rw [rowLine, groundRow, List.range_succ_eq_map]
      exact List.cons_ne_nil _ _
    have hst : ReadCells lyt ((List.range (row + 1)).flatMap (groundRow lyt)) (row + 1)
        { st₁ with currentCellRow := st₁.currentCellRow + 1 } := by
      have hcells : (List.range (row + 1)).flatMap (groundRow lyt) =
          (List.range row).flatMap (groundRow lyt) ++
            (List.range' 0 (lyt.aspectRatio.x + 1)).map fun x => ⟨x, row, 0⟩ := by
        rw [List.range_succ, List.flatMap_append, List.flatMap_singleton, groundRow,
          ← List.range_eq_range']
      rw [hcells]
      exact { hst₁ with row := congrArg (· + 1) hst₁.row }
    obtain ⟨st₂, h₂, hst₂⟩ := ih hst
    rw [Nat.add_assoc, Nat.add_comm 1 k] at hst₂
    refine ⟨st₂, ?_, hst₂⟩
    rw [List.range'_succ, List.map_cons]
    exact .cons (readLine_row h.status hline (fun a => mem_rowLine hw row) h₁) h₂

end Rows

end Fiction.Fqca
