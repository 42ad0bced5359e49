import Fiction.Formats.FqcaRows

/-!
# The round trip of a ground layer

The block of a labelled cell gives it the status, the name and the clock number, but no constness:
a labelled cell comes back as an output, as an input or as a normal cell. A constant cell without a
label comes back with clock number `0`. Nothing else is lost.
-/

namespace Fiction.Fqca

section Blocks

variable (lyt : CellLevelLayout)

/-- The type that the status of a labelled cell stands for. -/
def statusType (c : Cell) : QcaCellType :=
  if lyt.isPo c then .output else if lyt.isPi c then .input else .normal

/-- The reader after the rows and the blocks of the cells `done`. -/
structure ReadBlocks (done : List Cell) (st : ReadState) : Prop where
  status : st.parsingStatus = .cellDefinition
  cellType : ∀ c, st.lyt.getCellType c = if c ∈ done then statusType lyt c else symbolType lyt c
  clockNumber : ∀ c, st.lyt.clockNumber c =
    if c ∈ done then lyt.clockNumber c else symbolClock lyt c
  cellName : ∀ c, st.lyt.getCellName c = if c ∈ done then lyt.getCellName c else []
  isPi : ∀ c, st.lyt.isPi c = if c ∈ done then lyt.isPi c else false
  isPo : ∀ c, st.lyt.isPo c = if c ∈ done then lyt.isPo c else false
  numClocks : st.lyt.numClocks = 4
  label : ∀ c, needsLabel lyt c = true → st.cellLabelMap (designator lyt c) = some c

variable {lyt} {c : Cell} {done : List Cell} {s s' st : ReadState}

theorem isWord_designator (hw : Writable lyt) (hc : needsLabel lyt c = true) :
    isWord (designator lyt c) = true :=
  decide_eq_true (.inl (by rw [Char.isAlphanum, (designator_kind hw hc).1]; rfl))

theorem readLine_designator (hs : s.parsingStatus = .cellDefinition) (hw : Writable lyt)
    (hc : needsLabel lyt c = true) (hlabel : s.cellLabelMap (designator lyt c) = some c)
    (lineNumber : ℕ) : readLine FilePosition.cell lineNumber s [designator lyt c, ':'] =
      .ok { s with currentLabeledCell := c } := by
  have hsub : substituteWhiteSpace [designator lyt c, ':'] = [designator lyt c, ':'] := by
    rw [substituteWhiteSpace, List.filter_cons_of_pos, List.filter_cons_of_pos (by decide),
      List.filter_nil]
    rw [(designator_kind hw hc).2.2]
    rfl
  have hid : matchCellDefinitionId [designator lyt c, ':'] = some (designator lyt c) :=
    if_pos (isWord_designator hw hc)
  rw [readLine_cell hs (List.cons_ne_nil _ _), readCellLine, hsub, if_neg (List.cons_ne_nil _ _),
    hid]
  simp only [hlabel]

theorem readLine_input (hs : s.parsingStatus = .cellDefinition) (lineNumber : ℕ) :
    readLine FilePosition.cell lineNumber s "- input".toList =
      .ok (s.update fun lyt => lyt.assignCellType s.currentLabeledCell .input) := by
  rw [readLine_cell hs (by decide)]
  rfl

theorem readLine_output (hs : s.parsingStatus = .cellDefinition) (lineNumber : ℕ) :
    readLine FilePosition.cell lineNumber s "- output".toList =
      .ok (s.update fun lyt => lyt.assignCellType s.currentLabeledCell .output) := by
  rw [readLine_cell hs (by decide)]
  rfl

theorem readLine_label (hs : s.parsingStatus = .cellDefinition) {name : List Char}
    (hname : ∀ a ∈ name, isSpace a = false) (lineNumber : ℕ) :
    readLine FilePosition.cell lineNumber s ("- label = \"".toList ++ name ++ "\"".toList) =
      .ok (s.update fun lyt => lyt.assignCellName s.currentLabeledCell name) := by
  have hsub : substituteWhiteSpace ("- label = \"".toList ++ name ++ "\"".toList) =
      "-label=\"".toList ++ name ++ "\"".toList := by
    have hbefore : substituteWhiteSpace "- label = \"".toList = "-label=\"".toList := by decide
    have hafter : substituteWhiteSpace "\"".toList = "\"".toList := by decide
    have hmid : substituteWhiteSpace name = name := List.filter_eq_self.mpr fun a ha => by
      rw [hname a ha]
      rfl
    rw [substituteWhiteSpace_append, substituteWhiteSpace_append, hbefore, hafter, hmid]
  have hmatch : matchBetween "-label=\"".toList "\"".toList
      ("-label=\"".toList ++ name ++ "\"".toList) = some name := by
    have hbegin : "-label=\"".toList <+: "-label=\"".toList ++ name ++ "\"".toList := by
      rw [List.append_assoc]
      exact List.prefix_append _ _
    rw [matchBetween, if_pos ⟨hbegin, List.suffix_append _ _, by simp⟩]
    simp
  have hid : matchCellDefinitionId ("-label=\"".toList ++ name ++ "\"".toList) = none := rfl
  have hinput : "-label=\"".toList ++ name ++ "\"".toList ≠ "-input".toList := fun heq =>
    absurd (congrArg (fun l => l[1]?) heq : some 'l' = some 'i') (by decide)
  have houtput : "-label=\"".toList ++ name ++ "\"".toList ≠ "-output".toList := fun heq =>
    absurd (congrArg (fun l => l[1]?) heq : some 'l' = some 'o') (by decide)
  rw [readLine_cell hs (by simp), readCellLine, hsub, if_neg (by simp), hid]
  simp only [hmatch, if_neg hinput, if_neg houtput]

theorem readLine_clock (hs : s.parsingStatus = .cellDefinition) {k : ℕ} (hk : k < 4)
    (hnum : s.lyt.numClocks = 4) (lineNumber : ℕ) :
    readLine FilePosition.cell lineNumber s ("- clock = ".toList ++ number k) =
      .ok (s.update fun lyt => lyt.assignClockNumber s.currentLabeledCell k) := by
  have hclock : toClockNumber s.lyt (digit k) = k := by
    rw [toClockNumber, hnum, (isDigit_digit hk).2.2]
  have hall : ∀ k < 4, substituteWhiteSpace ("- clock = ".toList ++ [digit k]) =
        "-clock=".toList ++ [digit k] ∧
      matchBetween "-label=\"".toList "\"".toList ("-clock=".toList ++ [digit k]) = none ∧
      matchDigit "-clock=".toList ("-clock=".toList ++ [digit k]) = some (digit k) := by decide
  obtain ⟨hsub, hlabel, hdigit⟩ := hall k hk
  have hid : matchCellDefinitionId ("-clock=".toList ++ [digit k]) = none := rfl
  have hinput : "-clock=".toList ++ [digit k] ≠ "-input".toList := fun heq =>
    absurd (congrArg (fun l => l[1]?) heq : some 'c' = some 'i') (by decide)
  have houtput : "-clock=".toList ++ [digit k] ≠ "-output".toList := fun heq =>
    absurd (congrArg (fun l => l[1]?) heq : some 'c' = some 'o') (by decide)
  rw [readLine_cell hs (by simp), number_eq hk, readCellLine, hsub, if_neg (by simp), hid]
  simp only [hlabel, hdigit, if_neg hinput, if_neg houtput, ReadState.update, hclock]

/-- What a block does to the cell of its designator. -/
def readBlock (lyt : CellLevelLayout) (s : ReadState) (c : Cell) : ReadState :=
  let s := { s with currentLabeledCell := c }
  let s := if lyt.isPi c then s.update fun l => l.assignCellType c .input else s
  let s := if lyt.isPo c then s.update fun l => l.assignCellType c .output else s
  let s :=
    if lyt.getCellName c ≠ [] then s.update fun l => l.assignCellName c (lyt.getCellName c) else s
  s.update fun l => l.assignClockNumber c (lyt.clockNumber c)

theorem Reads.ite {p : Prop} [Decidable p] {lines : List (List Char)}
    (h : p → Reads s lines s') : Reads s (if p then lines else []) (if p then s' else s) := by
  by_cases hp : p
  · rw [if_pos hp, if_pos hp]
    exact h hp
  · rw [if_neg hp, if_neg hp]
    exact .nil s

theorem isEmptyCell_eq_false (hc : needsLabel lyt c = true) : lyt.isEmptyCell c = false := by
  rw [needsLabel, Bool.and_eq_true, Bool.not_eq_true'] at hc
  exact hc.1

theorem reads_blockLines (hs : s.parsingStatus = .cellDefinition) (hw : Writable lyt)
    (hc : needsLabel lyt c = true) (hlabel : s.cellLabelMap (designator lyt c) = some c)
    (hnum : s.lyt.numClocks = 4) : Reads s (blockLines lyt c) (readBlock lyt s c) := by
  have hempty := isEmptyCell_eq_false hc
  let s₁ : ReadState := { s with currentLabeledCell := c }
  let s₂ := if lyt.isPi c then s₁.update fun l => l.assignCellType c .input else s₁
  let s₃ := if lyt.isPo c then s₂.update fun l => l.assignCellType c .output else s₂
  let s₄ := if lyt.getCellName c ≠ [] then s₃.update fun l => l.assignCellName c (lyt.getCellName c)
    else s₃
  have h₁ : s₁.parsingStatus = .cellDefinition ∧ s₁.lyt.numClocks = 4 ∧
    s₁.currentLabeledCell = c := ⟨hs, hnum, rfl⟩
  have h₂ : s₂.parsingStatus = .cellDefinition ∧ s₂.lyt.numClocks = 4 ∧
    s₂.currentLabeledCell = c := by
    dsimp only [s₂]
    split_ifs <;> exact h₁
  have h₃ : s₃.parsingStatus = .cellDefinition ∧ s₃.lyt.numClocks = 4 ∧
    s₃.currentLabeledCell = c := by
    dsimp only [s₃]
    split_ifs <;> exact h₂
  have h₄ : s₄.parsingStatus = .cellDefinition ∧ s₄.lyt.numClocks = 4 ∧
    s₄.currentLabeledCell = c := by
    dsimp only [s₄]
    split_ifs <;> exact h₃
  have hid : Reads s [[designator lyt c, ':']] s₁ := .single (readLine_designator hs hw hc hlabel)
  have hpi : Reads s₁ (if lyt.isPi c then ["- input".toList] else []) s₂ :=
    .ite fun _ => .single (readLine_input h₁.1)
  have hpo : Reads s₂ (if lyt.isPo c then ["- output".toList] else []) s₃ := by
    refine .ite fun _ => .single fun n => ?_
    rw [readLine_output h₂.1, h₂.2.2]
  have hname : Reads s₃ (if lyt.getCellName c ≠ [] then
      ["- label = \"".toList ++ lyt.getCellName c ++ "\"".toList] else []) s₄ := by
    refine .ite fun _ => .single fun n => ?_
    rw [readLine_label h₃.1 (hw.cellName c hempty), h₃.2.2]
  have hclock : Reads s₄ ["- clock = ".toList ++ number (lyt.clockNumber c), []]
      (readBlock lyt s c) := by
    refine .cons (fun n => ?_) (.single (readLine_nil _))
    rw [readLine_clock h₄.1 (hw.clock c hempty) h₄.2.1, h₄.2.2]
    rfl
  exact (((hid.append hpi).append hpo).append hname).append hclock

theorem readBlock_status : (readBlock lyt s c).parsingStatus = s.parsingStatus ∧
    (readBlock lyt s c).lyt.numClocks = s.lyt.numClocks ∧
    (readBlock lyt s c).cellLabelMap = s.cellLabelMap := by
  unfold readBlock
  split_ifs <;> exact ⟨rfl, rfl, rfl⟩

theorem readBlock_cellType : (readBlock lyt s c).lyt.getCellType =
    Function.update s.lyt.getCellType c
      (if lyt.isPo c then .output else if lyt.isPi c then .input else s.lyt.getCellType c) := by
  unfold readBlock
  split_ifs <;> simp [ReadState.update]

theorem readBlock_clockNumber : (readBlock lyt s c).lyt.clockNumber =
    Function.update s.lyt.clockNumber c (lyt.clockNumber c) := by
  unfold readBlock
  split_ifs <;> rfl

theorem readBlock_cellName : (readBlock lyt s c).lyt.getCellName =
    Function.update s.lyt.getCellName c
      (if lyt.getCellName c ≠ [] then lyt.getCellName c else s.lyt.getCellName c) := by
  unfold readBlock
  split_ifs <;> simp [ReadState.update]

theorem readBlock_isPi : (readBlock lyt s c).lyt.isPi = Function.update s.lyt.isPi c
    (lyt.isPi c || s.lyt.isPi c) := by
  unfold readBlock
  split_ifs with hpi <;> simp [ReadState.update, hpi]

theorem readBlock_isPo : (readBlock lyt s c).lyt.isPo = Function.update s.lyt.isPo c
    (lyt.isPo c || s.lyt.isPo c) := by
  unfold readBlock
  split_ifs with hpi hpo <;> simp [ReadState.update, *]

theorem update_if_else_mem {α : Type*} {f g g' : Cell → α} {a : α}
    (hf : ∀ c, f c = if c ∈ done then g c else g' c) (ha : a = g c) (c' : Cell) :
    Function.update f c a c' = if c' ∈ done ++ [c] then g c' else g' c' := by
  by_cases heq : c' = c
  · rw [heq, Function.update_self, ha,
      if_pos (List.mem_append_right _ (List.mem_singleton_self c))]
  · rw [Function.update_of_ne heq, hf]
    simp only [List.mem_append, List.mem_singleton, heq, or_false]

theorem symbolType_eq_normal (hc : needsLabel lyt c = true) : symbolType lyt c = .normal := by
  have hlabel : isLabelled lyt c = true := by
    rw [needsLabel, Bool.and_eq_true] at hc
    exact hc.2
  rw [symbolType, isEmptyCell_eq_false hc, if_neg Bool.false_ne_true, if_pos hlabel]

theorem ReadBlocks.block (h : ReadBlocks lyt done s) (hc : needsLabel lyt c = true)
    (hnew : c ∉ done) : ReadBlocks lyt (done ++ [c]) (readBlock lyt s c) where
  status := readBlock_status.1.trans h.status
  cellType c' := by
    rw [readBlock_cellType]
    refine update_if_else_mem h.cellType ?_ c'
    rw [statusType, h.cellType, if_neg hnew, symbolType_eq_normal hc]
  clockNumber c' := by
    rw [readBlock_clockNumber]
    exact update_if_else_mem h.clockNumber rfl c'
  cellName c' := by
    rw [readBlock_cellName]
    refine update_if_else_mem h.cellName ?_ c'
    rw [h.cellName, if_neg hnew]
    by_cases hname : lyt.getCellName c = []
    · rw [if_neg (not_not.mpr hname), hname]
    · rw [if_pos hname]
  isPi c' := by
    rw [readBlock_isPi]
    refine update_if_else_mem h.isPi ?_ c'
    rw [h.isPi, if_neg hnew, Bool.or_false]
  isPo c' := by
    rw [readBlock_isPo]
    refine update_if_else_mem h.isPo ?_ c'
    rw [h.isPo, if_neg hnew, Bool.or_false]
  numClocks := readBlock_status.2.1.trans h.numClocks
  label c' hc' := by
    rw [readBlock_status.2.2]
    exact h.label c' hc'

theorem ReadBlocks.blocks (hw : Writable lyt) {cells : List Cell} (h : ReadBlocks lyt done s)
    (hcells : ∀ c ∈ cells, needsLabel lyt c = true) (hnd : (done ++ cells).Nodup) :
    ∃ s', Reads s (cells.flatMap (blockLines lyt)) s' ∧ ReadBlocks lyt (done ++ cells) s' := by
  induction cells generalizing done s with
  | nil => exact ⟨s, .nil s, by rwa [List.append_nil]⟩
  | cons c cells ih =>
    have hc := hcells c List.mem_cons_self
    have hnew : c ∉ done := fun hmem =>
      (List.nodup_append.mp hnd).2.2 c hmem c List.mem_cons_self rfl
    rw [List.append_cons] at hnd
    obtain ⟨s', hreads, hs'⟩ := ih (h.block hc hnew)
      (fun c' hc' => hcells c' (List.mem_cons_of_mem c hc')) hnd
    rw [← List.append_cons] at hs'
    rw [List.flatMap_cons]
    exact ⟨s', (reads_blockLines h.status hw hc (h.label c hc) h.numClocks).append hreads, hs'⟩

end Blocks

section RoundTrip

variable {lyt : CellLevelLayout} {c : Cell}

theorem notMem_headerLine (hw : Writable lyt) (info : VersionInfo) :
    '\n' ∉ headerLine lyt info := by
  have hname := hw.layoutName
  have hversion := info.notMem_version
  have hrepo := info.notMem_repo
  unfold headerLine
  split_ifs <;> simp [hname, hversion, hrepo]

theorem notMem_layerSeparator : '\n' ∉ layerSeparator lyt := by
  intro hmem
  obtain ⟨-, -, ha⟩ := List.mem_flatMap.mp hmem
  exact absurd ha (by decide)

theorem notMem_blockLines (hw : Writable lyt) (hc : needsLabel lyt c = true) :
    ∀ line ∈ blockLines lyt c, '\n' ∉ line := by
  have hempty := isEmptyCell_eq_false hc
  have hdesignator : designator lyt c ≠ '\n' := by
    intro heq
    have hspace := (designator_kind hw hc).2.2
    rw [heq] at hspace
    exact absurd hspace (by decide)
  have hname : '\n' ∉ lyt.getCellName c := fun hmem =>
    absurd (hw.cellName c hempty _ hmem) (by decide)
  have hclock : '\n' ∉ number (lyt.clockNumber c) := by
    have hall : ∀ n < 4, '\n' ∉ [digit n] := by decide
    rw [number_eq (hw.clock c hempty)]
    exact hall _ (hw.clock c hempty)
  have hline : ∀ {p : Prop} [Decidable p] {line : List Char}, '\n' ∉ line →
      ∀ l ∈ (if p then [line] else []), '\n' ∉ l := by
    intro p _ line hline l hl
    split_ifs at hl
    · rwa [List.mem_singleton.mp hl]
    · cases hl
  refine List.forall_mem_append.mpr ⟨List.forall_mem_append.mpr ⟨List.forall_mem_append.mpr
    ⟨List.forall_mem_append.mpr ⟨?_, hline (by decide)⟩, hline (by decide)⟩, hline ?_⟩, ?_⟩
  · simp [hdesignator.symm]
  · simp [hname]
  · simp [hclock]

theorem notMem_fileLines (hw : Writable lyt) (info : VersionInfo) :
    ∀ line ∈ fileLines lyt info, '\n' ∉ line := by
  have hsep := @notMem_layerSeparator lyt
  refine List.forall_mem_append.mpr ⟨List.forall_mem_append.mpr ⟨List.forall_mem_append.mpr
    ⟨?_, ?_⟩, ?_⟩, ?_⟩
  · simp [notMem_headerLine hw info, hsep]
  · refine List.forall_mem_map.mpr fun y _ hmem => ?_
    exact mem_rowLine hw y hmem (by decide)
  · simp [hsep]
  · intro line hline
    obtain ⟨c, hc, hl⟩ := List.mem_flatMap.mp hline
    exact notMem_blockLines hw ((mem_labelledCells hw).mp hc) line hl

/-- The reader when it has seen the first layer separator. -/
theorem readCells_nil (name : List Char) : ReadCells lyt [] 0
    ⟨.new name, .layoutDefinition, 1, 0, ⟨0, 0, 0⟩, ⟨0, 0, 0⟩, fun _ => none⟩ where
  status := rfl
  layer := rfl
  row := rfl
  cellType _ := rfl
  clockNumber _ := rfl
  cellName _ := rfl
  isPi _ := rfl
  isPo _ := rfl
  numClocks := rfl
  label _ hc := by cases hc

theorem symbol_of_not_mem (hw : Writable lyt) (hc : c ∉ groundCells lyt) :
    symbolType lyt c = .empty ∧ symbolClock lyt c = 0 := by
  have hempty : lyt.isEmptyCell c = true := by
    by_contra hne
    exact hc (mem_groundCells.mpr (hw.inside c (Bool.eq_false_iff.mpr hne)))
  exact ⟨if_pos hempty, if_pos (.inl hempty)⟩

theorem ReadCells.readBlocks {row : ℕ} {st : ReadState} (hw : Writable lyt)
    (h : ReadCells lyt (groundCells lyt) row st) :
    ReadBlocks lyt [] { st with
      currentCellRow := 0, nextCellLayer := st.nextCellLayer + 1,
      parsingStatus := .cellDefinition } where
  status := rfl
  cellType c := by
    refine (h.cellType c).trans ?_
    by_cases hc : c ∈ groundCells lyt
    · exact if_pos hc
    · exact (if_neg hc).trans (symbol_of_not_mem hw hc).1.symm
  clockNumber c := by
    refine (h.clockNumber c).trans ?_
    by_cases hc : c ∈ groundCells lyt
    · exact if_pos hc
    · exact (if_neg hc).trans (symbol_of_not_mem hw hc).2.symm
  cellName := h.cellName
  isPi := h.isPi
  isPo := h.isPo
  numClocks := h.numClocks
  label c hc := h.label c (List.mem_of_mem_filter ((mem_labelledCells hw).mpr hc)) hc

/-- The file is read without an error. -/
theorem read_written (hw : Writable lyt) (info : VersionInfo) (name : List Char) :
    ∃ s, readFqcaLayout (Lines.joinLines '\n' (fileLines lyt info)) name =
        .ok (s.lyt.resize s.maxCellPos) ∧ ReadBlocks lyt (labelledCells lyt) s := by
  have hstart : ReadCells lyt ((List.range 0).flatMap (groundRow lyt)) 0 _ := readCells_nil name
  have hhead : Reads
      ⟨.new name, .layoutDefinition, 0, 0, ⟨0, 0, 0⟩, ⟨0, 0, 0⟩, fun _ => none⟩
      [headerLine lyt info, [], layerSeparator lyt]
      ⟨.new name, .layoutDefinition, 1, 0, ⟨0, 0, 0⟩, ⟨0, 0, 0⟩, fun _ => none⟩ :=
    .cons (readLine_headerLine rfl info) (.cons (readLine_nil _)
      (.single (readLine_layerSeparator rfl)))
  obtain ⟨s₁, hrows, hs₁⟩ := hstart.rows hw (k := lyt.aspectRatio.y + 1)
  rw [Nat.zero_add, ← groundCells] at hs₁
  rw [← List.range_eq_range'] at hrows
  have hsection : Reads s₁ [layerSeparator lyt, [], [], ['$'], []] { s₁ with
      currentCellRow := 0, nextCellLayer := s₁.nextCellLayer + 1,
      parsingStatus := .cellDefinition } :=
    .cons (readLine_layerSeparator hs₁.status) (.cons (readLine_nil _) (.cons (readLine_nil _)
      (.cons (readLine_section hs₁.status) (.single (readLine_nil _)))))
  have hneeds : ∀ c ∈ labelledCells lyt, needsLabel lyt c = true := fun c hc =>
    (mem_labelledCells hw).mp hc
  obtain ⟨s₂, hblocks, hs₂⟩ := (hs₁.readBlocks hw).blocks hw hneeds nodup_labelledCells
  refine ⟨s₂, ?_, hs₂⟩
  have hreads := ((hhead.append hrows).append hsection).append hblocks
  rw [readFqcaLayout, readFile, Lines.splitLines_joinLines (notMem_fileLines hw info), fileLines,
    hreads.readLines 1]
  rfl

/-- The cells of `r` are those of `lyt`, and they have the same data. -/
structure SameCells (lyt r : CellLevelLayout) : Prop where
  cellType : ∀ c, r.getCellType c = lyt.getCellType c
  cellName : ∀ c, lyt.isEmptyCell c = false → r.getCellName c = lyt.getCellName c
  isPi : ∀ c, lyt.isEmptyCell c = false → r.isPi c = lyt.isPi c
  isPo : ∀ c, lyt.isEmptyCell c = false → r.isPo c = lyt.isPo c
  clockNumber : ∀ c, lyt.isEmptyCell c = false → r.clockNumber c = lyt.clockNumber c

/-- Labelled cells have the type of their status, the other ones are no inputs or outputs, and
constant ones among them have clock number `0`. -/
structure Representable (lyt : CellLevelLayout) : Prop where
  labelled : ∀ c, lyt.isEmptyCell c = false → isLabelled lyt c = true →
    lyt.getCellType c = statusType lyt c
  unlabelled : ∀ c, lyt.isEmptyCell c = false → isLabelled lyt c = false →
    lyt.getCellType c ≠ .input ∧ lyt.getCellType c ≠ .output
  constant : ∀ c, isLabelled lyt c = false →
    lyt.getCellType c = .const0 ∨ lyt.getCellType c = .const1 → lyt.clockNumber c = 0

theorem needsLabel_eq_true (hempty : lyt.isEmptyCell c = false) (hl : isLabelled lyt c = true) :
    needsLabel lyt c = true := by
  rw [needsLabel, hempty, hl]
  rfl

theorem needsLabel_eq_false (hl : isLabelled lyt c = false) : needsLabel lyt c = false := by
  rw [needsLabel, hl, Bool.and_false]

theorem symbolType_ne (c : Cell) : symbolType lyt c ≠ .input ∧ symbolType lyt c ≠ .output := by
  unfold symbolType
  split_ifs <;> decide

/-- A cell without a label has the type that its symbol stands for. -/
theorem symbolType_eq (hl : isLabelled lyt c = false)
    (hin : lyt.isEmptyCell c = false → lyt.getCellType c ≠ .input ∧ lyt.getCellType c ≠ .output) :
    symbolType lyt c = lyt.getCellType c := by
  rw [symbolType, hl]
  cases hempty : lyt.isEmptyCell c with
  | true => exact (of_decide_eq_true hempty).symm
  | false =>
    obtain ⟨hi, ho⟩ := hin hempty
    have hne : lyt.getCellType c ≠ .empty := of_decide_eq_false hempty
    cases htype : lyt.getCellType c with
    | empty => exact absurd htype hne
    | input => exact absurd htype hi
    | output => exact absurd htype ho
    | normal | const0 | const1 => rfl

theorem symbolClock_eq (hempty : lyt.isEmptyCell c = false) (hl : isLabelled lyt c = false)
    (hconst : lyt.getCellType c = .const0 ∨ lyt.getCellType c = .const1 → lyt.clockNumber c = 0) :
    symbolClock lyt c = lyt.clockNumber c := by
  rw [symbolClock, hempty, hl]
  by_cases h : lyt.getCellType c = .const0 ∨ lyt.getCellType c = .const1
  · rw [if_pos (.inr (.inr h)), hconst h]
  · rw [if_neg]
    simpa using h

/-- A cell without a label has no name and no status. -/
theorem of_not_isLabelled (hl : isLabelled lyt c = false) :
    lyt.getCellName c = [] ∧ lyt.isPi c = false ∧ lyt.isPo c = false := by
  have h := of_decide_eq_false hl
  simp only [not_or, not_not, Bool.not_eq_true] at h
  exact h

variable {s : ReadState}

theorem ReadBlocks.sameCells (hw : Writable lyt) (h : ReadBlocks lyt (labelledCells lyt) s)
    (hr : Representable lyt) : SameCells lyt s.lyt := by
  have hmem : ∀ c, lyt.isEmptyCell c = false → (c ∈ labelledCells lyt ↔
      isLabelled lyt c = true) := by
    intro c hempty
    rw [mem_labelledCells hw, needsLabel, hempty, Bool.not_false, Bool.true_and]
  have hnot : ∀ c, c ∉ labelledCells lyt → lyt.isEmptyCell c = false →
      isLabelled lyt c = false := fun c hc hempty =>
    Bool.eq_false_iff.mpr fun hl => hc ((hmem c hempty).mpr hl)
  refine ⟨fun c => ?_, fun c hempty => ?_, fun c hempty => ?_, fun c hempty => ?_,
    fun c hempty => ?_⟩
  · rw [h.cellType]
    by_cases hc : c ∈ labelledCells lyt
    · have hn := (mem_labelledCells hw).mp hc
      have hempty := isEmptyCell_eq_false hn
      rw [if_pos hc, hr.labelled c hempty ((hmem c hempty).mp hc)]
    · rw [if_neg hc]
      cases hempty : lyt.isEmptyCell c with
      | true => exact (if_pos hempty).trans (of_decide_eq_true hempty).symm
      | false => exact symbolType_eq (hnot c hc hempty) fun hempty =>
          hr.unlabelled c hempty (hnot c hc hempty)
  · rw [h.cellName]
    split_ifs with hc
    · rfl
    · exact (of_not_isLabelled (hnot c hc hempty)).1.symm
  · rw [h.isPi]
    split_ifs with hc
    · rfl
    · exact (of_not_isLabelled (hnot c hc hempty)).2.1.symm
  · rw [h.isPo]
    split_ifs with hc
    · rfl
    · exact (of_not_isLabelled (hnot c hc hempty)).2.2.symm
  · rw [h.clockNumber]
    split_ifs with hc
    · rfl
    · have hl := hnot c hc hempty
      exact symbolClock_eq hempty hl (hr.constant c hl)

theorem ReadBlocks.representable (hw : Writable lyt) (h : ReadBlocks lyt (labelledCells lyt) s)
    (hs : SameCells lyt s.lyt) : Representable lyt := by
  have htype : ∀ c, lyt.getCellType c =
      if needsLabel lyt c then statusType lyt c else symbolType lyt c := by
    intro c
    rw [← hs.cellType, h.cellType]
    simp only [mem_labelledCells hw]
  refine ⟨fun c hempty hl => ?_, fun c hempty hl => ?_, fun c hl hconst => ?_⟩
  · rw [htype, if_pos (needsLabel_eq_true hempty hl)]
  · rw [htype, needsLabel_eq_false hl, if_neg Bool.false_ne_true]
    exact symbolType_ne c
  · have hempty : lyt.isEmptyCell c = false := by
      refine decide_eq_false fun he => ?_
      rw [he] at hconst
      rcases hconst with hc | hc <;> cases hc
    have hnot : c ∉ labelledCells lyt := fun hc => by
      have hn := (mem_labelledCells hw).mp hc
      rw [needsLabel_eq_false hl] at hn
      cases hn
    have hclock := hs.clockNumber c hempty
    rw [h.clockNumber, if_neg hnot] at hclock
    rw [← hclock]
    exact if_pos (.inr (.inr hconst))

theorem representable_of_roundTrip {ps : WriteFqcaLayoutParams} {info : VersionInfo}
    {name : List Char} (hw : Writable lyt) (h : ∃ out r, writeFqcaLayout lyt ps info = some out ∧
      readFqcaLayout out name = .ok r ∧ SameCells lyt r) : Representable lyt := by
  obtain ⟨out, r, hout, hr, hsame⟩ := h
  obtain ⟨s, hread, hs⟩ := read_written hw info name
  cases (writeFqcaLayout_eq hw info).symm.trans hout
  cases hread.symm.trans hr
  exact hs.representable hw ⟨hsame.1, hsame.2, hsame.3, hsame.4, hsame.5⟩

/-- What is written and read back is the same layout exactly if the file can represent it. -/
theorem roundTrip_iff (hw : Writable lyt) (ps : WriteFqcaLayoutParams) (info : VersionInfo)
    (name : List Char) :
    (∃ out r, writeFqcaLayout lyt ps info = some out ∧ readFqcaLayout out name = .ok r ∧
      SameCells lyt r) ↔ Representable lyt := by
  refine ⟨representable_of_roundTrip hw, fun hr => ?_⟩
  obtain ⟨s, hread, hs⟩ := read_written hw info name
  have hsame := hs.sameCells hw hr
  exact ⟨_, _, writeFqcaLayout_eq hw info, hread, hsame.1, hsame.2, hsame.3, hsame.4, hsame.5⟩

/-- A named input and a normal cell with clock number `1`. -/
def inputWire : CellLevelLayout :=
  (((((CellLevelLayout.new []).resize ⟨1, 0, 0⟩).assignCellType ⟨0, 0, 0⟩ .input).assignCellName
    ⟨0, 0, 0⟩ ['a']).assignCellType ⟨1, 0, 0⟩ .normal).assignClockNumber ⟨1, 0, 0⟩ 1

/-- A constant cell with clock number `1`. -/
def constantCell (name : List Char) : CellLevelLayout :=
  (((CellLevelLayout.new []).assignCellType ⟨0, 0, 0⟩ .const1).assignCellName ⟨0, 0, 0⟩
    name).assignClockNumber ⟨0, 0, 0⟩ 1

def noVersion : VersionInfo := ⟨[], [], List.not_mem_nil, List.not_mem_nil⟩

theorem notSpace_a : ∀ a ∈ ['a'], isSpace a = false := by
  intro a ha
  rw [List.mem_singleton.mp ha]
  decide

theorem inputWire_cases (hempty : inputWire.isEmptyCell c = false) :
    c = ⟨0, 0, 0⟩ ∨ c = ⟨1, 0, 0⟩ := by
  by_contra hne
  rw [not_or] at hne
  refine of_decide_eq_false hempty ?_
  change Function.update (Function.update _ _ _) _ _ c = _
  rw [Function.update_of_ne hne.2, Function.update_of_ne hne.1]
  rfl

theorem writable_inputWire : Writable inputWire where
  layer := rfl
  inside c hc := by rcases inputWire_cases hc with rfl | rfl <;> decide
  clock c hc := by rcases inputWire_cases hc with rfl | rfl <;> decide
  cellName c hc := by
    rcases inputWire_cases hc with rfl | rfl
    · exact notSpace_a
    · exact fun a ha => absurd ha List.not_mem_nil
  layoutName := List.not_mem_nil
  fits := by decide +kernel

theorem representable_inputWire : Representable inputWire where
  labelled c hc := by rcases inputWire_cases hc with rfl | rfl <;> decide
  unlabelled c hc := by rcases inputWire_cases hc with rfl | rfl <;> decide
  constant c _ hconst := by
    have hc : inputWire.isEmptyCell c = false := by
      refine decide_eq_false fun he => ?_
      rw [he] at hconst
      rcases hconst with hc | hc <;> cases hc
    rcases inputWire_cases hc with rfl | rfl
    · exact absurd hconst (by decide)
    · exact absurd hconst (by decide)

theorem inputWire_roundTrip : ∃ out r, writeFqcaLayout inputWire {} noVersion = some out ∧
    readFqcaLayout out [] = .ok r ∧ SameCells inputWire r :=
  (roundTrip_iff writable_inputWire {} noVersion []).mpr representable_inputWire

theorem constantCell_cases {name : List Char} (hempty : (constantCell name).isEmptyCell c = false) :
    c = ⟨0, 0, 0⟩ := by
  by_contra hne
  refine of_decide_eq_false hempty ?_
  change Function.update _ _ _ c = _
  rw [Function.update_of_ne hne]
  rfl

theorem writable_constantCell {name : List Char} (hname : ∀ a ∈ name, isSpace a = false) :
    Writable (constantCell name) where
  layer := rfl
  inside c hc := by
    rw [constantCell_cases hc]
    exact ⟨le_rfl, le_rfl, rfl⟩
  clock c hc := by
    rw [constantCell_cases hc]
    change 1 < 4
    decide
  cellName c hc := by
    rw [constantCell_cases hc]
    exact hname
  layoutName := List.not_mem_nil
  fits := by
    refine (List.length_filter_le _ _).trans ?_
    change 1 ≤ 52
    decide

/-- Without a name the cell loses its clock number, and with one its type. -/
theorem constantCell_not_roundTrip :
    (Writable (constantCell []) ∧ ¬ ∃ out r, writeFqcaLayout (constantCell []) {} noVersion =
      some out ∧ readFqcaLayout out [] = .ok r ∧ SameCells (constantCell []) r) ∧
    Writable (constantCell ['a']) ∧ ¬ ∃ out r, writeFqcaLayout (constantCell ['a']) {} noVersion =
      some out ∧ readFqcaLayout out [] = .ok r ∧ SameCells (constantCell ['a']) r := by
  have hw := @writable_constantCell [] fun a ha => absurd ha List.not_mem_nil
  have hw' := @writable_constantCell ['a'] notSpace_a
  refine ⟨⟨hw, fun hround => ?_⟩, hw', fun hround => ?_⟩
  · have h := (representable_of_roundTrip hw hround).constant ⟨0, 0, 0⟩
    exact absurd h (by decide)
  · have h := (representable_of_roundTrip hw' hround).labelled ⟨0, 0, 0⟩
    exact absurd h (by decide)

end RoundTrip

end Fiction.Fqca
