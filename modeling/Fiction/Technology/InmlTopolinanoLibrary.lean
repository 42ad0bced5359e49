import Fiction.Library.TransitionSystem
import Fiction.Layouts.CellStorage
import Fiction.Layouts.CoordinateLayout

/-!
# Straightening of nanomagnet wires

`post_layout_optimization` scans the rows of a cell-level layout for humps and merges them with the
row below or above, until a sweep finds no more of them. The range of cells above or below which it
looks for free space has no meaning for a hump of two cells, which is modelled as `none`.
-/

namespace Fiction

namespace InmlTopolinanoLibrary

/-- Nanomagnets do not have modes. -/
abbrev CellLyt := CellStorage Ucoord InmlCellType Unit

inductive Status where
  | search | collect | skip
  deriving DecidableEq

structure ScanState where
  st : Status
  hump : List Ucoord
  strg : CellLyt
  improvementFound : Bool

inductive Direction where
  | down | up
  deriving DecidableEq

section Definitions

variable (lyt : CoordinateLayout)

def next : Direction → Ucoord → Ucoord
  | .down => lyt.south
  | .up => CoordinateLayout.north

def isUpperHump (strg : CellLyt) (hump : List Ucoord) : Bool :=
  match hump.head?, hump.getLast? with
  | some front, some back =>
    let inp := strg.getCellType front
    let out := strg.getCellType back
    let fts := strg.getCellType (lyt.south front)
    let bts := strg.getCellType (lyt.south back)
    (inp = .input ∨ fts = .normal) ∧ (bts = .normal ∨ out = .output ∨ bts = .inverterMagnet)
  | _, _ => false

def isLowerHump (strg : CellLyt) (hump : List Ucoord) : Bool :=
  match hump.head?, hump.getLast? with
  | some front, some back =>
    let inp := strg.getCellType front
    let out := strg.getCellType back
    let ftn := strg.getCellType (CoordinateLayout.north front)
    let btn := strg.getCellType (CoordinateLayout.north back)
    (inp = .input ∨ ftn = .normal) ∧ (btn = .normal ∨ out = .output)
  | _, _ => false

/-- The cells of `[begin + 1, end - 2)`, if this is a range. -/
def innerCells (hump : List Ucoord) : Option (List Ucoord) :=
  if 1 ≤ hump.length - 2 then some ((hump.drop 1).take (hump.length - 3)) else none

def hasSpace (dir : Direction) (strg : CellLyt) (hump : List Ucoord) : Option Bool := do
  some ((← innerCells hump).all fun hc => strg.isEmptyCell (next lyt dir (next lyt dir hc)))

def stays (dir : Direction) (strg : CellLyt) (c : Ucoord) : Bool :=
  dir = .down ∧ strg.getCellType c = .inverterMagnet

def mergeCell (dir : Direction) (strg : CellLyt) (hc : Ucoord) : CellLyt :=
  let n := next lyt dir hc
  let merged :=
    if stays dir strg n then strg
    else
      let strg₁ := strg.assignCellType n (strg.getCellType hc)
      let strg₂ := strg₁.assignCellMode n (strg₁.getCellMode hc)
      strg₂.assignCellName n (strg₂.getCellName hc)
  (merged.assignCellType hc .empty).assignCellName hc []

def merge (dir : Direction) (strg : CellLyt) (hump : List Ucoord) : CellLyt :=
  hump.foldl (mergeCell lyt dir) strg

def mergeHump (dir : Direction) (s : ScanState) : Option ScanState := do
  if ← hasSpace lyt dir s.strg s.hump then
    some { s with strg := merge lyt dir s.strg s.hump, improvementFound := true }
  else some s

def handle (s : ScanState) : Option ScanState :=
  if s.hump.length > 1 then
    if isUpperHump lyt s.strg s.hump then mergeHump lyt .down s
    else if isLowerHump s.strg s.hump then mergeHump lyt .up s
    else some s
  else some s

/-- One step of the state machine that identifies humps. -/
def scanCell (row : ℕ) (s : ScanState) (column : ℕ) : Option ScanState :=
  let c := Ucoord.at2 column row
  match s.st, s.strg.getCellType c with
  | .search, .normal | .search, .input | .search, .inverterMagnet =>
    some { s with st := .collect, hump := s.hump ++ [c] }
  | .search, .empty => some s
  | .search, _ => some { s with st := .skip }
  | .collect, .normal | .collect, .inverterMagnet => some { s with hump := s.hump ++ [c] }
  | .collect, .empty | .collect, .output => do
    let s' ← handle lyt s
    some { s' with st := .search, hump := [] }
  | .collect, _ => some { s with st := .skip, hump := [] }
  | .skip, .empty => some { s with st := .search }
  | .skip, _ => some s

def scanRow (s : ScanState) (row : ℕ) : Option ScanState :=
  (List.range (lyt.x + 1)).foldlM (scanCell lyt row) { s with hump := [] }

def start (strg : CellLyt) : ScanState := ⟨.search, [], strg, false⟩

def sweep (strg : CellLyt) : Option ScanState :=
  (List.range (lyt.y + 1)).foldlM (scanRow lyt) (start strg)

/-- `none` if a range is invalid, `some none` if the loop runs out of fuel. -/
def postLayoutOptimization : ℕ → CellLyt → Option (Option CellLyt)
  | 0, _ => some none
  | fuel + 1, strg => do
    let s ← sweep lyt strg
    if s.improvementFound then postLayoutOptimization fuel s.strg else some (some s.strg)

end Definitions

section Runs

variable (lyt : CoordinateLayout)

structure Turn (strg : CellLyt) (row column : ℕ) (s : ScanState) : Prop where
  row_le : row ≤ lyt.y
  column_le : column ≤ lyt.x
  scanned : ∃ r, (List.range row).foldlM (scanRow lyt) (start strg) = some r ∧
    (List.range column).foldlM (scanCell lyt row) { r with hump := [] } = some s

/-- A hump ends in the next cell of a sweep. -/
def HandsOver (strg : CellLyt) (s : ScanState) : Prop :=
  ∃ row column, Turn lyt strg row column s ∧ s.st = .collect ∧
    (s.strg.getCellType (.at2 column row) = .empty ∨ s.strg.getCellType (.at2 column row) = .output)

/-- A sequence that is checked for space in one direction. -/
def IsHump (dir : Direction) (strg : CellLyt) (hump : List Ucoord) : Prop :=
  1 < hump.length ∧ match dir with
    | .down => isUpperHump lyt strg hump = true
    | .up => isUpperHump lyt strg hump = false ∧ isLowerHump strg hump = true

structure Merges (strg : CellLyt) (dir : Direction) (s : ScanState) : Prop where
  handsOver : HandsOver lyt strg s
  isHump : IsHump lyt dir s.strg s.hump
  hasSpace : hasSpace lyt dir s.strg s.hump = some true

/-- The storages with which the sweeps of a run start. -/
inductive SweepsFrom (strg : CellLyt) : CellLyt → Prop
  | refl : SweepsFrom strg strg
  | step {strg' : CellLyt} {s : ScanState} (h : SweepsFrom strg strg')
      (hs : sweep lyt strg' = some s) (himp : s.improvementFound = true) : SweepsFrom strg s.strg

end Runs

section Handle

variable {lyt : CoordinateLayout} {strg : CellLyt} {s s' : ScanState}

theorem exists_hasSpace_iff {dir : Direction} {hump : List Ucoord} (h : 1 < hump.length) :
    (∃ b, hasSpace lyt dir strg hump = some b) ↔ hump.length ≠ 2 := by
  have hspace : hasSpace lyt dir strg hump = (innerCells hump).map fun cells =>
      cells.all fun hc => strg.isEmptyCell (next lyt dir (next lyt dir hc)) := by
    rw [hasSpace]
    cases innerCells hump <;> rfl
  rw [hspace, innerCells]
  split_ifs with hrange
  · exact iff_of_true ⟨_, rfl⟩ (by omega)
  · exact iff_of_false (by simp) (by omega)

theorem exists_mergeHump_iff {dir : Direction} (h : 1 < s.hump.length) :
    (∃ s', mergeHump lyt dir s = some s') ↔ s.hump.length ≠ 2 := by
  rw [← @exists_hasSpace_iff lyt s.strg dir _ h, mergeHump]
  cases hasSpace lyt dir s.strg s.hump with
  | none => simp
  | some b => cases b <;> simp

theorem exists_handle_iff : (∃ s', handle lyt s = some s') ↔
    (s.hump.length = 2 → ∀ dir, ¬ IsHump lyt dir s.strg s.hump) := by
  rw [handle]
  by_cases hlen : s.hump.length > 1
  · rw [if_pos hlen]
    by_cases hup : isUpperHump lyt s.strg s.hump = true
    · rw [if_pos hup, exists_mergeHump_iff hlen]
      exact ⟨fun h h₂ => absurd h₂ h, fun h h₂ => h h₂ .down ⟨hlen, hup⟩⟩
    · rw [if_neg hup]
      rw [Bool.not_eq_true] at hup
      by_cases hlow : isLowerHump s.strg s.hump = true
      · rw [if_pos hlow, exists_mergeHump_iff hlen]
        exact ⟨fun h h₂ => absurd h₂ h, fun h h₂ => h h₂ .up ⟨hlen, hup, hlow⟩⟩
      · rw [if_neg hlow]
        refine iff_of_true ⟨s, rfl⟩ fun _ dir hhump => ?_
        cases dir with
        | down => exact absurd (hup.symm.trans hhump.2) (by decide)
        | up => exact hlow hhump.2.2
  · rw [if_neg hlen]
    exact iff_of_true ⟨s, rfl⟩ fun _ _ hhump => hlen hhump.1

theorem mergeHump_cases {dir : Direction} (h : mergeHump lyt dir s = some s') :
    s' = s ∨ hasSpace lyt dir s.strg s.hump = some true ∧
      s' = { s with strg := merge lyt dir s.strg s.hump, improvementFound := true } := by
  rw [mergeHump] at h
  obtain ⟨b, hb, h⟩ := Option.bind_eq_some_iff.mp h
  cases b with
  | false => exact .inl (Option.some.inj h).symm
  | true => exact .inr ⟨hb, (Option.some.inj h).symm⟩

theorem handle_cases (h : handle lyt s = some s') :
    s' = s ∨ ∃ dir, IsHump lyt dir s.strg s.hump ∧
      hasSpace lyt dir s.strg s.hump = some true ∧
      s' = { s with strg := merge lyt dir s.strg s.hump, improvementFound := true } := by
  rw [handle] at h
  split_ifs at h with hlen hup hlow
  · exact (mergeHump_cases h).imp id fun hm => ⟨.down, ⟨hlen, hup⟩, hm⟩
  · exact (mergeHump_cases h).imp id fun hm =>
      ⟨.up, ⟨hlen, Bool.eq_false_iff.mpr hup, hlow⟩, hm⟩
  · exact .inl (Option.some.inj h).symm
  · exact .inl (Option.some.inj h).symm

end Handle

section Scan

variable {lyt : CoordinateLayout} {strg : CellLyt} {s s' : ScanState} {row column : ℕ}

/-- The cell types of which a hump consists. -/
def Collectable (t : InmlCellType) : Prop := t = .normal ∨ t = .input ∨ t = .inverterMagnet

theorem scanCell_cases (h : scanCell lyt row s column = some s') :
    ((s.st = .search ∨ s.st = .collect) ∧
      Collectable (s.strg.getCellType (.at2 column row)) ∧
      s' = { s with st := .collect, hump := s.hump ++ [.at2 column row] }) ∨
    (s.st = .collect ∧ (s.strg.getCellType (.at2 column row) = .empty ∨
        s.strg.getCellType (.at2 column row) = .output) ∧
      ∃ s₁, handle lyt s = some s₁ ∧ s' = { s₁ with st := .search, hump := [] }) ∨
    (s.st = .collect ∧ s' = { s with st := .skip, hump := [] }) ∨
    (s.st ≠ .collect ∧ ∃ st, st ≠ .collect ∧ s' = { s with st := st }) := by
  obtain ⟨st, hump, strg, found⟩ := s
  cases st with
  | search =>
    cases ht : strg.getCellType (.at2 column row) <;>
      simp only [scanCell, ht, Option.some.injEq] at h <;> subst h <;>
      simp [Collectable]
  | collect =>
    cases ht : strg.getCellType (.at2 column row) <;>
      simp only [scanCell, ht, Option.some.injEq] at h
    all_goals first
      | (obtain ⟨s₁, hs₁, h⟩ := Option.bind_eq_some_iff.mp h
         simp only [Option.some.injEq] at h
         subst h
         simp [hs₁])
      | (subst h
         simp [Collectable])
  | skip =>
    cases ht : strg.getCellType (.at2 column row) <;>
      simp only [scanCell, ht, Option.some.injEq] at h <;> subst h <;>
      simp

theorem exists_scanCell_iff : (∃ s', scanCell lyt row s column = some s') ↔
    (s.st = .collect → (s.strg.getCellType (.at2 column row) = .empty ∨
      s.strg.getCellType (.at2 column row) = .output) → ∃ s', handle lyt s = some s') := by
  obtain ⟨st, hump, strg, found⟩ := s
  cases st <;> cases ht : strg.getCellType (.at2 column row) <;>
    simp [scanCell, ht, Option.bind_eq_some_iff]

structure Collected (row column : ℕ) (s : ScanState) : Prop where
  nodup : s.hump.Nodup
  inRow : ∀ hc ∈ s.hump, ∃ k < column, hc = .at2 k row
  types : ∀ hc ∈ s.hump, Collectable (s.strg.getCellType hc)
  idle : s.st ≠ .collect → s.hump = []

theorem Collected.of_nil (h : s.hump = []) : Collected row column s where
  nodup := by rw [h]; exact List.nodup_nil
  inRow := by simp [h]
  types := by simp [h]
  idle _ := h

theorem Collected.scanCell (h : Collected row column s)
    (hs : scanCell lyt row s column = some s') : Collected row (column + 1) s' := by
  rcases scanCell_cases hs with ⟨-, ht, rfl⟩ | ⟨-, -, s₁, -, rfl⟩ | ⟨-, rfl⟩ | ⟨hst, st, -, rfl⟩
  · have hnew : Ucoord.at2 column row ∉ s.hump := by
      intro hmem
      obtain ⟨k, hk, he⟩ := h.inRow _ hmem
      have hx : column = k := congrArg Ucoord.x he
      omega
    refine ⟨List.nodup_append.mpr ⟨h.nodup, List.nodup_singleton _, ?_⟩, ?_, ?_,
      fun hst => absurd rfl hst⟩
    · rintro a ha b hb rfl
      exact hnew (List.mem_singleton.mp hb ▸ ha)
    · intro hc hmem
      rcases List.mem_append.mp hmem with hmem | hmem
      · obtain ⟨k, hk, he⟩ := h.inRow hc hmem
        exact ⟨k, Nat.lt_succ_of_lt hk, he⟩
      · exact ⟨column, Nat.lt_succ_self column, List.mem_singleton.mp hmem⟩
    · intro hc hmem
      rcases List.mem_append.mp hmem with hmem | hmem
      · exact h.types hc hmem
      · rw [List.mem_singleton.mp hmem]
        exact ht
  · exact .of_nil rfl
  · exact .of_nil rfl
  · exact .of_nil (h.idle hst)

theorem Turn.collected (h : Turn lyt strg row column s) : Collected row column s := by
  obtain ⟨r, -, hs⟩ := h.scanned
  exact invariant_foldlM_range (fun k _ s₁ s₂ _ hs₁ hs₂ => hs₁.scanCell hs₂) (.of_nil rfl) column
    le_rfl s hs

theorem invariant_sweep {I : CellLyt → Bool → Prop} (hinit : I strg false)
    (hmerge : ∀ dir s, Merges lyt strg dir s → I s.strg s.improvementFound →
      I (merge lyt dir s.strg s.hump) true) :
    (∀ row column s, Turn lyt strg row column s → I s.strg s.improvementFound) ∧
      ∀ s, sweep lyt strg = some s → I s.strg s.improvementFound := by
  have hcell : ∀ row column s s', Turn lyt strg row column s →
      scanCell lyt row s column = some s' → I s.strg s.improvementFound →
      I s'.strg s'.improvementFound := by
    intro row column s s' hturn hs' hI
    rcases scanCell_cases hs' with
      ⟨-, -, rfl⟩ | ⟨hst, ht, s₁, hs₁, rfl⟩ | ⟨-, rfl⟩ | ⟨-, st, -, rfl⟩
    · exact hI
    · rcases handle_cases hs₁ with rfl | ⟨dir, hhump, hspace, rfl⟩
      · exact hI
      · exact hmerge dir s ⟨⟨row, column, hturn, hst, ht⟩, hhump, hspace⟩ hI
    · exact hI
    · exact hI
  have hcells : ∀ row ≤ lyt.y, ∀ r, (List.range row).foldlM (scanRow lyt) (start strg) = some r →
      I r.strg r.improvementFound → ∀ column ≤ lyt.x + 1, ∀ s,
        (List.range column).foldlM (scanCell lyt row) { r with hump := [] } = some s →
          I s.strg s.improvementFound := fun row hrow r hr hI =>
    invariant_foldlM_range (fun k hk s₁ s₂ hs₁ hI₁ hs₂ =>
      hcell row k s₁ s₂ ⟨hrow, Nat.lt_succ_iff.mp hk, r, hr, hs₁⟩ hs₂ hI₁) hI
  have hrows : ∀ row ≤ lyt.y + 1, ∀ r,
      (List.range row).foldlM (scanRow lyt) (start strg) = some r → I r.strg r.improvementFound :=
    invariant_foldlM_range (fun k hk s₁ s₂ hs₁ hI₁ hs₂ =>
      hcells k (Nat.lt_succ_iff.mp hk) s₁ hs₁ hI₁ _ le_rfl s₂ hs₂) hinit
  constructor
  · intro row column s h
    obtain ⟨r, hr, hs⟩ := h.scanned
    exact hcells row h.row_le r hr (hrows row (Nat.le_succ_of_le h.row_le) r hr) column
      (Nat.le_succ_of_le h.column_le) s hs
  · exact hrows _ le_rfl

theorem exists_sweep_iff : (∃ s, sweep lyt strg = some s) ↔
    ∀ s, HandsOver lyt strg s → s.hump.length = 2 → ∀ dir, ¬ IsHump lyt dir s.strg s.hump := by
  rw [sweep, exists_foldlM_range_iff]
  simp only [scanRow, exists_foldlM_range_iff, exists_scanCell_iff, exists_handle_iff]
  constructor
  · rintro h s ⟨row, column, ⟨hrow, hcolumn, r, hr, hs⟩, hst, ht⟩
    exact h row (Nat.lt_succ_of_le hrow) r hr column (Nat.lt_succ_of_le hcolumn) s hs hst ht
  · intro h row hrow r hr column hcolumn s hs hst ht
    exact h s ⟨row, column, ⟨Nat.le_of_lt_succ hrow, Nat.le_of_lt_succ hcolumn, r, hr, hs⟩, hst, ht⟩

end Scan

end InmlTopolinanoLibrary

end Fiction
