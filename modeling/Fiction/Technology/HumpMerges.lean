import Fiction.Technology.InmlTopolinanoLibrary

/-!
# Termination of the wire straightening

Merging a hump moves its cells to the next row. The last of them is always merged onto another cell,
or all of them are erased at the border, so that every merge leaves fewer cells. The optimization
therefore ends unless it reads an invalid range.
-/

namespace Fiction

namespace InmlTopolinanoLibrary

/-- Everything that is stored for a cell. -/
def contents (strg : CellLyt) (c : Ucoord) : InmlCellType × Unit × List Char :=
  (strg.getCellType c, strg.getCellMode c, strg.getCellName c)

section MergeCell

variable {lyt : CoordinateLayout} {dir : Direction} {strg : CellLyt} {hc c : Ucoord}

/-- A cell is moved, except that an inverter magnet may stay in its place. -/
theorem contents_mergeCell : contents (mergeCell lyt dir strg hc) c =
    if c = hc then (.empty, (), [])
    else if c = next lyt dir hc ∧ stays dir strg c = false then contents strg hc
    else contents strg c := by
  rw [mergeCell]
  simp only [contents, CellStorage.getCellType_assignCellName,
    CellStorage.getCellType_assignCellType, CellStorage.getCellName_assignCellName,
    CellStorage.getCellName_assignCellType]
  by_cases hc' : c = hc
  · rw [if_pos hc'.symm, if_pos hc', if_pos hc']
  · rw [if_neg (Ne.symm hc'), if_neg hc', if_neg hc']
    by_cases hst : stays dir strg (next lyt dir hc) = true
    · rw [if_pos hst, if_neg]
      rintro ⟨rfl, hst'⟩
      exact absurd (hst.symm.trans hst') (by decide)
    · rw [if_neg hst]
      simp only [CellStorage.getCellType_assignCellName, CellStorage.getCellType_assignCellMode,
        CellStorage.getCellType_assignCellType, CellStorage.getCellName_assignCellName,
        CellStorage.getCellName_assignCellMode, CellStorage.getCellName_assignCellType]
      by_cases hn : c = next lyt dir hc
      · rw [if_pos hn.symm, if_pos hn, if_pos ⟨hn, hn ▸ Bool.eq_false_iff.mpr hst⟩]
      · rw [if_neg (Ne.symm hn), if_neg hn, if_neg fun h => hn h.1]

theorem getCellType_mergeCell : (mergeCell lyt dir strg hc).getCellType c =
    if c = hc then .empty
    else if c = next lyt dir hc ∧ stays dir strg c = false then strg.getCellType hc
    else strg.getCellType c := by
  have h := congrArg Prod.fst (@contents_mergeCell lyt dir strg hc c)
  rwa [apply_ite Prod.fst, apply_ite Prod.fst] at h

end MergeCell

/-- Cells that are merged onto different cells, which are not among them except at the border. -/
structure Apart (lyt : CoordinateLayout) (dir : Direction) (hump : List Ucoord) : Prop where
  nodup : hump.Nodup
  injective : ∀ hc ∈ hump, ∀ hc' ∈ hump, next lyt dir hc = next lyt dir hc' → hc = hc'
  fixed : ∀ hc ∈ hump, next lyt dir hc ∈ hump → next lyt dir hc = hc

section Merge

variable {lyt : CoordinateLayout} {dir : Direction} {strg : CellLyt} {hc c : Ucoord}
  {hump : List Ucoord}

theorem Apart.tail (h : Apart lyt dir (hc :: hump)) : Apart lyt dir hump where
  nodup := h.nodup.of_cons
  injective c hc c' hc' := h.injective c (.tail _ hc) c' (.tail _ hc')
  fixed c hc hn := h.fixed c (.tail _ hc) (.tail _ hn)

theorem Apart.contents_mergeCell (h : Apart lyt dir (hc :: hump)) {hc' : Ucoord}
    (hmem : hc' ∈ hump) : contents (mergeCell lyt dir strg hc) hc' = contents strg hc' ∧
      contents (mergeCell lyt dir strg hc) (next lyt dir hc') =
        contents strg (next lyt dir hc') := by
  have hne : hc' ≠ hc := fun he => h.nodup.notMem (he ▸ hmem)
  have hnext : hc' ≠ next lyt dir hc := by
    intro he
    have hfix := h.fixed hc (.head _) (he ▸ .tail _ hmem)
    exact hne (he.trans hfix)
  have hnext' : next lyt dir hc' ≠ hc := by
    intro he
    have hfix := h.fixed hc' (.tail _ hmem) (by rw [he]; exact .head _)
    exact hne (hfix.symm.trans he)
  have hnn : next lyt dir hc' ≠ next lyt dir hc := fun he =>
    hne (h.injective hc' (.tail _ hmem) hc (.head _) he)
  constructor
  · rw [InmlTopolinanoLibrary.contents_mergeCell, if_neg hne, if_neg fun h => hnext h.1]
  · rw [InmlTopolinanoLibrary.contents_mergeCell, if_neg hnext', if_neg fun h => hnn h.1]

theorem stays_congr {strg' : CellLyt} (h : contents strg' c = contents strg c) :
    stays dir strg' c = stays dir strg c := by
  have ht : strg'.getCellType c = strg.getCellType c := congrArg Prod.fst h
  rw [stays, stays, ht]

theorem contents_merge_of_forall_ne (hne : c ∉ hump) (hnext : ∀ hc ∈ hump, next lyt dir hc ≠ c) :
    contents (merge lyt dir strg hump) c = contents strg c := by
  induction hump generalizing strg with
  | nil => rfl
  | cons hc hump ih =>
    rw [List.mem_cons, not_or] at hne
    rw [merge, List.foldl_cons]
    refine (ih hne.2 fun hc' hmem => hnext hc' (.tail _ hmem)).trans ?_
    rw [contents_mergeCell, if_neg hne.1, if_neg fun h => hnext hc (.head _) h.1.symm]

theorem contents_merge_of_mem (h : Apart lyt dir hump) (hmem : c ∈ hump) :
    contents (merge lyt dir strg hump) c = (.empty, (), []) := by
  induction hump generalizing strg with
  | nil => exact absurd hmem List.not_mem_nil
  | cons hc hump ih =>
    rw [merge, List.foldl_cons]
    rcases List.mem_cons.mp hmem with rfl | hmem
    · refine (contents_merge_of_forall_ne h.nodup.notMem fun hc' hc'' he => ?_).trans ?_
      · have hfix := h.fixed hc' (.tail _ hc'') (by rw [he]; exact .head _)
        exact h.nodup.notMem (by rwa [← he, hfix])
      · rw [contents_mergeCell, if_pos rfl]
    · exact ih h.tail hmem

theorem contents_merge_next (h : Apart lyt dir hump) (hmem : hc ∈ hump)
    (hne : next lyt dir hc ≠ hc) : contents (merge lyt dir strg hump) (next lyt dir hc) =
      if stays dir strg (next lyt dir hc) then contents strg (next lyt dir hc)
      else contents strg hc := by
  induction hump generalizing strg with
  | nil => exact absurd hmem List.not_mem_nil
  | cons hd hump ih =>
    rw [merge, List.foldl_cons]
    rcases List.mem_cons.mp hmem with rfl | hmem
    · refine (contents_merge_of_forall_ne (fun hn => ?_) fun hc' hc'' he => ?_).trans ?_
      · exact hne (h.fixed hc (.head _) (.tail _ hn))
      · exact h.nodup.notMem (h.injective hc' (.tail _ hc'') hc (.head _) he ▸ hc'')
      · rw [contents_mergeCell, if_neg hne]
        by_cases hst : stays dir strg (next lyt dir hc) = true
        · rw [if_pos hst, if_neg fun h => absurd (hst.symm.trans h.2) (by decide)]
        · rw [if_neg hst, if_pos ⟨rfl, Bool.eq_false_iff.mpr hst⟩]
    · obtain ⟨hc₁, hc₂⟩ := @Apart.contents_mergeCell lyt dir strg _ _ h _ hmem
      refine (ih h.tail hmem).trans ?_
      rw [stays_congr hc₂, hc₁, hc₂]

/-- The row that the cells of a row are merged onto. -/
def nextRow (lyt : CoordinateLayout) : Direction → ℕ → ℕ
  | .down, row => if row < lyt.y then row + 1 else row
  | .up, row => row - 1

theorem next_at2 {row : ℕ} (hrow : row ≤ lyt.y) (column : ℕ) :
    next lyt dir (.at2 column row) = .at2 column (nextRow lyt dir row) := by
  cases dir with
  | down =>
    have hy : ¬ (Ucoord.at2 column row).y > lyt.y := Nat.not_lt.mpr hrow
    rw [next, nextRow, CoordinateLayout.south, if_neg hy]
    exact (apply_ite (Ucoord.at2 column) _ _ _).symm
  | up =>
    rw [next, nextRow, CoordinateLayout.north]
    split_ifs with h
    · rw [show row = 0 from h]
    · rfl

theorem nextRow_le {row : ℕ} (hrow : row ≤ lyt.y) : nextRow lyt dir row ≤ lyt.y := by
  cases dir with
  | down =>
    rw [nextRow]
    split_ifs <;> omega
  | up => exact (Nat.sub_le row 1).trans hrow

theorem Collected.apart {row column : ℕ} {s : ScanState} (h : Collected row column s)
    (hrow : row ≤ lyt.y) : Apart lyt dir s.hump := by
  refine ⟨h.nodup, fun hc hmem hc' hmem' he => ?_, fun hc hmem hn => ?_⟩
  · obtain ⟨k, -, rfl⟩ := h.inRow hc hmem
    obtain ⟨k', -, rfl⟩ := h.inRow hc' hmem'
    rw [next_at2 hrow, next_at2 hrow] at he
    rw [show k = k' from congrArg Ucoord.x he]
  · obtain ⟨k, -, rfl⟩ := h.inRow hc hmem
    rw [next_at2 hrow] at hn ⊢
    obtain ⟨k', -, he⟩ := h.inRow _ hn
    rw [show nextRow lyt dir row = row from congrArg Ucoord.y he]

end Merge

section Occupied

variable {lyt : CoordinateLayout} {dir : Direction} {strg : CellLyt} {hc c : Ucoord}
  {hump : List Ucoord}

/-- The ground cells within the aspect ratio. -/
def ground (lyt : CoordinateLayout) : Finset Ucoord :=
  (Finset.range (lyt.x + 1) ×ˢ Finset.range (lyt.y + 1)).image fun p => .at2 p.1 p.2

def occupied (lyt : CoordinateLayout) (strg : CellLyt) : Finset Ucoord :=
  (ground lyt).filter fun c => strg.getCellType c ≠ .empty

theorem at2_mem_ground {row column : ℕ} (hrow : row ≤ lyt.y) (hcolumn : column ≤ lyt.x) :
    Ucoord.at2 column row ∈ ground lyt :=
  Finset.mem_image.mpr ⟨(column, row), by simpa using ⟨hcolumn, hrow⟩, rfl⟩

theorem mem_occupied : c ∈ occupied lyt strg ↔ c ∈ ground lyt ∧ strg.getCellType c ≠ .empty :=
  Finset.mem_filter

theorem occupied_mergeCell (hmem : hc ∈ occupied lyt strg) (hn : next lyt dir hc ∈ ground lyt) :
    occupied lyt (mergeCell lyt dir strg hc) =
      (insert (next lyt dir hc) (occupied lyt strg)).erase hc := by
  ext c
  rw [mem_occupied, getCellType_mergeCell, Finset.mem_erase, Finset.mem_insert, mem_occupied]
  by_cases hc' : c = hc
  · simp [hc']
  · rw [if_neg hc']
    by_cases hcn : c = next lyt dir hc
    · subst hcn
      refine iff_of_true ⟨hn, ?_⟩ ⟨hc', .inl rfl⟩
      split_ifs with hst
      · exact (mem_occupied.mp hmem).2
      · have hst' : stays dir strg (next lyt dir hc) = true := by simpa using hst
        have ht : strg.getCellType (next lyt dir hc) = .inverterMagnet :=
          (of_decide_eq_true hst').2
        simp [ht]
    · rw [if_neg fun h => hcn h.1]
      simp [hc', hcn]

theorem card_occupied_mergeCell_le (hmem : hc ∈ occupied lyt strg)
    (hn : next lyt dir hc ∈ ground lyt) :
    (occupied lyt (mergeCell lyt dir strg hc)).card ≤ (occupied lyt strg).card := by
  rw [occupied_mergeCell hmem hn, Finset.card_erase_of_mem (Finset.mem_insert_of_mem hmem)]
  exact Nat.sub_le_of_le_add (Finset.card_insert_le _ _)

theorem card_occupied_mergeCell_lt (hmem : hc ∈ occupied lyt strg)
    (hn : next lyt dir hc ∈ occupied lyt strg) :
    (occupied lyt (mergeCell lyt dir strg hc)).card < (occupied lyt strg).card := by
  rw [occupied_mergeCell hmem (mem_occupied.mp hn).1, Finset.insert_eq_of_mem hn]
  exact Finset.card_erase_lt_of_mem hmem

theorem mem_occupied_congr {strg' : CellLyt} (h : contents strg' c = contents strg c) :
    c ∈ occupied lyt strg' ↔ c ∈ occupied lyt strg := by
  have ht : strg'.getCellType c = strg.getCellType c := congrArg Prod.fst h
  rw [mem_occupied, mem_occupied, ht]

theorem card_occupied_merge (h : Apart lyt dir hump) (hmem : ∀ hc ∈ hump, hc ∈ occupied lyt strg)
    (hn : ∀ hc ∈ hump, next lyt dir hc ∈ ground lyt) :
    (occupied lyt (merge lyt dir strg hump)).card ≤ (occupied lyt strg).card ∧
      ((∃ hc ∈ hump, next lyt dir hc ∈ occupied lyt strg) →
        (occupied lyt (merge lyt dir strg hump)).card < (occupied lyt strg).card) := by
  induction hump generalizing strg with
  | nil => exact ⟨le_rfl, by simp⟩
  | cons hc hump ih =>
    have hframe := fun hc' hmem' => @Apart.contents_mergeCell lyt dir strg _ _ h hc' hmem'
    obtain ⟨hle, hlt⟩ := @ih (mergeCell lyt dir strg hc) h.tail
      (fun hc' hmem' => (mem_occupied_congr (hframe hc' hmem').1).mpr (hmem hc' (.tail _ hmem')))
      fun hc' hmem' => hn hc' (.tail _ hmem')
    have hstep := card_occupied_mergeCell_le (hmem hc (.head _)) (hn hc (.head _))
    rw [merge, List.foldl_cons]
    refine ⟨hle.trans hstep, ?_⟩
    rintro ⟨hc', hmem', hocc⟩
    rcases List.mem_cons.mp hmem' with rfl | hmem'
    · exact hle.trans_lt (card_occupied_mergeCell_lt (hmem hc' (.head _)) hocc)
    · exact (hlt ⟨hc', hmem', (mem_occupied_congr (hframe hc' hmem').2).mpr hocc⟩).trans_le hstep

/-- The last cell of a hump is merged onto a cell, as it is no output itself. -/
theorem IsHump.next_back (h : IsHump lyt dir strg hump)
    (ht : ∀ hc ∈ hump, Collectable (strg.getCellType hc)) :
    ∃ hc ∈ hump, strg.getCellType (next lyt dir hc) ≠ .empty := by
  have hne : hump ≠ [] := by
    rintro rfl
    exact absurd h.1 (by decide)
  have hback := ht _ (List.getLast_mem hne)
  have hout : strg.getCellType (hump.getLast hne) ≠ .output := by
    rintro ho
    rw [ho] at hback
    simp [Collectable] at hback
  refine ⟨hump.getLast hne, List.getLast_mem hne, fun he => ?_⟩
  have hhead : hump.head? = some (hump.head hne) := List.head?_eq_some_head hne
  have hlast : hump.getLast? = some (hump.getLast hne) := List.getLast?_eq_some_getLast hne
  cases dir with
  | down =>
    have hup := h.2
    rw [next] at he
    simp [isUpperHump, hhead, hlast, he, hout] at hup
  | up =>
    have hlow := h.2.2
    rw [next] at he
    simp [isLowerHump, hhead, hlast, he, hout] at hlow

theorem Merges.card_occupied {s : ScanState} (h : Merges lyt strg dir s) :
    (occupied lyt (merge lyt dir s.strg s.hump)).card < (occupied lyt s.strg).card := by
  obtain ⟨⟨row, column, hturn, -, -⟩, hhump, -⟩ := h
  have hcol := hturn.collected
  have hground : ∀ hc ∈ s.hump, hc ∈ ground lyt ∧ next lyt dir hc ∈ ground lyt := by
    intro hc hmem
    obtain ⟨k, hk, rfl⟩ := hcol.inRow hc hmem
    have hkx := hk.le.trans hturn.column_le
    rw [next_at2 hturn.row_le]
    exact ⟨at2_mem_ground hturn.row_le hkx, at2_mem_ground (nextRow_le hturn.row_le) hkx⟩
  obtain ⟨hc, hmem, hocc⟩ := hhump.next_back hcol.types
  have hoccupied : ∀ hc ∈ s.hump, hc ∈ occupied lyt s.strg := by
    intro hc hmem
    refine mem_occupied.mpr ⟨(hground hc hmem).1, ?_⟩
    rcases hcol.types hc hmem with ht | ht | ht <;> simp [ht]
  exact (card_occupied_merge (hcol.apart hturn.row_le) hoccupied
    fun hc hmem => (hground hc hmem).2).2 ⟨hc, hmem, mem_occupied.mpr ⟨(hground hc hmem).2, hocc⟩⟩

end Occupied

section Termination

variable {lyt : CoordinateLayout} {strg : CellLyt}

theorem card_occupied_sweep {s : ScanState} (h : sweep lyt strg = some s) :
    if s.improvementFound = true then (occupied lyt s.strg).card < (occupied lyt strg).card
    else s.strg = strg := by
  refine (invariant_sweep (I := fun strg' found =>
    if found = true then (occupied lyt strg').card < (occupied lyt strg).card else strg' = strg)
    rfl (fun dir s hs hI => ?_)).2 s h
  have hlt := hs.card_occupied
  cases hfound : s.improvementFound with
  | false =>
    rw [hfound] at hI
    have he : s.strg = strg := hI
    rw [he] at hlt ⊢
    exact hlt
  | true =>
    rw [hfound] at hI
    exact hlt.trans hI

/-- The optimization ends with a layout in which a sweep does not merge any hump. -/
def Finishes (lyt : CoordinateLayout) (strg : CellLyt) : Prop :=
  ∃ fuel strg', postLayoutOptimization lyt fuel strg = some (some strg') ∧
    ∃ s, sweep lyt strg' = some s ∧ s.improvementFound = false ∧ s.strg = strg'

theorem postLayoutOptimization_succ {fuel : ℕ} : postLayoutOptimization lyt (fuel + 1) strg =
    (sweep lyt strg).bind fun s =>
      if s.improvementFound then postLayoutOptimization lyt fuel s.strg
      else some (some s.strg) := rfl

theorem SweepsFrom.head {strg' : CellLyt} {s : ScanState} (hs : sweep lyt strg = some s)
    (himp : s.improvementFound = true) (h : SweepsFrom lyt s.strg strg') :
    SweepsFrom lyt strg strg' := by
  induction h with
  | refl => exact .step .refl hs himp
  | step _ hs' himp' ih => exact .step ih hs' himp'

theorem finishes_of_sweeps
    (h : ∀ strg', SweepsFrom lyt strg strg' → ∃ s, sweep lyt strg' = some s) :
    Finishes lyt strg := by
  induction hn : (occupied lyt strg).card using Nat.strong_induction_on generalizing strg with
  | _ n ih =>
    subst hn
    obtain ⟨s, hs⟩ := h strg .refl
    have hcard := card_occupied_sweep hs
    cases himp : s.improvementFound with
    | false =>
      rw [himp] at hcard
      have he : s.strg = strg := hcard
      refine ⟨1, strg, ?_, s, hs, himp, he⟩
      rw [postLayoutOptimization_succ, hs, Option.bind_some, himp, he]
      rfl
    | true =>
      rw [himp] at hcard
      obtain ⟨fuel, strg', hrun, hlast⟩ :=
        ih _ hcard (fun strg' hstrg' => h strg' (.head hs himp hstrg')) rfl
      refine ⟨fuel + 1, strg', ?_, hlast⟩
      rw [postLayoutOptimization_succ, hs, Option.bind_some, himp]
      exact hrun

theorem exists_sweep_of_run {fuel : ℕ} {r : CellLyt}
    (h : postLayoutOptimization lyt fuel strg = some (some r)) :
    ∃ s, sweep lyt strg = some s ∧ (s.improvementFound = true →
      ∃ fuel', postLayoutOptimization lyt fuel' s.strg = some (some r)) := by
  cases fuel with
  | zero => cases h
  | succ fuel =>
    rw [postLayoutOptimization_succ] at h
    obtain ⟨s, hs, h⟩ := Option.bind_eq_some_iff.mp h
    refine ⟨s, hs, fun himp => ⟨fuel, ?_⟩⟩
    rwa [if_pos himp] at h

theorem run_of_sweepsFrom {fuel : ℕ} {r strg' : CellLyt}
    (h : postLayoutOptimization lyt fuel strg = some (some r))
    (hstrg' : SweepsFrom lyt strg strg') :
    ∃ fuel', postLayoutOptimization lyt fuel' strg' = some (some r) := by
  induction hstrg' with
  | refl => exact ⟨fuel, h⟩
  | step _ hs himp ih =>
    obtain ⟨fuel', hrun⟩ := ih
    obtain ⟨s', hs', hrest⟩ := exists_sweep_of_run hrun
    obtain rfl := Option.some.inj (hs.symm.trans hs')
    exact hrest himp

/-- The loop ends with valid ranges iff no hump of two cells is handed over. -/
theorem finishes_iff : Finishes lyt strg ↔
    ∀ strg', SweepsFrom lyt strg strg' → ∀ s, HandsOver lyt strg' s → s.hump.length = 2 →
      ∀ dir, ¬ IsHump lyt dir s.strg s.hump := by
  simp only [← exists_sweep_iff]
  constructor
  · rintro ⟨fuel, r, hrun, -⟩ strg' hstrg'
    obtain ⟨fuel', hrun'⟩ := run_of_sweepsFrom hrun hstrg'
    exact (exists_sweep_of_run hrun').imp fun s hs => hs.1
  · exact finishes_of_sweeps

/-- Two wires one above the other, of which the upper one has two cells. -/
def twoCellHump : CellLyt := .assignCellTypes
  [(.at2 0 0, .normal), (.at2 1 0, .normal), (.at2 0 1, .normal), (.at2 1 1, .normal)]

theorem twoCellHump_not_finishes : ¬ Finishes ⟨.at2 2 1, .cartesian⟩ twoCellHump := by
  rintro ⟨fuel, r, hrun, -⟩
  obtain ⟨s, hs, -⟩ := exists_sweep_of_run hrun
  have hnone : (sweep ⟨.at2 2 1, .cartesian⟩ twoCellHump).isNone = true := by decide
  rw [hs] at hnone
  cases hnone

end Termination

end InmlTopolinanoLibrary

end Fiction
