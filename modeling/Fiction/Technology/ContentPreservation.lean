import Fiction.Technology.HumpMerges

/-!
# What the wire straightening preserves

The free-space test does not look at the cells that a hump is merged onto. A merge preserves the
special cells of a layout iff each cell of the hump can be merged: this fails at the border, and if
there are inputs, outputs, slanted or other special cells in the next row.
-/

namespace Fiction

namespace InmlTopolinanoLibrary

section Counts

variable {lyt : CoordinateLayout} {dir : Direction} {strg : CellLyt} {hc c : Ucoord}
  {hump : List Ucoord} {t : InmlCellType}

def cellsOf (strg : CellLyt) (t : InmlCellType) : Set Ucoord := {c | strg.getCellType c = t}

/-- A cell changes its place. -/
def moves (lyt : CoordinateLayout) (dir : Direction) (strg : CellLyt) (hc : Ucoord) : Prop :=
  next lyt dir hc ≠ hc ∧ stays dir strg (next lyt dir hc) = false

/-- Moving a cell keeps the number of cells of a type: none is lost or overwritten. -/
def KeepsNumber (lyt : CoordinateLayout) (dir : Direction) (strg : CellLyt) (t : InmlCellType)
    (hc : Ucoord) : Prop :=
  (strg.getCellType hc = t → moves lyt dir strg hc) ∧
    (moves lyt dir strg hc → strg.getCellType (next lyt dir hc) ≠ t)

theorem cellsOf_mergeCell_of_not_moves (ht : t ≠ .empty) (h : ¬ moves lyt dir strg hc) :
    cellsOf (mergeCell lyt dir strg hc) t = cellsOf strg t \ {hc} := by
  ext c
  rw [cellsOf, Set.mem_ofPred_eq, getCellType_mergeCell, Set.mem_sdiff, Set.mem_singleton_iff]
  by_cases hc' : c = hc
  · simp [hc', ht.symm]
  · rw [if_neg hc', if_neg]
    · simp [cellsOf, hc']
    · rintro ⟨rfl, hst⟩
      exact h ⟨hc', hst⟩

theorem cellsOf_mergeCell_of_moves (ht : t ≠ .empty) (h : moves lyt dir strg hc) :
    cellsOf (mergeCell lyt dir strg hc) t =
      if strg.getCellType hc = t then insert (next lyt dir hc) (cellsOf strg t \ {hc})
      else cellsOf strg t \ {next lyt dir hc} := by
  ext c
  rw [cellsOf, Set.mem_ofPred_eq, getCellType_mergeCell]
  by_cases hc' : c = hc
  · subst hc'
    rw [if_pos rfl]
    split_ifs with htype
    · simp [ht.symm, h.1.symm]
    · simp [ht.symm, cellsOf, htype]
  · rw [if_neg hc']
    by_cases hcn : c = next lyt dir hc
    · subst hcn
      rw [if_pos ⟨rfl, h.2⟩]
      split_ifs with htype <;> simp [htype]
    · rw [if_neg fun hcond => hcn hcond.1]
      split_ifs <;> simp [cellsOf, hc', hcn]

theorem ncard_sdiff_eq_iff {α : Type*} {S : Set α} (hfin : S.Finite) (a : α) :
    (S \ {a}).ncard = S.ncard ↔ a ∉ S := by
  constructor
  · intro heq ha
    exact (Set.ncard_sdiff_singleton_lt_of_mem ha hfin).ne heq
  · intro ha
    rw [Set.sdiff_singleton_eq_self ha]

theorem ncard_cellsOf_mergeCell (ht : t ≠ .empty) (hfin : (cellsOf strg t).Finite) :
    (cellsOf (mergeCell lyt dir strg hc) t).Finite ∧
      (cellsOf (mergeCell lyt dir strg hc) t).ncard ≤ (cellsOf strg t).ncard ∧
      ((cellsOf (mergeCell lyt dir strg hc) t).ncard = (cellsOf strg t).ncard ↔
        KeepsNumber lyt dir strg t hc) := by
  by_cases hmoves : moves lyt dir strg hc
  · have hkeeps : KeepsNumber lyt dir strg t hc ↔ next lyt dir hc ∉ cellsOf strg t :=
      ⟨fun h => h.2 hmoves, fun h => ⟨fun _ => hmoves, fun _ => h⟩⟩
    rw [hkeeps, cellsOf_mergeCell_of_moves ht hmoves]
    by_cases htype : strg.getCellType hc = t
    · rw [if_pos htype]
      by_cases hn : next lyt dir hc ∈ cellsOf strg t
      · rw [Set.insert_eq_of_mem (Set.mem_sdiff_singleton.mpr ⟨hn, hmoves.1⟩)]
        have hlt := Set.ncard_sdiff_singleton_lt_of_mem (a := hc) htype hfin
        exact ⟨hfin.sdiff, hlt.le, iff_of_false hlt.ne (not_not_intro hn)⟩
      · have heq := Set.ncard_exchange (b := hc) hn htype
        exact ⟨hfin.sdiff.insert _, heq.le, iff_of_true heq hn⟩
    · rw [if_neg htype]
      exact ⟨hfin.sdiff, Set.ncard_sdiff_singleton_le _ _, ncard_sdiff_eq_iff hfin _⟩
  · have hkeeps : KeepsNumber lyt dir strg t hc ↔ hc ∉ cellsOf strg t :=
      ⟨fun h htype => hmoves (h.1 htype), fun h => ⟨fun htype => absurd htype h,
        fun hm => absurd hm hmoves⟩⟩
    rw [hkeeps, cellsOf_mergeCell_of_not_moves ht hmoves]
    exact ⟨hfin.sdiff, Set.ncard_sdiff_singleton_le _ _, ncard_sdiff_eq_iff hfin _⟩

theorem keepsNumber_congr {strg' : CellLyt} (h : contents strg' hc = contents strg hc)
    (hn : contents strg' (next lyt dir hc) = contents strg (next lyt dir hc)) :
    KeepsNumber lyt dir strg' t hc ↔ KeepsNumber lyt dir strg t hc := by
  have ht : strg'.getCellType hc = strg.getCellType hc := congrArg Prod.fst h
  have htn : strg'.getCellType (next lyt dir hc) = strg.getCellType (next lyt dir hc) :=
    congrArg Prod.fst hn
  rw [KeepsNumber, KeepsNumber, moves, moves, ht, htn, stays_congr hn]

theorem ncard_cellsOf_merge (ht : t ≠ .empty) (h : Apart lyt dir hump)
    (hfin : (cellsOf strg t).Finite) :
    (cellsOf (merge lyt dir strg hump) t).Finite ∧
      (cellsOf (merge lyt dir strg hump) t).ncard ≤ (cellsOf strg t).ncard ∧
      ((cellsOf (merge lyt dir strg hump) t).ncard = (cellsOf strg t).ncard ↔
        ∀ hc ∈ hump, KeepsNumber lyt dir strg t hc) := by
  induction hump generalizing strg with
  | nil => exact ⟨hfin, le_rfl, by simp [merge]⟩
  | cons hc hump ih =>
    obtain ⟨hfin₁, hle₁, heq₁⟩ := @ncard_cellsOf_mergeCell lyt dir strg hc t ht hfin
    obtain ⟨hfin₂, hle₂, heq₂⟩ := ih h.tail hfin₁
    have hrest : (∀ hc' ∈ hump, KeepsNumber lyt dir (mergeCell lyt dir strg hc) t hc') ↔
        ∀ hc' ∈ hump, KeepsNumber lyt dir strg t hc' :=
      forall₂_congr fun hc' hmem =>
        keepsNumber_congr (h.contents_mergeCell hmem).1 (h.contents_mergeCell hmem).2
    rw [hrest] at heq₂
    rw [List.forall_mem_cons, ← heq₁, ← heq₂]
    rw [merge, List.foldl_cons]
    refine ⟨hfin₂, hle₂.trans hle₁, fun heq => ?_, fun heq => heq.2.trans heq.1⟩
    have hmid := le_antisymm hle₁ (heq ▸ hle₂)
    exact ⟨hmid, heq.trans hmid.symm⟩

end Counts

section Preservation

variable {lyt : CoordinateLayout} {dir : Direction} {strg strg' : CellLyt} {hc c : Ucoord}
  {hump : List Ucoord}

/-- A merge loses neither special cells nor the cells outside the hump. -/
structure Preserves (lyt : CoordinateLayout) (dir : Direction) (hump : List Ucoord)
    (strg strg' : CellLyt) : Prop where
  reappears : ∀ hc ∈ hump, strg.getCellType hc ≠ .normal →
    contents strg' (next lyt dir hc) = contents strg hc ∨
      strg.getCellType (next lyt dir hc) = .inverterMagnet ∧
        contents strg' (next lyt dir hc) = contents strg (next lyt dir hc)
  keeps : ∀ c, c ∉ hump → strg.getCellType c ≠ .empty → contents strg' c = contents strg c ∨
    strg.getCellType c = .normal ∧ ∃ hc ∈ hump, next lyt dir hc = c
  inputs : (cellsOf strg' .input).ncard = (cellsOf strg .input).ncard
  outputs : (cellsOf strg' .output).ncard = (cellsOf strg .output).ncard

/-- A cell can be merged: at the border it is a normal cell, else the next one is empty, a normal
cell, or an inverter magnet that stays in the place of a cell that is no input, or equals it. -/
structure Mergeable (lyt : CoordinateLayout) (dir : Direction) (strg : CellLyt) (hc : Ucoord) :
    Prop where
  border : next lyt dir hc = hc → strg.getCellType hc = .normal
  inside : next lyt dir hc ≠ hc → strg.getCellType (next lyt dir hc) = .empty ∨
    strg.getCellType (next lyt dir hc) = .normal ∨
    strg.getCellType (next lyt dir hc) = .inverterMagnet ∧
      (dir = .down → strg.getCellType hc ≠ .input) ∧
      (dir = .up → contents strg hc = contents strg (next lyt dir hc))

theorem stays_eq_true_iff :
    stays dir strg c = true ↔ dir = .down ∧ strg.getCellType c = .inverterMagnet :=
  decide_eq_true_iff

theorem Mergeable.keepsNumber_input (h : Mergeable lyt dir strg hc) :
    KeepsNumber lyt dir strg .input hc := by
  constructor
  · intro hi
    have hn : next lyt dir hc ≠ hc := fun hn => absurd ((h.border hn).symm.trans hi) (by decide)
    refine ⟨hn, Bool.eq_false_iff.mpr fun hst => ?_⟩
    obtain ⟨rfl, ht⟩ := stays_eq_true_iff.mp hst
    rcases h.inside hn with ht' | ht' | ⟨-, hne, -⟩
    · exact absurd (ht.symm.trans ht') (by decide)
    · exact absurd (ht.symm.trans ht') (by decide)
    · exact hne rfl hi
  · intro hm hi
    rcases h.inside hm.1 with ht | ht | ⟨ht, -⟩ <;> exact absurd (ht.symm.trans hi) (by decide)

theorem Mergeable.keepsNumber_output (h : Mergeable lyt dir strg hc)
    (ht : Collectable (strg.getCellType hc)) : KeepsNumber lyt dir strg .output hc := by
  constructor
  · intro ho
    rw [ho] at ht
    simp [Collectable] at ht
  · intro hm ho
    rcases h.inside hm.1 with ht | ht | ⟨ht, -⟩ <;> exact absurd (ht.symm.trans ho) (by decide)

theorem contents_eq_blank_ne (ht : Collectable (strg.getCellType c)) :
    contents strg c ≠ (.empty, (), []) := by
  intro he
  have hempty : strg.getCellType c = .empty := congrArg Prod.fst he
  rw [hempty] at ht
  simp [Collectable] at ht

theorem Preserves.mergeable (hap : Apart lyt dir hump)
    (ht : ∀ hc ∈ hump, Collectable (strg.getCellType hc)) (hfin : (cellsOf strg .input).Finite)
    (h : Preserves lyt dir hump strg (merge lyt dir strg hump)) (hmem : hc ∈ hump) :
    Mergeable lyt dir strg hc := by
  have hkeeps := ((ncard_cellsOf_merge (by decide) hap hfin).2.2.mp h.inputs) hc hmem
  constructor
  · intro hn
    by_contra hne
    have hblank := contents_eq_blank_ne (ht hc hmem)
    have hre := h.reappears hc hmem hne
    rw [hn, contents_merge_of_mem hap hmem] at hre
    exact hre.elim (fun he => hblank he.symm) fun he => hblank he.2.symm
  · intro hn
    have hnmem : next lyt dir hc ∉ hump := fun hmem' => hn (hap.fixed hc hmem hmem')
    by_cases hempty : strg.getCellType (next lyt dir hc) = .empty
    · exact .inl hempty
    right
    rcases h.keeps _ hnmem hempty with he | ⟨hnormal, -⟩
    · rw [contents_merge_next hap hmem hn] at he
      split_ifs at he with hst
      · obtain ⟨rfl, hinv⟩ := stays_eq_true_iff.mp hst
        refine .inr ⟨hinv, fun _ hi => ?_, nofun⟩
        exact absurd (hst.symm.trans (hkeeps.1 hi).2) (by decide)
      · have htype : strg.getCellType hc = strg.getCellType (next lyt dir hc) :=
          congrArg Prod.fst he
        rcases ht hc hmem with hc' | hc' | hc'
        · exact .inl (htype.symm.trans hc')
        · exact absurd (htype.symm.trans hc') (hkeeps.2 ⟨hn, Bool.eq_false_iff.mpr hst⟩)
        · refine .inr ⟨htype.symm.trans hc', fun hdir => ?_, fun _ => he⟩
          exact absurd (stays_eq_true_iff.mpr ⟨hdir, htype.symm.trans hc'⟩) hst
    · exact .inl hnormal

theorem preserves_of_mergeable (hap : Apart lyt dir hump)
    (ht : ∀ hc ∈ hump, Collectable (strg.getCellType hc)) (hi : (cellsOf strg .input).Finite)
    (ho : (cellsOf strg .output).Finite) (h : ∀ hc ∈ hump, Mergeable lyt dir strg hc) :
    Preserves lyt dir hump strg (merge lyt dir strg hump) where
  reappears hc hmem hne := by
    have hn : next lyt dir hc ≠ hc := fun hn => hne ((h hc hmem).border hn)
    rw [contents_merge_next hap hmem hn]
    split_ifs with hst
    · exact .inr ⟨(stays_eq_true_iff.mp hst).2, rfl⟩
    · exact .inl rfl
  keeps c hc' hempty := by
    by_cases hex : ∃ hc ∈ hump, next lyt dir hc = c
    · obtain ⟨hc, hmem, rfl⟩ := hex
      have hn : next lyt dir hc ≠ hc := fun hn => hc' (hn.symm ▸ hmem)
      rw [contents_merge_next hap hmem hn]
      rcases (h hc hmem).inside hn with ht' | ht' | ⟨ht', -, hup⟩
      · exact absurd ht' hempty
      · exact .inr ⟨ht', hc, hmem, rfl⟩
      · cases dir with
        | down => exact .inl (if_pos (stays_eq_true_iff.mpr ⟨rfl, ht'⟩))
        | up =>
          refine .inl ((if_neg fun hst => ?_).trans (hup rfl))
          exact absurd (stays_eq_true_iff.mp hst).1 (by decide)
    · exact .inl (contents_merge_of_forall_ne hc' fun hc hmem he => hex ⟨hc, hmem, he⟩)
  inputs := (ncard_cellsOf_merge (by decide) hap hi).2.2.mpr fun hc hmem =>
    (h hc hmem).keepsNumber_input
  outputs := (ncard_cellsOf_merge (by decide) hap ho).2.2.mpr fun hc hmem =>
    (h hc hmem).keepsNumber_output (ht hc hmem)

theorem invariant_run {I : CellLyt → Prop} (hinit : I strg)
    (hmerge : ∀ strg', SweepsFrom lyt strg strg' → ∀ dir s, Merges lyt strg' dir s → I s.strg →
      I (merge lyt dir s.strg s.hump)) {strg' : CellLyt} (h : SweepsFrom lyt strg strg') :
    I strg' ∧ ∀ row column s, Turn lyt strg' row column s → I s.strg := by
  have hsweep : ∀ strg', SweepsFrom lyt strg strg' → I strg' → _ := fun strg' h hI =>
    @invariant_sweep lyt _ (fun s _ => I s) hI (hmerge strg' h)
  have hstart : I strg' := by
    induction h with
    | refl => exact hinit
    | step h hs _ ih => exact (hsweep _ h ih).2 _ hs
  exact ⟨hstart, (hsweep strg' h hstart).1⟩

/-- Every merge of a run preserves the contents, and the numbers of inputs and outputs are the same
in all of its states. -/
structure PreservesContent (lyt : CoordinateLayout) (strg : CellLyt) : Prop where
  merges : ∀ strg', SweepsFrom lyt strg strg' → ∀ dir s, Merges lyt strg' dir s →
    Preserves lyt dir s.hump s.strg (merge lyt dir s.strg s.hump)
  inputs : ∀ strg', SweepsFrom lyt strg strg' → ∀ row column s, Turn lyt strg' row column s →
    (cellsOf s.strg .input).ncard = (cellsOf strg .input).ncard
  outputs : ∀ strg', SweepsFrom lyt strg strg' → ∀ row column s, Turn lyt strg' row column s →
    (cellsOf s.strg .output).ncard = (cellsOf strg .output).ncard

theorem finite_cellsOf_of_turn {t : InmlCellType} (ht : t ≠ .empty) (hfin : (cellsOf strg t).Finite)
    (h : SweepsFrom lyt strg strg') {row column : ℕ} {s : ScanState}
    (hs : Turn lyt strg' row column s) : (cellsOf s.strg t).Finite := by
  refine (invariant_run (I := fun strg => (cellsOf strg t).Finite) hfin
    (fun _ _ dir s hm hI => ?_) h).2 row column s hs
  obtain ⟨⟨row, column, hturn, -⟩, -⟩ := hm
  exact (ncard_cellsOf_merge ht (hturn.collected.apart hturn.row_le) hI).1

/-- A run preserves the contents iff it only merges cells that can be merged. -/
theorem preservesContent_iff (hfin : {c | strg.isEmptyCell c = false}.Finite) :
    PreservesContent lyt strg ↔
      ∀ strg', SweepsFrom lyt strg strg' → ∀ dir s, Merges lyt strg' dir s →
        ∀ hc ∈ s.hump, Mergeable lyt dir s.strg hc := by
  have hcells : ∀ t, t ≠ .empty → (cellsOf strg t).Finite := fun t ht =>
    hfin.subset fun c (hc : strg.getCellType c = t) => decide_eq_false (hc.symm ▸ ht)
  constructor
  · intro h strg' hstrg' dir s hs hc hmem
    obtain ⟨row, column, hturn, -⟩ := hs.handsOver
    have hcol := hturn.collected
    exact (h.merges strg' hstrg' dir s hs).mergeable (hcol.apart hturn.row_le) hcol.types
      (finite_cellsOf_of_turn (by decide) (hcells _ (by decide)) hstrg' hturn) hmem
  · intro h
    have hmerges : ∀ strg', SweepsFrom lyt strg strg' → ∀ dir s, Merges lyt strg' dir s →
        Preserves lyt dir s.hump s.strg (merge lyt dir s.strg s.hump) := by
      intro strg' hstrg' dir s hs
      obtain ⟨row, column, hturn, -⟩ := hs.handsOver
      have hcol := hturn.collected
      exact preserves_of_mergeable (hcol.apart hturn.row_le) hcol.types
        (finite_cellsOf_of_turn (by decide) (hcells _ (by decide)) hstrg' hturn)
        (finite_cellsOf_of_turn (by decide) (hcells _ (by decide)) hstrg' hturn)
        (h strg' hstrg' dir s hs)
    refine ⟨hmerges, fun strg' hstrg' => ?_, fun strg' hstrg' => ?_⟩
    · exact (invariant_run (I := fun s => (cellsOf s .input).ncard = (cellsOf strg .input).ncard)
        rfl (fun strg' h dir s hs hI => (hmerges strg' h dir s hs).inputs.trans hI) hstrg').2
    · exact (invariant_run (I := fun s => (cellsOf s .output).ncard = (cellsOf strg .output).ncard)
        rfl (fun strg' h dir s hs hI => (hmerges strg' h dir s hs).outputs.trans hI) hstrg').2

/-- A wire from an input to an output in a layout of one row. -/
def straightWire : CellLyt := .assignCellTypes
  [(.at2 0 0, .input), (.at2 1 0, .normal), (.at2 2 0, .normal), (.at2 3 0, .output)]

theorem straightWire_not_preservesContent :
    ¬ PreservesContent ⟨.at2 3 0, .cartesian⟩ straightWire := by
  intro h
  have hturn : Turn ⟨.at2 3 0, .cartesian⟩ straightWire 0 3
      ⟨.collect, [.at2 0 0, .at2 1 0, .at2 2 0], straightWire, false⟩ :=
    ⟨le_rfl, le_rfl, start straightWire, rfl, rfl⟩
  have hmerge := h.merges straightWire .refl .down _
    ⟨⟨0, 3, hturn, rfl, .inr rfl⟩, ⟨by decide, by decide⟩, by decide⟩
  have hinput := hmerge.reappears (.at2 0 0) (.head _) (by decide)
  exact absurd hinput (by decide)

theorem preservesContent_iff_straightWire :
    PreservesContent ⟨.at2 3 0, .cartesian⟩ straightWire ↔ ∀ strg',
      SweepsFrom ⟨.at2 3 0, .cartesian⟩ straightWire strg' → ∀ dir s,
        Merges ⟨.at2 3 0, .cartesian⟩ strg' dir s →
          ∀ hc ∈ s.hump, Mergeable ⟨.at2 3 0, .cartesian⟩ dir s.strg hc :=
  preservesContent_iff (CellStorage.finite_assignCellTypes _)

end Preservation

end InmlTopolinanoLibrary

end Fiction
