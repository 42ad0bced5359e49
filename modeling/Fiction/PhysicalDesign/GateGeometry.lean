import Fiction.Layouts.ClockingSchemes
import Fiction.PhysicalDesign.GateAssignment
import Mathlib.Tactic.Ring

/-!
# The geometry of assigned gates

All cells should lie within the created layout, stem from exactly one gate tile and be clocked like
it. On Cartesian layouts the blocks of distinct tiles are disjoint and coincide with the clock
zones. On the other layouts they reach into the zones of neighbouring tiles, and the blocks of
hexagons overlap, so that the geometry depends on which cells of the gates are filled.
-/

namespace Fiction.GateAssignment

open CoordinateLayout (toField isPointyTop)

variable {τ ε : Type}

section Blocks

variable (kind : LayoutKind) (lib : GateLibrary τ ε) (lyt : GateLevelLayout)

def shiftX (t : Tile) : ℕ :=
  if kind ≠ .cartesian ∧ isInShiftedRow lyt.clocked.arrangement t = true then lib.gateXSize / 2
  else 0

def shiftY (t : Tile) : ℕ :=
  if kind ≠ .cartesian ∧ isInShiftedColumn lyt.clocked.arrangement t = true then lib.gateYSize / 2
  else 0

/-- The westernmost column of the gate of a tile. -/
def west (t : Tile) : ℕ := t.x * strideX kind lib lyt.clocked.arrangement + shiftX kind lib lyt t

def north (t : Tile) : ℕ := t.y * strideY kind lib lyt.clocked.arrangement + shiftY kind lib lyt t

/-- The cells that the gate of a tile covers. -/
def block (t : Tile) : Set Ucoord :=
  {c | west kind lib lyt t ≤ c.x ∧ c.x < west kind lib lyt t + lib.gateXSize ∧
    north kind lib lyt t ≤ c.y ∧ c.y < north kind lib lyt t + lib.gateYSize ∧ c.z = t.z}

def Representable (t : Tile) : Prop :=
  t.x * strideX kind lib lyt.clocked.arrangement < 2 ^ 31 ∧
    t.y * strideY kind lib lyt.clocked.arrangement < 2 ^ 31

def cellOf (t : Tile) (x : Fin lib.gateXSize) (y : Fin lib.gateYSize) : Ucoord :=
  .at3 (west kind lib lyt t + x) (north kind lib lyt t + y) t.z

/-- The position that is written instead, reduced to 31 bits. -/
def writtenCell (t : Tile) (x : Fin lib.gateXSize) (y : Fin lib.gateYSize) : Ucoord :=
  .at3 (toField ((west kind lib lyt t + x : ℕ))) (toField ((north kind lib lyt t + y : ℕ))) t.z

/-- A cell in the second half of a shifted gate needs a next column, respectively a next row. -/
def StaysInside (t : Tile) (x : Fin lib.gateXSize) (y : Fin lib.gateYSize) : Prop :=
  (isInShiftedRow lyt.clocked.arrangement t = true →
    lib.gateXSize - lib.gateXSize / 2 ≤ x → t.x < lyt.clocked.x) ∧
  (isInShiftedColumn lyt.clocked.arrangement t = true →
    lib.gateYSize - lib.gateYSize / 2 ≤ y → t.y < lyt.clocked.y)

def halfColumn (t : Tile) (x : Fin lib.gateXSize) : ℕ :=
  t.x + if isInShiftedRow lyt.clocked.arrangement t = true ∧
    lib.gateXSize - lib.gateXSize / 2 ≤ x then 1 else 0

def halfRow (t : Tile) (y : Fin lib.gateYSize) : ℕ :=
  t.y + if isInShiftedColumn lyt.clocked.arrangement t = true ∧
    lib.gateYSize - lib.gateYSize / 2 ≤ y then 1 else 0

def hexagonZone (t : Tile) (x : Fin lib.gateXSize) (y : Fin lib.gateYSize) : Ucoord :=
  if isPointyTop lyt.clocked.arrangement then
    .at3 (halfColumn lib lyt t x) ((t.y * (lib.gateYSize * 3 / 4) + y) / lib.gateYSize) t.z
  else .at3 ((t.x * (lib.gateXSize * 3 / 4) + x) / lib.gateXSize) (halfRow lib lyt t y) t.z

end Blocks

variable {kind : LayoutKind} {lib : GateLibrary τ ε} {lyt : GateLevelLayout}

section Origins

theorem toField_of_lt {v : ℕ} (h : v < 2 ^ 31) : toField v = v := by
  unfold toField
  omega

theorem isInShiftedColumn_eq_false {arr : Arrangement} {t : Tile}
    (h : isInShiftedRow arr t = true) : isInShiftedColumn arr t = false := by
  cases arr <;> simp [isInShiftedRow, isInShiftedColumn] at h ⊢

theorem shift_at3 (hk : kind ≠ .cartesian) {t : Tile} (h : Representable kind lib lyt t) :
    shift lib lyt.clocked.arrangement t (.at3 (t.x * strideX kind lib lyt.clocked.arrangement)
      (t.y * strideY kind lib lyt.clocked.arrangement) t.z) =
        .at3 (toField (west kind lib lyt t)) (toField (north kind lib lyt t)) t.z := by
  unfold shift west north shiftX shiftY
  by_cases hr : isInShiftedRow lyt.clocked.arrangement t = true
  · have hc := isInShiftedColumn_eq_false hr
    simp only [hr, hc, hk, ne_eq, not_false_eq_true, and_self, if_true, Bool.false_eq_true,
      and_false, if_false, Nat.add_zero, toField_of_lt h.2]
    simp [Ucoord.at3]
  · by_cases hc : isInShiftedColumn lyt.clocked.arrangement t = true
    · simp only [hr, hc, hk, ne_eq, not_false_eq_true, and_self, if_true, Bool.false_eq_true,
        and_false, if_false, Nat.add_zero, toField_of_lt h.1]
      simp [Ucoord.at3]
    · simp only [hr, hc, hk, ne_eq, not_false_eq_true, Bool.false_eq_true, and_false, if_false,
        Nat.add_zero, toField_of_lt h.1, toField_of_lt h.2]

theorem origin_eq_ok {t : Tile} (h : Representable kind lib lyt t) :
    origin kind lib lyt.clocked.arrangement t =
      .ok (.at3 (toField (west kind lib lyt t)) (toField (north kind lib lyt t)) t.z) := by
  unfold origin intProduct
  rw [if_pos h.1, if_pos h.2]
  cases hk : kind with
  | cartesian =>
    subst hk
    have hw : west .cartesian lib lyt t = t.x * strideX .cartesian lib lyt.clocked.arrangement := by
      simp [west, shiftX]
    have hn : north .cartesian lib lyt t =
        t.y * strideY .cartesian lib lyt.clocked.arrangement := by
      simp [north, shiftY]
    rw [hw, hn, toField_of_lt h.1, toField_of_lt h.2]
    rfl
  | shiftedCartesian =>
    subst hk
    rw [← shift_at3 (by decide) h]
    rfl
  | hexagonal =>
    subst hk
    rw [← shift_at3 (by decide) h]
    rfl

theorem origin_eq_overflow {t : Tile} (h : ¬ Representable kind lib lyt t) :
    origin kind lib lyt.clocked.arrangement t = .error .overflow := by
  unfold origin intProduct
  by_cases hx : t.x * strideX kind lib lyt.clocked.arrangement < 2 ^ 31
  · have hy : ¬ t.y * strideY kind lib lyt.clocked.arrangement < 2 ^ 31 := fun hy => h ⟨hx, hy⟩
    rw [if_pos hx, if_neg hy]
    rfl
  · rw [if_neg hx]
    rfl

theorem origin_eq_ok_iff {t : Tile} {c : Ucoord} :
    origin kind lib lyt.clocked.arrangement t = .ok c ↔
      Representable kind lib lyt t ∧
        c = .at3 (toField (west kind lib lyt t)) (toField (north kind lib lyt t)) t.z := by
  by_cases h : Representable kind lib lyt t
  · rw [origin_eq_ok h, Except.ok.injEq]
    exact ⟨fun hc => ⟨h, hc.symm⟩, fun hc => hc.2.symm⟩
  · rw [origin_eq_overflow h]
    exact ⟨fun hc => by contradiction, fun hc => absurd hc.1 h⟩

end Origins

section Cells

variable {t t' : Tile} {x x' : Fin lib.gateXSize} {y y' : Fin lib.gateYSize}

theorem cellPosition_origin (t : Tile) (x : Fin lib.gateXSize) (y : Fin lib.gateYSize) :
    cellPosition (.at3 (toField (west kind lib lyt t)) (toField (north kind lib lyt t)) t.z)
      (x, y) = writtenCell kind lib lyt t x y := by
  simp only [cellPosition, writtenCell, Ucoord.at3, Ucoord.mk.injEq, toField, true_and]
  omega

theorem writtenCell_eq (h : Representable kind lib lyt t)
    (hb : writtenCell kind lib lyt t x y ∈ block kind lib lyt t) :
    writtenCell kind lib lyt t x y = cellOf kind lib lyt t x y := by
  have hX := lib.gateXSize_lt
  have hY := lib.gateYSize_lt
  have hx := x.isLt
  have hy := y.isLt
  obtain ⟨h₁, h₂⟩ := h
  obtain ⟨hw, -, hn, -, -⟩ := hb
  have hsx : shiftX kind lib lyt t < 2 ^ 16 := by
    unfold shiftX
    split_ifs <;> omega
  have hsy : shiftY kind lib lyt t < 2 ^ 16 := by
    unfold shiftY
    split_ifs <;> omega
  simp only [writtenCell, cellOf, Ucoord.at3, Ucoord.mk.injEq, toField, true_and, west, north]
    at hw hn ⊢
  omega

theorem cellOf_mem_block : cellOf kind lib lyt t x y ∈ block kind lib lyt t :=
  ⟨Nat.le_add_right _ _, Nat.add_lt_add_left x.isLt _, Nat.le_add_right _ _,
    Nat.add_lt_add_left y.isLt _, rfl⟩

theorem writtenCell_eq_of_lt (hx : west kind lib lyt t + x < 2 ^ 31)
    (hy : north kind lib lyt t + y < 2 ^ 31) :
    writtenCell kind lib lyt t x y = cellOf kind lib lyt t x y := by
  rw [writtenCell, cellOf, toField_of_lt hx, toField_of_lt hy]

theorem cellDimension_lt :
    (cellDimension lib lyt).x < 2 ^ 31 ∧ (cellDimension lib lyt).y < 2 ^ 31 := by
  simp only [cellDimension, Ucoord.at3, toField]
  omega

theorem mul_add_div_width (k : ℕ) {width : ℕ} (i : Fin width) : (k * width + i) / width = k := by
  rw [Nat.add_comm, Nat.add_mul_div_right _ _ i.pos, Nat.div_eq_of_lt i.isLt, Nat.zero_add]

theorem index_unique {a b width : ℕ} {i j : Fin width} (h : a * width + i = b * width + j) :
    a = b := by
  rw [← mul_add_div_width a i, h, mul_add_div_width]

theorem mul_width_lt {a last width : ℕ} (h : (last + 1) * width ≤ 2 ^ 31) (ha : a ≤ last) :
    a * width < 2 ^ 31 := by
  rcases Nat.eq_zero_or_pos width with rfl | hw
  · simp
  · have hle := Nat.mul_le_mul_right width (Nat.succ_le_succ ha)
    rw [Nat.succ_mul] at hle
    simp only [Nat.succ_eq_add_one] at hle
    omega

theorem toField_last {last width : ℕ} (h : (last + 1) * width ≤ 2 ^ 31) (hw : 0 < width) :
    toField ((last + 1 : ℤ) * width - 1) = (last + 1) * width - 1 := by
  have hpos : 0 < (last + 1) * width := Nat.mul_pos (Nat.succ_pos last) hw
  have hcast : (last + 1 : ℤ) * width = ((last + 1) * width : ℕ) := by push_cast; ring
  rw [hcast]
  unfold toField
  omega

theorem mul_width_add_le {a last width : ℕ} (h : (last + 1) * width ≤ 2 ^ 31) (ha : a ≤ last)
    (i : Fin width) : a * width + i ≤ toField ((last + 1 : ℤ) * width - 1) := by
  have hle := Nat.mul_le_mul_right width (Nat.succ_le_succ ha)
  rw [Nat.succ_mul] at hle
  simp only [Nat.succ_eq_add_one] at hle
  have hi := i.isLt
  rw [toField_last h i.pos]
  omega

theorem half_div (a : ℕ) {width : ℕ} (i : Fin width) :
    (a * width + width / 2 + i) / width = a + if width - width / 2 ≤ i then 1 else 0 := by
  have hi := i.isLt
  split_ifs with hhalf
  · have hsum : a * width + width / 2 + i = (i - (width - width / 2)) + (a + 1) * width := by
      rw [Nat.add_mul, Nat.one_mul]
      omega
    rw [hsum, Nat.add_mul_div_right _ _ i.pos, Nat.div_eq_of_lt (by omega), Nat.zero_add]
  · rw [Nat.add_assoc, Nat.add_comm, Nat.add_mul_div_right _ _ i.pos, Nat.div_eq_of_lt (by omega),
      Nat.zero_add, Nat.add_zero]

theorem half_le_iff {a last width : ℕ} (h : (last + 1) * width ≤ 2 ^ 31) (ha : a ≤ last)
    (i : Fin width) : a * width + width / 2 + i ≤ toField ((last + 1 : ℤ) * width - 1) ↔
      (width - width / 2 ≤ i → a < last) := by
  have hi := i.isLt
  rw [toField_last h i.pos, Nat.succ_mul]
  rcases Nat.lt_or_eq_of_le ha with hlt | rfl
  · have hle := Nat.mul_le_mul_right width (Nat.succ_le_of_lt hlt)
    rw [Nat.succ_mul] at hle
    refine iff_of_true ?_ fun _ => hlt
    omega
  · constructor
    · intro hle hhalf
      omega
    · intro hlt
      by_contra hle
      exact absurd (hlt (by omega)) (Nat.lt_irrefl a)

theorem isInShiftedRow_eq_false {arr : Arrangement} (h : isPointyTop arr = false) (t : Tile) :
    isInShiftedRow arr t = false := by
  cases arr <;> simp [isPointyTop, isInShiftedRow] at h ⊢

theorem isInShiftedColumn_eq_false_of_pointyTop {arr : Arrangement} (h : isPointyTop arr = true)
    (t : Tile) : isInShiftedColumn arr t = false := by
  cases arr <;> simp [isPointyTop, isInShiftedColumn] at h ⊢

theorem strideX_le : strideX kind lib lyt.clocked.arrangement ≤ lib.gateXSize := by
  unfold strideX
  split_ifs <;> omega

theorem strideY_le : strideY kind lib lyt.clocked.arrangement ≤ lib.gateYSize := by
  unfold strideY
  split_ifs <;> omega

theorem west_div (hk : kind ≠ .cartesian)
    (hs : strideX kind lib lyt.clocked.arrangement = lib.gateXSize) :
    (west kind lib lyt t + x) / lib.gateXSize = halfColumn lib lyt t x := by
  rw [west, hs, shiftX, halfColumn]
  by_cases hr : isInShiftedRow lyt.clocked.arrangement t = true
  · rw [if_pos ⟨hk, hr⟩, half_div]
    simp only [hr, true_and]
  · rw [if_neg fun h => hr h.2, Nat.add_zero, mul_add_div_width, if_neg fun h => hr h.1,
      Nat.add_zero]

theorem north_div (hk : kind ≠ .cartesian)
    (hs : strideY kind lib lyt.clocked.arrangement = lib.gateYSize) :
    (north kind lib lyt t + y) / lib.gateYSize = halfRow lib lyt t y := by
  rw [north, hs, shiftY, halfRow]
  by_cases hc : isInShiftedColumn lyt.clocked.arrangement t = true
  · rw [if_pos ⟨hk, hc⟩, half_div]
    simp only [hc, true_and]
  · rw [if_neg fun h => hc h.2, Nat.add_zero, mul_add_div_width, if_neg fun h => hc h.1,
      Nat.add_zero]

theorem west_le_iff (hx : (lyt.clocked.x + 1) * lib.gateXSize ≤ 2 ^ 31) (ht : t.x ≤ lyt.clocked.x) :
    west kind lib lyt t + x ≤ (cellDimension lib lyt).x ↔
      (kind ≠ .cartesian ∧ isInShiftedRow lyt.clocked.arrangement t = true →
        lib.gateXSize - lib.gateXSize / 2 ≤ x → t.x < lyt.clocked.x) := by
  change west kind lib lyt t + x ≤ toField ((lyt.clocked.x + 1 : ℤ) * lib.gateXSize - 1) ↔ _
  by_cases hr : kind ≠ .cartesian ∧ isInShiftedRow lyt.clocked.arrangement t = true
  · have hs : strideX kind lib lyt.clocked.arrangement = lib.gateXSize := by
      rw [strideX, if_neg]
      rintro ⟨-, hflat⟩
      rw [isInShiftedRow_eq_false hflat] at hr
      exact absurd hr.2 Bool.false_ne_true
    rw [west, hs, shiftX, if_pos hr, half_le_iff hx ht]
    exact ⟨fun h _ => h, fun h => h hr⟩
  · refine iff_of_true ?_ fun h => absurd h hr
    rw [west, shiftX, if_neg hr, Nat.add_zero]
    exact (Nat.add_le_add_right (Nat.mul_le_mul_left _ strideX_le) _).trans
      (mul_width_add_le hx ht x)

theorem north_le_iff (hy : (lyt.clocked.y + 1) * lib.gateYSize ≤ 2 ^ 31)
    (ht : t.y ≤ lyt.clocked.y) :
    north kind lib lyt t + y ≤ (cellDimension lib lyt).y ↔
      (kind ≠ .cartesian ∧ isInShiftedColumn lyt.clocked.arrangement t = true →
        lib.gateYSize - lib.gateYSize / 2 ≤ y → t.y < lyt.clocked.y) := by
  change north kind lib lyt t + y ≤ toField ((lyt.clocked.y + 1 : ℤ) * lib.gateYSize - 1) ↔ _
  by_cases hc : kind ≠ .cartesian ∧ isInShiftedColumn lyt.clocked.arrangement t = true
  · have hs : strideY kind lib lyt.clocked.arrangement = lib.gateYSize := by
      rw [strideY, if_neg]
      rintro ⟨-, hpointy⟩
      rw [isInShiftedColumn_eq_false_of_pointyTop hpointy] at hc
      exact absurd hc.2 Bool.false_ne_true
    rw [north, hs, shiftY, if_pos hc, half_le_iff hy ht]
    exact ⟨fun h _ => h, fun h => h hc⟩
  · refine iff_of_true ?_ fun h => absurd h hc
    rw [north, shiftY, if_neg hc, Nat.add_zero]
    exact (Nat.add_le_add_right (Nat.mul_le_mul_left _ strideY_le) _).trans
      (mul_width_add_le hy ht y)

theorem shiftX_congr (h : t.y = t'.y) : shiftX kind lib lyt t = shiftX kind lib lyt t' := by
  unfold shiftX isInShiftedRow
  rw [h]

theorem shiftY_congr (h : t.x = t'.x) : shiftY kind lib lyt t = shiftY kind lib lyt t' := by
  unfold shiftY isInShiftedColumn
  rw [h]

theorem shift_eq_zero (kind : LayoutKind) (lib : GateLibrary τ ε) (lyt : GateLevelLayout) :
    (∀ t, shiftX kind lib lyt t = 0) ∨ ∀ t, shiftY kind lib lyt t = 0 := by
  unfold shiftX shiftY isInShiftedRow isInShiftedColumn
  cases lyt.clocked.arrangement <;> simp

theorem cellOf_injective (hk : kind ≠ .hexagonal) (ht : t.isDead = false) (ht' : t'.isDead = false)
    (h : cellOf kind lib lyt t x y = cellOf kind lib lyt t' x' y') : t = t' := by
  simp only [cellOf, Ucoord.at3, Ucoord.mk.injEq, true_and, west, north, strideX, strideY, hk,
    false_and, if_false] at h
  obtain ⟨hz, hn, hw⟩ := h
  have hxy : t.x = t'.x ∧ t.y = t'.y := by
    rcases shift_eq_zero kind lib lyt with hx | hy
    · simp only [hx, Nat.add_zero] at hw
      have hcol := index_unique hw
      rw [shiftY_congr hcol, Nat.add_right_comm, Nat.add_right_comm (t'.y * _)] at hn
      exact ⟨hcol, index_unique (Nat.add_right_cancel hn)⟩
    · simp only [hy, Nat.add_zero] at hn
      have hrow := index_unique hn
      rw [shiftX_congr hrow, Nat.add_right_comm, Nat.add_right_comm (t'.x * _)] at hw
      exact ⟨index_unique (Nat.add_right_cancel hw), hrow⟩
  obtain ⟨d, z, v, u⟩ := t
  obtain ⟨d', z', v', u'⟩ := t'
  have hd : d = false := ht
  have hd' : d' = false := ht'
  simp only [Ucoord.mk.injEq]
  exact ⟨hd.trans hd'.symm, hz, hxy.2, hxy.1⟩

end Cells

section Geometry

variable [DecidableEq τ] [Technology τ] (kind : LayoutKind) (lib : GateLibrary τ ε)
  (lyt : GateLevelLayout)

def gateNodes (lyt : GateLevelLayout) : List ℕ :=
  lyt.foreachNode.filter (!GateLevelLayout.isConstant ·)

/-- The cell `c` stems from the gate tile `t`. -/
def StemsFrom (c : Ucoord) (t : Tile) : Prop :=
  ∃ n ∈ gateNodes lyt, lyt.isPlaced n = true ∧ lyt.getTile n = t ∧ Writes kind lib lyt n c

structure Geometry (cellLyt : CellLyt τ) : Prop where
  within : ∀ c, cellLyt.isEmptyCell c = false → cellLyt.clocked.isWithinBounds c = true
  stems : ∀ c, cellLyt.isEmptyCell c = false → ∃! t, StemsFrom kind lib lyt c t
  block : ∀ c t, StemsFrom kind lib lyt c t → c ∈ block kind lib lyt t
  unplaced : ∀ n ∈ gateNodes lyt, lyt.isPlaced n = false → ∀ c, ¬ Writes kind lib lyt n c
  clocked : ∀ c t, StemsFrom kind lib lyt c t →
    cellLyt.getClockNumber c = lyt.clocked.getClockNumber t

/-- The loop over all nodes has defined behaviour and leaves a layout of the intended geometry. -/
def GeometryCorrect : Prop :=
  ∃ cellLyt, assignGates kind lib lyt = .ok cellLyt ∧ Geometry kind lib lyt cellLyt

/-- The library fills the cell in column `x` and row `y` of the gate for tile `t`. -/
def Filled (t : Tile) (x : Fin lib.gateXSize) (y : Fin lib.gateYSize) : Prop :=
  ∃ g, lib.setUpGate lyt t = .ok g ∧ g y x ≠ Technology.empty

/-- The gates fit: none is filled for an unplaced node, none reaches beyond the dimensions of the
created layout or into a zone with another clock number, and hexagons leave room for each other. -/
structure Fits : Prop where
  representable : ∀ n ∈ gateNodes lyt, Representable kind lib lyt (lyt.getTile n)
  unplaced : ∀ n ∈ gateNodes lyt, lyt.isPlaced n = false →
    ∀ x y, ¬ Filled lib lyt (lyt.getTile n) x y
  border : ∀ n ∈ gateNodes lyt, lyt.isPlaced n = true → ∀ x y, Filled lib lyt (lyt.getTile n) x y →
    west kind lib lyt (lyt.getTile n) + x ≤ (cellDimension lib lyt).x ∧
      north kind lib lyt (lyt.getTile n) + y ≤ (cellDimension lib lyt).y ∧
        (lyt.getTile n).z ≤ lyt.clocked.z
  zone : ∀ n ∈ gateNodes lyt, lyt.isPlaced n = true → ∀ x y, Filled lib lyt (lyt.getTile n) x y →
    lyt.clocked.getClockNumber (.at3 ((west kind lib lyt (lyt.getTile n) + x) / lib.gateXSize)
      ((north kind lib lyt (lyt.getTile n) + y) / lib.gateYSize) (lyt.getTile n).z) =
        lyt.clocked.getClockNumber (lyt.getTile n)
  apart : kind = .hexagonal → ∀ n ∈ gateNodes lyt, ∀ n' ∈ gateNodes lyt,
    lyt.isPlaced n = true → lyt.isPlaced n' = true → lyt.getTile n ≠ lyt.getTile n' →
      (lyt.getTile n).z = (lyt.getTile n').z →
        ∀ x y x' y', Filled lib lyt (lyt.getTile n) x y → Filled lib lyt (lyt.getTile n') x' y' →
          west kind lib lyt (lyt.getTile n) + x = west kind lib lyt (lyt.getTile n') + x' →
            north kind lib lyt (lyt.getTile n) + y ≠ north kind lib lyt (lyt.getTile n') + y'

/-- All nodes are placed within the layout, and its cells can be represented. -/
structure Roomy : Prop where
  columns : (lyt.clocked.x + 1) * lib.gateXSize ≤ 2 ^ 31
  rows : (lyt.clocked.y + 1) * lib.gateYSize ≤ 2 ^ 31
  inside : ∀ n ∈ gateNodes lyt, lyt.clocked.Inside (lyt.getTile n)

/-- All filled cells stay inside and within zones with the clock number of their tile. -/
def KeepsZones (zone : Tile → Fin lib.gateXSize → Fin lib.gateYSize → Ucoord) : Prop :=
  ∀ n ∈ gateNodes lyt, ∀ x y, Filled lib lyt (lyt.getTile n) x y →
    StaysInside lib lyt (lyt.getTile n) x y ∧
      lyt.clocked.getClockNumber (zone (lyt.getTile n) x y) =
        lyt.clocked.getClockNumber (lyt.getTile n)

/-- Filled cells of different hexagons do not coincide. -/
def HexagonsApart : Prop :=
  ∀ n ∈ gateNodes lyt, ∀ n' ∈ gateNodes lyt, lyt.getTile n ≠ lyt.getTile n' →
    ∀ x y x' y', Filled lib lyt (lyt.getTile n) x y → Filled lib lyt (lyt.getTile n') x' y' →
      cellOf .hexagonal lib lyt (lyt.getTile n) x y ≠
        cellOf .hexagonal lib lyt (lyt.getTile n') x' y'

/-- What the filled cells of the gates have to observe on a layout of each kind. -/
def CellsFit : LayoutKind → Prop
  | .cartesian => True
  | .shiftedCartesian =>
    KeepsZones lib lyt fun t x y => .at3 (halfColumn lib lyt t x) (halfRow lib lyt t y) t.z
  | .hexagonal => KeepsZones lib lyt (hexagonZone lib lyt) ∧ HexagonsApart lib lyt

end Geometry

section Results

variable [Technology τ] {n : ℕ}

theorem mem_gateNodes : n ∈ gateNodes lyt ↔
    n ∈ lyt.foreachNode ∧ GateLevelLayout.isConstant n = false := by
  simp [gateNodes]

theorem getClockNumber_of_sameZones {cellLyt : CellLyt τ}
    (h : (initialLayout lib lyt).SameZones cellLyt) (t : Tile) (x : Fin lib.gateXSize)
    (y : Fin lib.gateYSize) : cellLyt.getClockNumber (cellOf kind lib lyt t x y) =
      lyt.clocked.getClockNumber (.at3 ((west kind lib lyt t + x) / lib.gateXSize)
        ((north kind lib lyt t + y) / lib.gateYSize) t.z) := by
  rw [h.getClockNumber]
  rfl

theorem isWithinBounds_of_sameZones {cellLyt : CellLyt τ}
    (h : (initialLayout lib lyt).SameZones cellLyt) (t : Tile) (x : Fin lib.gateXSize)
    (y : Fin lib.gateYSize) : cellLyt.clocked.isWithinBounds (cellOf kind lib lyt t x y) = true ↔
      west kind lib lyt t + x ≤ (cellDimension lib lyt).x ∧
        north kind lib lyt t + y ≤ (cellDimension lib lyt).y ∧ t.z ≤ lyt.clocked.z := by
  rw [h.clocked, CoordinateLayout.isWithinBounds, decide_eq_true_iff]
  rfl

section Roomy

variable (hroom : Roomy lib lyt)
include hroom

omit [Technology τ] in
theorem Roomy.representable {n : ℕ} (hn : n ∈ gateNodes lyt) :
    Representable kind lib lyt (lyt.getTile n) := by
  have hin := hroom.inside n hn
  exact ⟨(Nat.mul_le_mul_left _ strideX_le).trans_lt (mul_width_lt hroom.columns hin.x_le),
    (Nat.mul_le_mul_left _ strideY_le).trans_lt (mul_width_lt hroom.rows hin.y_le)⟩

theorem Roomy.fits_iff : Fits kind lib lyt ↔
    (∀ n ∈ gateNodes lyt, ∀ x y, Filled lib lyt (lyt.getTile n) x y →
      (kind ≠ .cartesian → StaysInside lib lyt (lyt.getTile n) x y) ∧
      lyt.clocked.getClockNumber (.at3 ((west kind lib lyt (lyt.getTile n) + x) / lib.gateXSize)
        ((north kind lib lyt (lyt.getTile n) + y) / lib.gateYSize) (lyt.getTile n).z) =
          lyt.clocked.getClockNumber (lyt.getTile n)) ∧
      (kind = .hexagonal → HexagonsApart lib lyt) := by
  have hplaced : ∀ n ∈ gateNodes lyt, lyt.isPlaced n = true := by
    intro n hn
    rw [GateLevelLayout.isPlaced, (hroom.inside n hn).live]
    rfl
  constructor
  · intro h
    refine ⟨fun n hn x y hf => ⟨fun hk => ?_, h.zone n hn (hplaced n hn) x y hf⟩,
      fun hk n hn n' hn' hne x y x' y' hf hf' heq => ?_⟩
    · obtain ⟨hx, hy, -⟩ := h.border n hn (hplaced n hn) x y hf
      have hin := hroom.inside n hn
      exact ⟨fun hr => (west_le_iff hroom.columns hin.x_le).mp hx ⟨hk, hr⟩,
        fun hc => (north_le_iff hroom.rows hin.y_le).mp hy ⟨hk, hc⟩⟩
    · subst hk
      simp only [cellOf, Ucoord.at3, Ucoord.mk.injEq, true_and] at heq
      obtain ⟨hz, hnorth, hwest⟩ := heq
      exact h.apart rfl n hn n' hn' (hplaced n hn) (hplaced n' hn') hne hz x y x' y' hf hf' hwest
        hnorth
  · rintro ⟨hzone, hapart⟩
    refine ⟨fun n hn => hroom.representable hn, fun n hn hp => ?_, fun n hn _ x y hf => ?_,
      fun n hn _ x y hf => (hzone n hn x y hf).2,
      fun hk n hn n' hn' _ _ hne hz x y x' y' hf hf' hwest hnorth => ?_⟩
    · rw [hplaced n hn] at hp
      exact absurd hp.symm Bool.false_ne_true
    · have hin := hroom.inside n hn
      have hstays := (hzone n hn x y hf).1
      exact ⟨(west_le_iff hroom.columns hin.x_le).mpr fun hr => (hstays hr.1).1 hr.2,
        (north_le_iff hroom.rows hin.y_le).mpr fun hc => (hstays hc.1).2 hc.2, hin.z_le⟩
    · subst hk
      apply hapart rfl n hn n' hn' hne x y x' y' hf hf'
      simp only [cellOf, hz, hwest, hnorth]

theorem Roomy.fits_iff_cellsFit : Fits kind lib lyt ↔ CellsFit lib lyt kind := by
  rw [hroom.fits_iff]
  cases kind with
  | cartesian =>
    refine iff_of_true ⟨fun n hn x y _ => ⟨fun hk => absurd rfl hk, ?_⟩, fun hk => ?_⟩ trivial
    · have hlive : (lyt.getTile n).d = false := (hroom.inside n hn).live
      have hwest : west .cartesian lib lyt (lyt.getTile n) = (lyt.getTile n).x * lib.gateXSize := by
        simp [west, strideX, shiftX]
      have hnorth : north .cartesian lib lyt (lyt.getTile n) =
          (lyt.getTile n).y * lib.gateYSize := by
        simp [north, strideY, shiftY]
      rw [hwest, hnorth, mul_add_div_width, mul_add_div_width, Ucoord.at3, ← hlive]
    · cases hk
  | shiftedCartesian =>
    have hx : strideX .shiftedCartesian lib lyt.clocked.arrangement = lib.gateXSize :=
      if_neg fun h => absurd h.1 (by decide)
    have hy : strideY .shiftedCartesian lib lyt.clocked.arrangement = lib.gateYSize :=
      if_neg fun h => absurd h.1 (by decide)
    have hk : LayoutKind.shiftedCartesian ≠ .cartesian := by decide
    simp only [CellsFit, KeepsZones, west_div hk hx, north_div hk hy, ne_eq, reduceCtorEq,
      not_false_eq_true, true_implies, false_implies, and_true]
  | hexagonal =>
    have hk : LayoutKind.hexagonal ≠ .cartesian := by decide
    have hzone : ∀ (t : Tile) (x : Fin lib.gateXSize) (y : Fin lib.gateYSize),
        Ucoord.at3 ((west .hexagonal lib lyt t + x) / lib.gateXSize)
          ((north .hexagonal lib lyt t + y) / lib.gateYSize) t.z = hexagonZone lib lyt t x y := by
      intro t x y
      rw [hexagonZone]
      cases hp : isPointyTop lyt.clocked.arrangement with
      | true =>
        have hx : strideX .hexagonal lib lyt.clocked.arrangement = lib.gateXSize := by
          rw [strideX, hp, if_neg fun h => absurd h.2 (by decide)]
        rw [west_div hk hx, if_pos rfl, north, strideY, shiftY, hp,
          isInShiftedColumn_eq_false_of_pointyTop hp, if_pos ⟨rfl, rfl⟩,
          if_neg fun h => absurd h.2 Bool.false_ne_true, Nat.add_zero]
      | false =>
        have hy : strideY .hexagonal lib lyt.clocked.arrangement = lib.gateYSize := by
          rw [strideY, hp, if_neg fun h => absurd h.2 (by decide)]
        rw [north_div hk hy, if_neg Bool.false_ne_true, west, strideX, shiftX, hp,
          isInShiftedRow_eq_false hp, if_pos ⟨rfl, rfl⟩,
          if_neg fun h => absurd h.2 Bool.false_ne_true, Nat.add_zero]
    simp only [CellsFit, KeepsZones, hzone, ne_eq, reduceCtorEq, not_false_eq_true, true_implies]

end Roomy

variable [DecidableEq τ]

theorem writes_iff_filled (hn : n ∈ gateNodes lyt) (c : Ucoord) : Writes kind lib lyt n c ↔
    Representable kind lib lyt (lyt.getTile n) ∧
      ∃ x y, Filled lib lyt (lyt.getTile n) x y ∧
        writtenCell kind lib lyt (lyt.getTile n) x y = c := by
  rw [writes_iff]
  constructor
  · rintro ⟨c', g, x, y, ⟨-, ho, hg⟩, hp, hfilled⟩
    obtain ⟨hr, rfl⟩ := origin_eq_ok_iff.mp ho
    rw [cellPosition_origin] at hp
    exact ⟨hr, x, y, ⟨g, hg, hfilled⟩, hp⟩
  · rintro ⟨hr, x, y, ⟨g, hg, hfilled⟩, hp⟩
    rw [← cellPosition_origin] at hp
    exact ⟨_, g, x, y, ⟨(mem_gateNodes.mp hn).2, origin_eq_ok hr, hg⟩, hp, hfilled⟩

theorem assignGates_spec {cellLyt : CellLyt τ} (h : assignGates kind lib lyt = .ok cellLyt) :
    (initialLayout lib lyt).SameZones cellLyt ∧
      (∀ n ∈ gateNodes lyt, Representable kind lib lyt (lyt.getTile n)) ∧
      ∀ c, cellLyt.isEmptyCell c = false ↔ ∃ n ∈ gateNodes lyt, Writes kind lib lyt n c := by
  obtain ⟨hzones, hgates, hfilled⟩ := foldlM_assignNode h
  refine ⟨hzones, ?_, ?_⟩
  · intro n hn
    obtain ⟨c, g, -, ho, -⟩ := hgates n (mem_gateNodes.mp hn).1 (mem_gateNodes.mp hn).2
    exact (origin_eq_ok_iff.mp ho).1
  · intro c
    have hempty : ¬ (initialLayout lib lyt).isEmptyCell c = false := by
      simp [CellStorage.isEmptyCell, CellStorage.getCellType, CellStorage.new, initialLayout]
    rw [hfilled, or_iff_right hempty]
    constructor
    · rintro ⟨n, hn, hw⟩
      obtain ⟨_, _, _, _, hg, -⟩ := (writes_iff c).mp hw
      exact ⟨n, mem_gateNodes.mpr ⟨hn, hg.1⟩, hw⟩
    · rintro ⟨n, hn, hw⟩
      exact ⟨n, (mem_gateNodes.mp hn).1, hw⟩

theorem exists_assignGates (hexc : ∀ e, assignGates kind lib lyt ≠ .error (.exception e))
    (hr : ∀ n ∈ gateNodes lyt, Representable kind lib lyt (lyt.getTile n)) :
    ∃ cellLyt, assignGates kind lib lyt = .ok cellLyt := by
  cases hrun : assignGates kind lib lyt with
  | ok cellLyt => exact ⟨cellLyt, rfl⟩
  | error e =>
    cases e with
    | exception e => exact absurd hrun (hexc e)
    | overflow =>
      obtain ⟨n, hn, l, hstep⟩ := exists_assignNode_eq_error hrun
      obtain ⟨hc, ho | ⟨e', -, he⟩⟩ := assignNode_eq_error hstep
      · rw [origin_eq_ok (hr n (mem_gateNodes.mpr ⟨hn, hc⟩))] at ho
        contradiction
      · contradiction

theorem Geometry.stemsFrom {cellLyt : CellLyt τ} (h : Geometry kind lib lyt cellLyt)
    (hn : n ∈ gateNodes lyt) (hp : lyt.isPlaced n = true)
    (hr : Representable kind lib lyt (lyt.getTile n)) {x : Fin lib.gateXSize}
    {y : Fin lib.gateYSize} (hf : Filled lib lyt (lyt.getTile n) x y) :
    StemsFrom kind lib lyt (cellOf kind lib lyt (lyt.getTile n) x y) (lyt.getTile n) := by
  have hstems : StemsFrom kind lib lyt (writtenCell kind lib lyt (lyt.getTile n) x y)
      (lyt.getTile n) := ⟨n, hn, hp, rfl, (writes_iff_filled hn _).mpr ⟨hr, x, y, hf, rfl⟩⟩
  rwa [writtenCell_eq hr (h.block _ _ hstems)] at hstems

theorem Fits.stemsFrom_iff (h : Fits kind lib lyt) (c : Ucoord) (t : Tile) :
    StemsFrom kind lib lyt c t ↔ ∃ n ∈ gateNodes lyt, lyt.isPlaced n = true ∧ lyt.getTile n = t ∧
      ∃ x y, Filled lib lyt t x y ∧ cellOf kind lib lyt t x y = c := by
  have hpos : ∀ n ∈ gateNodes lyt, lyt.isPlaced n = true → ∀ x y,
      Filled lib lyt (lyt.getTile n) x y →
        writtenCell kind lib lyt (lyt.getTile n) x y =
          cellOf kind lib lyt (lyt.getTile n) x y := by
    intro n hn hp x y hf
    obtain ⟨hx, hy, -⟩ := h.border n hn hp x y hf
    exact writtenCell_eq_of_lt (hx.trans_lt cellDimension_lt.1) (hy.trans_lt cellDimension_lt.2)
  constructor
  · rintro ⟨n, hn, hp, rfl, hw⟩
    obtain ⟨-, x, y, hf, rfl⟩ := (writes_iff_filled hn c).mp hw
    exact ⟨n, hn, hp, rfl, x, y, hf, (hpos n hn hp x y hf).symm⟩
  · rintro ⟨n, hn, hp, rfl, x, y, hf, rfl⟩
    refine ⟨n, hn, hp, rfl, (writes_iff_filled hn _).mpr ⟨h.representable n hn, x, y, hf, ?_⟩⟩
    exact hpos n hn hp x y hf

theorem Fits.unique (h : Fits kind lib lyt) {c : Ucoord} {t t' : Tile}
    (ht : StemsFrom kind lib lyt c t) (ht' : StemsFrom kind lib lyt c t') : t = t' := by
  obtain ⟨n, hn, hp, rfl, x, y, hf, hc⟩ := (h.stemsFrom_iff c t).mp ht
  obtain ⟨n', hn', hp', rfl, x', y', hf', hc'⟩ := (h.stemsFrom_iff c t').mp ht'
  have hsame := hc.trans hc'.symm
  by_cases hk : kind = .hexagonal
  · by_contra hne
    simp only [cellOf, Ucoord.at3, Ucoord.mk.injEq, true_and] at hsame
    obtain ⟨hz, hnorth, hwest⟩ := hsame
    exact h.apart hk n hn n' hn' hp hp' hne hz x y x' y' hf hf' hwest hnorth
  · exact cellOf_injective hk (by simpa [GateLevelLayout.isPlaced] using hp)
      (by simpa [GateLevelLayout.isPlaced] using hp') hsame

theorem Fits.geometry (h : Fits kind lib lyt) {cellLyt : CellLyt τ}
    (hrun : assignGates kind lib lyt = .ok cellLyt) : Geometry kind lib lyt cellLyt := by
  obtain ⟨hzones, -, hfilled⟩ := assignGates_spec hrun
  have hunplaced : ∀ n ∈ gateNodes lyt, lyt.isPlaced n = false →
      ∀ c, ¬ Writes kind lib lyt n c := by
    intro n hn hp c hw
    obtain ⟨-, x, y, hf, -⟩ := (writes_iff_filled hn c).mp hw
    exact h.unplaced n hn hp x y hf
  have hstems : ∀ c, cellLyt.isEmptyCell c = false → ∃ t, StemsFrom kind lib lyt c t := by
    intro c hc
    obtain ⟨n, hn, hw⟩ := (hfilled c).mp hc
    cases hp : lyt.isPlaced n with
    | true => exact ⟨_, n, hn, hp, rfl, hw⟩
    | false => exact absurd hw (hunplaced n hn hp c)
  refine ⟨?_, ?_, ?_, hunplaced, ?_⟩
  · intro c hc
    obtain ⟨t, ht⟩ := hstems c hc
    obtain ⟨n, hn, hp, rfl, x, y, hf, rfl⟩ := (h.stemsFrom_iff c t).mp ht
    exact (isWithinBounds_of_sameZones hzones _ x y).mpr (h.border n hn hp x y hf)
  · intro c hc
    obtain ⟨t, ht⟩ := hstems c hc
    exact ⟨t, ht, fun t' ht' => h.unique ht' ht⟩
  · intro c t ht
    obtain ⟨n, -, -, rfl, x, y, -, rfl⟩ := (h.stemsFrom_iff c t).mp ht
    exact cellOf_mem_block
  · intro c t ht
    obtain ⟨n, hn, hp, rfl, x, y, hf, rfl⟩ := (h.stemsFrom_iff c t).mp ht
    rw [getClockNumber_of_sameZones hzones]
    exact h.zone n hn hp x y hf

theorem Geometry.fits {cellLyt : CellLyt τ} (h : Geometry kind lib lyt cellLyt)
    (hrun : assignGates kind lib lyt = .ok cellLyt) : Fits kind lib lyt := by
  obtain ⟨hzones, hr, hfilled⟩ := assignGates_spec hrun
  have hnonempty : ∀ c t, StemsFrom kind lib lyt c t → cellLyt.isEmptyCell c = false := by
    rintro c t ⟨n, hn, -, -, hw⟩
    exact (hfilled c).mpr ⟨n, hn, hw⟩
  refine ⟨hr, ?_, ?_, ?_, ?_⟩
  · intro n hn hp x y hf
    exact h.unplaced n hn hp _ ((writes_iff_filled hn _).mpr ⟨hr n hn, x, y, hf, rfl⟩)
  · intro n hn hp x y hf
    have hstems := h.stemsFrom hn hp (hr n hn) hf
    exact (isWithinBounds_of_sameZones hzones _ x y).mp (h.within _ (hnonempty _ _ hstems))
  · intro n hn hp x y hf
    have hclock := h.clocked _ _ (h.stemsFrom hn hp (hr n hn) hf)
    rwa [getClockNumber_of_sameZones hzones] at hclock
  · intro _ n hn n' hn' hp hp' hne hz x y x' y' hf hf' hwest hnorth
    have hstems := h.stemsFrom hn hp (hr n hn) hf
    have hstems' := h.stemsFrom hn' hp' (hr n' hn') hf'
    have hsame : cellOf kind lib lyt (lyt.getTile n') x' y' =
        cellOf kind lib lyt (lyt.getTile n) x y := by
      simp only [cellOf, hz, hwest, hnorth]
    rw [hsame] at hstems'
    exact hne ((h.stems _ (hnonempty _ _ hstems)).unique hstems hstems')

/-- A library with the sizes of Bestagon gates, whose only gate is the first dot of their wires. -/
def singleDot : GateLibrary SidbCellType Empty where
  gateXSize := 60
  gateYSize := 46
  gateXSize_lt := by decide
  gateYSize_lt := by decide
  setUpGate _ _ := .ok fun y x => if y.val = 6 ∧ x.val = 16 then .normal else .empty
  postLayoutOptimization := none

/-- A hexagonal layout whose only gate is in the third of three rows. -/
def thirdRow : GateLevelLayout :=
  let clocked : ClockedLayout := ⟨⟨.at2 0 2, .oddRowHex⟩, (NamedScheme.rowClocking .four).clocking⟩
  ((GateLevelLayout.empty clocked "").createPi "a" (.at2 0 2)).1

/-- The gate starts in row `68` of the cells and its dot is in row `74`, which belongs to the second
of the clock zones of 46 rows each. -/
theorem thirdRow_not_geometryCorrect : ¬ GeometryCorrect .hexagonal singleDot thirdRow := by
  rintro ⟨cellLyt, hrun, hgeo⟩
  have hzone := (hgeo.fits hrun).zone 2 (by decide) (by decide) ⟨16, by decide⟩ ⟨6, by decide⟩
    ⟨_, rfl, by decide⟩
  revert hzone
  decide

/-- Unless the library throws an exception, the geometry is the intended one if and only if the
gates fit. -/
theorem geometryCorrect_iff_fits (hexc : ∀ e, assignGates kind lib lyt ≠ .error (.exception e)) :
    (GeometryCorrect kind lib lyt ↔ Fits kind lib lyt) ∧
      (Roomy lib lyt → (Fits kind lib lyt ↔ CellsFit lib lyt kind)) := by
  refine ⟨⟨?_, fun h => ?_⟩, fun hroom => hroom.fits_iff_cellsFit⟩
  · rintro ⟨cellLyt, hrun, hgeo⟩
    exact hgeo.fits hrun
  · obtain ⟨cellLyt, hrun⟩ := exists_assignGates hexc h.representable
    exact ⟨cellLyt, hrun, h.geometry hrun⟩

theorem geometryCorrect_iff_fits_thirdRow :
    (∀ e, assignGates .hexagonal singleDot thirdRow ≠ .error (.exception e)) ∧
      (GeometryCorrect .hexagonal singleDot thirdRow ↔ Fits .hexagonal singleDot thirdRow) ∧
      (Fits .hexagonal singleDot thirdRow ↔ CellsFit singleDot thirdRow .hexagonal) := by
  have hexc : ∀ e, assignGates .hexagonal singleDot thirdRow ≠ .error (.exception e) :=
    fun e => e.elim
  have hnodes : ∀ n ∈ gateNodes thirdRow, n = 2 := by decide
  obtain ⟨hcorrect, hfits⟩ := geometryCorrect_iff_fits hexc
  refine ⟨hexc, hcorrect, hfits ⟨by decide, by decide, fun n hn => ?_⟩⟩
  rw [hnodes n hn]
  exact ⟨rfl, by decide, by decide, by decide⟩

end Results

end Fiction.GateAssignment
