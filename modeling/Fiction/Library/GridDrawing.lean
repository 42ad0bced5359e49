import Mathlib.Algebra.Order.Group.Nat
import Mathlib.Logic.Function.Basic
import Mathlib.Tactic.Common

/-!
# Orthogonal drawings on a grid

Edges are drawn as runs along the rows and the columns of a grid. Two runs may cross; vertices and
bends have their position to themselves. A drawing grows column by column and row by row: a vertex
that waits for an outgoing edge owns the rest of its row or of its column, a port. Nothing that is
added later on gets into the way of a port, and the runs that start at ports meet nothing but runs
that they cross.
-/

namespace Fiction.GridDrawing

inductive Content
  | blank
  | horizontal
  | vertical
  | crossing
  | vertex
  deriving DecidableEq

namespace Content

variable {c : Content}

def AdmitsRow (c : Content) : Prop := c = .blank ∨ c = .vertical

def AdmitsColumn (c : Content) : Prop := c = .blank ∨ c = .horizontal

def addRow (c : Content) : Content := if c = .blank then .horizontal else .crossing

def addColumn (c : Content) : Content := if c = .blank then .vertical else .crossing

theorem eq_blank (hr : c.AdmitsRow) (hc : c.AdmitsColumn) : c = .blank := by
  rcases hr with h | h
  · exact h
  · rcases hc with h' | h' <;> rw [h] at h' <;> cases h'

theorem addRow_admitsColumn (hr : c.AdmitsRow) (hc : c.AdmitsColumn) : c.addRow.AdmitsColumn := by
  rw [addRow, if_pos (eq_blank hr hc)]
  exact .inr rfl

theorem addColumn_admitsRow (hr : c.AdmitsRow) (hc : c.AdmitsColumn) : c.addColumn.AdmitsRow := by
  rw [addColumn, if_pos (eq_blank hr hc)]
  exact .inr rfl

end Content

abbrev Drawing := ℕ → ℕ → Content

namespace Drawing

variable {d : Drawing} {x y a b i j c r : ℕ}

/-- A run along row `y`, strictly between the columns `a` and `b`. -/
def drawEast (d : Drawing) (y a b : ℕ) : Drawing := fun i j =>
  if j = y ∧ a < i ∧ i < b then (d i j).addRow else d i j

/-- A run along column `x`, strictly between the rows `a` and `b`. -/
def drawSouth (d : Drawing) (x a b : ℕ) : Drawing := fun i j =>
  if i = x ∧ a < j ∧ j < b then (d i j).addColumn else d i j

def put (d : Drawing) (x y : ℕ) : Drawing := fun i j => if i = x ∧ j = y then .vertex else d i j

/-- The rest of row `y` behind column `c` admits a run. -/
def RowFree (d : Drawing) (y c : ℕ) : Prop := ∀ i, c < i → (d i y).AdmitsRow

/-- The rest of column `x` behind row `r` admits a run. -/
def ColumnFree (d : Drawing) (x r : ℕ) : Prop := ∀ j, r < j → (d x j).AdmitsColumn

theorem drawEast_of_ne (h : j ≠ y ∨ i ≤ a ∨ b ≤ i) : d.drawEast y a b i j = d i j :=
  if_neg (by omega)

theorem drawSouth_of_ne (h : i ≠ x ∨ j ≤ a ∨ b ≤ j) : d.drawSouth x a b i j = d i j :=
  if_neg (by omega)

theorem put_of_ne (h : i ≠ x ∨ j ≠ y) : d.put x y i j = d i j := if_neg (by omega)

@[simp] theorem put_self : d.put x y x y = .vertex := if_pos ⟨rfl, rfl⟩

theorem RowFree.drawSouth (h : d.RowFree y c) (hx : d.ColumnFree x r) :
    (d.drawSouth x r b).RowFree y c := by
  intro i hi
  unfold Drawing.drawSouth
  split_ifs with hrun
  · obtain ⟨rfl, hr, -⟩ := hrun
    exact Content.addColumn_admitsRow (h i hi) (hx y hr)
  · exact h i hi

theorem ColumnFree.drawEast (h : d.ColumnFree x r) (hy : d.RowFree y c) :
    (d.drawEast y c b).ColumnFree x r := by
  intro j hj
  unfold Drawing.drawEast
  split_ifs with hrun
  · obtain ⟨rfl, hc, -⟩ := hrun
    exact Content.addRow_admitsColumn (hy x hc) (h j hj)
  · exact h j hj

theorem RowFree.drawEast (h : d.RowFree y c) (hne : y ≠ j ∨ b ≤ c + 1) :
    (d.drawEast j a b).RowFree y c := by
  intro i hi
  rw [drawEast_of_ne (by omega)]
  exact h i hi

theorem ColumnFree.drawSouth (h : d.ColumnFree x r) (hne : x ≠ i ∨ b ≤ r + 1) :
    (d.drawSouth i a b).ColumnFree x r := by
  intro j hj
  rw [drawSouth_of_ne (by omega)]
  exact h j hj

theorem RowFree.put (h : d.RowFree y c) (hne : y ≠ j ∨ i ≤ c) : (d.put i j).RowFree y c := by
  intro k hk
  rw [put_of_ne (by omega)]
  exact h k hk

theorem ColumnFree.put (h : d.ColumnFree x r) (hne : x ≠ i ∨ j ≤ r) :
    (d.put i j).ColumnFree x r := by
  intro k hk
  rw [put_of_ne (by omega)]
  exact h k hk

theorem RowFree.mono (h : d.RowFree y a) (hab : a ≤ b) : d.RowFree y b :=
  fun i hi => h i (hab.trans_lt hi)

theorem ColumnFree.mono (h : d.ColumnFree x a) (hab : a ≤ b) : d.ColumnFree x b :=
  fun j hj => h j (hab.trans_lt hj)

end Drawing

structure Plan where
  drawing : Drawing
  columns : ℕ
  rows : ℕ
  eastPort : ℕ → Option ℕ
  southPort : ℕ → Option ℕ

/-- What keeps the ports free. Edges may also lead to vertices on the border, the column `border`,
before the columns in front of it are in use. The first column is that of the vertices that open
rows, and nothing leaves them along the column. -/
structure Plan.Tidy (border : ℕ) (p : Plan) : Prop where
  columns_pos : 0 < p.columns
  southPort_zero : p.southPort 0 = none
  rows_blank : ∀ i j, p.rows ≤ j → p.drawing i j = .blank
  columns_free : ∀ i j, p.columns ≤ i →
    p.drawing i j = .blank ∨ p.drawing i j = .horizontal ∨ i = border ∧ p.drawing i j = .vertex
  east : ∀ y c, p.eastPort y = some c → c < p.columns ∧ y < p.rows ∧ p.drawing.RowFree y c
  south : ∀ x r, p.southPort x = some r → x < p.columns ∧ r < p.rows ∧ p.drawing.ColumnFree x r

namespace Plan

def blank : Plan where
  drawing _ _ := .blank
  columns := 1
  rows := 0
  eastPort _ := none
  southPort _ := none

variable (p : Plan)

def enter : Plan where
  drawing := p.drawing.put 0 p.rows
  columns := p.columns
  rows := p.rows + 1
  eastPort := Function.update p.eastPort p.rows (some 0)
  southPort := p.southPort

/-- An edge leaves the port of row `y` for a vertex in the next column. -/
def reachEast (y c : ℕ) : Plan where
  drawing := (p.drawing.drawEast y c p.columns).put p.columns y
  columns := p.columns + 1
  rows := p.rows
  eastPort := Function.update p.eastPort y (some p.columns)
  southPort := Function.update p.southPort p.columns (some y)

/-- An edge leaves the port of column `x` for a vertex in the next row. -/
def reachSouth (x r : ℕ) : Plan where
  drawing := (p.drawing.drawSouth x r p.rows).put x p.rows
  columns := p.columns
  rows := p.rows + 1
  eastPort := Function.update p.eastPort p.rows (some x)
  southPort := Function.update p.southPort x (some p.rows)

/-- The ports of column `x` and of row `y` meet in a vertex. -/
def meet (x r y c : ℕ) : Plan where
  drawing := ((p.drawing.drawSouth x r y).drawEast y c x).put x y
  columns := p.columns
  rows := p.rows
  eastPort := Function.update p.eastPort y (some x)
  southPort := Function.update p.southPort x (some y)

/-- An edge leaves the port of row `y` for a vertex on the border. -/
def leave (border y c : ℕ) : Plan where
  drawing := (p.drawing.drawEast y c border).put border y
  columns := p.columns
  rows := p.rows
  eastPort := Function.update p.eastPort y none
  southPort := p.southPort

def skipColumn : Plan := { p with columns := p.columns + 1 }

end Plan

theorem port_cases {f : ℕ → Option ℕ} {k v k' v' : ℕ}
    (h : Function.update f k (some v) k' = some v') : k' = k ∧ v' = v ∨ k' ≠ k ∧ f k' = some v' := by
  rw [Function.update_apply] at h
  split_ifs at h with hk
  · exact .inl ⟨hk, (Option.some.inj h).symm⟩
  · exact .inr ⟨hk, h⟩

namespace Plan.Tidy

variable {border : ℕ} {p : Plan} {x y c r : ℕ}

theorem blank : Plan.blank.Tidy border where
  columns_pos := Nat.one_pos
  southPort_zero := rfl
  rows_blank _ _ _ := rfl
  columns_free _ _ _ := .inl rfl
  east _ _ h := by cases h
  south _ _ h := by cases h

theorem blank_of_eastPort (h : p.Tidy border) (hy : p.eastPort y = some c) {i : ℕ}
    (hi : p.columns ≤ i) : p.drawing i y = .blank := by
  obtain ⟨hc, -, hrow⟩ := h.east y c hy
  rcases hrow i (hc.trans_le hi) with hb | hv
  · exact hb
  · have hfree := h.columns_free i y hi
    simp only [hv, reduceCtorEq, false_or, and_false] at hfree

theorem columnFree_columns (h : p.Tidy border) (hb : p.columns < border) :
    p.drawing.ColumnFree p.columns r := by
  intro j _
  rcases h.columns_free p.columns j le_rfl with hblank | hrow | ⟨hborder, -⟩
  · exact .inl hblank
  · exact .inr hrow
  · omega

theorem rowFree_rows (h : p.Tidy border) : p.drawing.RowFree p.rows c :=
  fun i _ => .inl (h.rows_blank i p.rows le_rfl)

theorem columns_free_of_eq {d : Drawing} {n : ℕ} (h : p.Tidy border) (hn : p.columns ≤ n)
    (hd : ∀ i j, n ≤ i → d i j = p.drawing i j) (i j : ℕ) (hi : n ≤ i) :
    d i j = .blank ∨ d i j = .horizontal ∨ i = border ∧ d i j = .vertex := by
  rw [hd i j hi]
  exact h.columns_free i j (hn.trans hi)

theorem enter (h : p.Tidy border) : p.enter.Tidy border where
  columns_pos := h.columns_pos
  southPort_zero := h.southPort_zero
  rows_blank i j hj := by
    have hj' : p.rows < j := hj
    exact (Drawing.put_of_ne (by omega)).trans (h.rows_blank i j (by omega))
  columns_free := h.columns_free_of_eq le_rfl fun i j hi =>
    Drawing.put_of_ne (.inl (h.columns_pos.trans_le hi).ne')
  east y c hy := by
    rcases port_cases hy with ⟨rfl, rfl⟩ | ⟨hne, hold⟩
    · exact ⟨h.columns_pos, Nat.lt_succ_self _, h.rowFree_rows.put (.inr le_rfl)⟩
    · obtain ⟨hc, hlt, hrow⟩ := h.east y c hold
      exact ⟨hc, hlt.trans (Nat.lt_succ_self _), hrow.put (.inl hne)⟩
  south x r hx := by
    obtain ⟨hlt, hr, hcol⟩ := h.south x r hx
    have hne : x ≠ 0 := by
      rintro rfl
      have hnone := h.southPort_zero
      rw [show p.southPort 0 = some r from hx] at hnone
      cases hnone
    exact ⟨hlt, hr.trans (Nat.lt_succ_self _), hcol.put (.inl hne)⟩

theorem reachEast (h : p.Tidy border) (hy : p.eastPort y = some c) (hb : p.columns < border) :
    (p.reachEast y c).Tidy border := by
  obtain ⟨hc, hlt, hrow⟩ := h.east y c hy
  have hpos := h.columns_pos
  have hnew : p.drawing.ColumnFree p.columns y := h.columnFree_columns hb
  constructor
  case columns_pos => exact Nat.succ_pos _
  case southPort_zero => exact (Function.update_of_ne (by omega) ..).trans h.southPort_zero
  case rows_blank =>
    intro i j hj
    have hj' : p.rows ≤ j := hj
    change ((p.drawing.drawEast y c p.columns).put p.columns y) i j = _
    rw [Drawing.put_of_ne (by omega), Drawing.drawEast_of_ne (by omega)]
    exact h.rows_blank i j hj
  case columns_free =>
    apply h.columns_free_of_eq (Nat.le_succ _)
    intro i j hi
    change ((p.drawing.drawEast y c p.columns).put p.columns y) i j = _
    rw [Drawing.put_of_ne (by omega), Drawing.drawEast_of_ne (by omega)]
  case east =>
    intro y' c' hy'
    rcases port_cases hy' with ⟨rfl, rfl⟩ | ⟨hne, hold⟩
    · have hfree : p.drawing.RowFree y' p.columns := hrow.mono hc.le
      exact ⟨Nat.lt_succ_self _, hlt, (hfree.drawEast (.inr (Nat.le_succ _))).put (.inr le_rfl)⟩
    · obtain ⟨hc', hlt', hrow'⟩ := h.east y' c' hold
      exact ⟨hc'.trans (Nat.lt_succ_self _), hlt', (hrow'.drawEast (.inl hne)).put (.inl hne)⟩
  case south =>
    intro x r hx
    rcases port_cases hx with ⟨rfl, rfl⟩ | ⟨hne, hold⟩
    · exact ⟨Nat.lt_succ_self _, hlt, (hnew.drawEast hrow).put (.inr le_rfl)⟩
    · obtain ⟨hlt', hr, hcol⟩ := h.south x r hold
      exact ⟨hlt'.trans (Nat.lt_succ_self _), hr, (hcol.drawEast hrow).put (.inl hne)⟩

theorem reachSouth (h : p.Tidy border) (hx : p.southPort x = some r) :
    (p.reachSouth x r).Tidy border := by
  obtain ⟨hlt, hr, hcol⟩ := h.south x r hx
  have hx0 : x ≠ 0 := by
    rintro rfl
    rw [h.southPort_zero] at hx
    cases hx
  constructor
  case columns_pos => exact h.columns_pos
  case southPort_zero => exact (Function.update_of_ne hx0.symm ..).trans h.southPort_zero
  case rows_blank =>
    intro i j hj
    have hj' : p.rows < j := hj
    change ((p.drawing.drawSouth x r p.rows).put x p.rows) i j = _
    rw [Drawing.put_of_ne (by omega), Drawing.drawSouth_of_ne (by omega)]
    exact h.rows_blank i j hj'.le
  case columns_free =>
    apply h.columns_free_of_eq le_rfl
    intro i j hi
    change ((p.drawing.drawSouth x r p.rows).put x p.rows) i j = _
    rw [Drawing.put_of_ne (by omega), Drawing.drawSouth_of_ne (by omega)]
  case east =>
    intro y c hy
    rcases port_cases hy with ⟨rfl, rfl⟩ | ⟨hne, hold⟩
    · exact ⟨hlt, Nat.lt_succ_self _, (h.rowFree_rows.drawSouth hcol).put (.inr le_rfl)⟩
    · obtain ⟨hc, hlt', hrow⟩ := h.east y c hold
      exact ⟨hc, hlt'.trans (Nat.lt_succ_self _), (hrow.drawSouth hcol).put (.inl hne)⟩
  case south =>
    intro x' r' hx'
    rcases port_cases hx' with ⟨rfl, rfl⟩ | ⟨hne, hold⟩
    · have hfree : p.drawing.ColumnFree x' p.rows := hcol.mono hr.le
      exact ⟨hlt, Nat.lt_succ_self _, (hfree.drawSouth (.inr (Nat.le_succ _))).put (.inr le_rfl)⟩
    · obtain ⟨hlt', hr', hcol'⟩ := h.south x' r' hold
      exact ⟨hlt', hr'.trans (Nat.lt_succ_self _), (hcol'.drawSouth (.inl hne)).put (.inl hne)⟩

theorem meet (h : p.Tidy border) (hx : p.southPort x = some r) (hy : p.eastPort y = some c)
    (hr : r < y) (hc : c < x) : (p.meet x r y c).Tidy border := by
  obtain ⟨hxlt, -, hcol⟩ := h.south x r hx
  obtain ⟨-, hylt, hrow⟩ := h.east y c hy
  have hcross : (p.drawing.drawSouth x r y).RowFree y c := hrow.drawSouth hcol
  constructor
  case columns_pos => exact h.columns_pos
  case southPort_zero => exact (Function.update_of_ne (by omega) ..).trans h.southPort_zero
  case rows_blank =>
    intro i j hj
    have hj' : p.rows ≤ j := hj
    change (((p.drawing.drawSouth x r y).drawEast y c x).put x y) i j = _
    rw [Drawing.put_of_ne (by omega), Drawing.drawEast_of_ne (by omega),
      Drawing.drawSouth_of_ne (by omega)]
    exact h.rows_blank i j hj
  case columns_free =>
    apply h.columns_free_of_eq le_rfl
    intro i j hi
    change (((p.drawing.drawSouth x r y).drawEast y c x).put x y) i j = _
    rw [Drawing.put_of_ne (by omega), Drawing.drawEast_of_ne (by omega),
      Drawing.drawSouth_of_ne (by omega)]
  case east =>
    intro y' c' hy'
    rcases port_cases hy' with ⟨rfl, rfl⟩ | ⟨hne, hold⟩
    · have hfree : (p.drawing.drawSouth c' r y').RowFree y' c' := hcross.mono hc.le
      exact ⟨hxlt, hylt, (hfree.drawEast (.inr (Nat.le_succ _))).put (.inr le_rfl)⟩
    · obtain ⟨hc', hlt, hrow'⟩ := h.east y' c' hold
      exact ⟨hc', hlt, ((hrow'.drawSouth hcol).drawEast (.inl hne)).put (.inl hne)⟩
  case south =>
    intro x' r' hx'
    rcases port_cases hx' with ⟨rfl, rfl⟩ | ⟨hne, hold⟩
    · have hfree : p.drawing.ColumnFree x' r' := hcol.mono hr.le
      exact ⟨hxlt, hylt,
        ((hfree.drawSouth (.inr (Nat.le_succ _))).drawEast hcross).put (.inr le_rfl)⟩
    · obtain ⟨hlt, hr', hcol'⟩ := h.south x' r' hold
      exact ⟨hlt, hr', ((hcol'.drawSouth (.inl hne)).drawEast hcross).put (.inl hne)⟩

theorem leave (h : p.Tidy border) (hy : p.eastPort y = some c) (hb : p.columns ≤ border) :
    (p.leave border y c).Tidy border := by
  obtain ⟨hc, hlt, hrow⟩ := h.east y c hy
  constructor
  case columns_pos => exact h.columns_pos
  case southPort_zero => exact h.southPort_zero
  case rows_blank =>
    intro i j hj
    have hj' : p.rows ≤ j := hj
    change ((p.drawing.drawEast y c border).put border y) i j = _
    rw [Drawing.put_of_ne (by omega), Drawing.drawEast_of_ne (by omega)]
    exact h.rows_blank i j hj
  case columns_free =>
    intro i j hi
    have hi' : p.columns ≤ i := hi
    simp only [Plan.leave, Drawing.put, Drawing.drawEast]
    split_ifs with hvertex hrun
    · exact .inr (.inr ⟨hvertex.1, rfl⟩)
    · right
      left
      rw [hrun.1, h.blank_of_eastPort hy hi]
      rfl
    · exact h.columns_free i j hi
  case east =>
    intro y' c' hy'
    by_cases hne : y' = y
    · rw [hne, show (p.leave border y c).eastPort y = none from Function.update_self ..] at hy'
      cases hy'
    · obtain ⟨hc', hlt', hrow'⟩ := h.east y' c' ((Function.update_of_ne hne ..).symm.trans hy')
      exact ⟨hc', hlt', (hrow'.drawEast (.inl hne)).put (.inl hne)⟩
  case south =>
    intro x r hx
    obtain ⟨hlt', hr, hcol⟩ := h.south x r hx
    exact ⟨hlt', hr, (hcol.drawEast hrow).put (.inl (by omega))⟩

theorem skipColumn (h : p.Tidy border) : p.skipColumn.Tidy border where
  columns_pos := Nat.succ_pos _
  southPort_zero := h.southPort_zero
  rows_blank := h.rows_blank
  columns_free i j hi := h.columns_free i j ((Nat.le_succ _).trans hi)
  east y c hy := by
    obtain ⟨hc, hlt, hrow⟩ := h.east y c hy
    exact ⟨hc.trans (Nat.lt_succ_self _), hlt, hrow⟩
  south x r hx := by
    obtain ⟨hlt, hr, hcol⟩ := h.south x r hx
    exact ⟨hlt.trans (Nat.lt_succ_self _), hr, hcol⟩

end Plan.Tidy

end Fiction.GridDrawing
