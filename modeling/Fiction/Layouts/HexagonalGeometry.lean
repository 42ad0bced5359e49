import Fiction.Layouts.GroundTiles
import Mathlib.Tactic.LinearCombination
import Mathlib.Tactic.Ring

/-!
# Hexagonal geometry

Offset coordinates are stored in unsigned fields of 31 bits, cube coordinates in signed words of 32
bits. The conversions between them and the directions that are computed through them describe the
hexagonal grid as long as the cube coordinates of all faces and of their neighbours fit and no
neighbour wraps around.
-/

namespace Fiction.CoordinateLayout

/-- A value of a signed word. The arithmetic of such words is undefined where it overflows. -/
def int32 (v : ℤ) : Option ℤ := if -2 ^ 31 ≤ v ∧ v < 2 ^ 31 then some v else none

def IsInt32 (v : ℤ) : Prop := -2 ^ 31 ≤ v ∧ v < 2 ^ 31

theorem int32_eq_some {v w : ℤ} : int32 v = some w ↔ IsInt32 v ∧ w = v := by
  unfold int32 IsInt32
  split_ifs with h
  · simp only [h, Option.some.injEq, true_and, eq_comm]
  · simp only [h, false_and]

/-- How far two faces are apart. -/
def Cube.distance (a b : Cube) : ℕ :=
  max (a.x - b.x).natAbs (max (a.y - b.y).natAbs (a.z - b.z).natAbs)

namespace Checked

variable (lyt : CoordinateLayout)

-- a field of 31 bits is promoted to a signed word before any arithmetic
def toCubeCoordinate (c : Ucoord) : Option Cube :=
  let offset := hexOffset lyt.arrangement
  if isPointyTop lyt.arrangement then do
    let rows ← int32 (c.y + offset * ((c.y : ℤ) % 2))
    let cx ← int32 (c.x - rows.tdiv 2)
    let cy ← int32 (-cx - c.y)
    return ⟨cx, cy, c.y⟩
  else do
    let columns ← int32 (c.x + offset * ((c.x : ℤ) % 2))
    let cz ← int32 (c.y - columns.tdiv 2)
    let cy ← int32 (-c.x - cz)
    return ⟨c.x, cy, cz⟩

def add (a b : Cube) : Option Cube := do
  let x ← int32 (a.x + b.x)
  let y ← int32 (a.y + b.y)
  let z ← int32 (a.z + b.z)
  return ⟨x, y, z⟩

-- the last addition is one of 64-bit words
def toOffsetCoordinate (c : Cube) : Option Ucoord :=
  let offset := hexOffset lyt.arrangement
  if isPointyTop lyt.arrangement then do
    let rows ← int32 (c.z + offset * (c.z % 2))
    return .at2 (toField (c.x + rows.tdiv 2)) (toField c.z)
  else do
    let columns ← int32 (c.x + offset * (c.x % 2))
    return .at2 (toField c.x) (toField (c.z + columns.tdiv 2))

def hexNeighbour (c : Ucoord) (dir : Cube) : Option Ucoord := do
  let cube ← toCubeCoordinate lyt c
  let next ← add cube dir
  let neighbour ← toOffsetCoordinate lyt next
  return { neighbour with z := c.z }

def adjacentCoordinates (c : Ucoord) : Option (List Ucoord) := do
  let neighbours ← cubeDirections.mapM (hexNeighbour lyt c)
  return neighbours.filter lyt.isWithinBounds

def hexDirection (c : Ucoord) (dir : Cube) : Option Ucoord := do
  let neighbour ← hexNeighbour lyt c dir
  return if lyt.isWithinBounds neighbour then neighbour else c

/-- The direction vectors of the diagonal directions. -/
def northEastVector : Cube := ⟨1, 0, -1⟩

def southEastVector : Cube :=
  if isPointyTop lyt.arrangement then ⟨0, -1, 1⟩ else ⟨1, -1, 0⟩

def southWestVector : Cube := ⟨-1, 0, 1⟩

def northWestVector : Cube :=
  if isPointyTop lyt.arrangement then ⟨0, 1, -1⟩ else ⟨-1, 1, 0⟩

def northEast (c : Ucoord) : Option Ucoord := hexDirection lyt c northEastVector

def southEast (c : Ucoord) : Option Ucoord := hexDirection lyt c (southEastVector lyt)

def southWest (c : Ucoord) : Option Ucoord := hexDirection lyt c southWestVector

def northWest (c : Ucoord) : Option Ucoord := hexDirection lyt c (northWestVector lyt)

end Checked

/-- No face of the layout lies one step further in direction `dir`. -/
def AtBorder (lyt : CoordinateLayout) (c : Ucoord) (dir : Cube) : Prop :=
  ∀ e, lyt.Inside e → e.z = c.z → lyt.toCubeCoordinate e ≠ (lyt.toCubeCoordinate c).add dir

/-- A diagonal direction and its opposite: one leads to a neighbour from which the other leads
back, or stays where it is at the border. -/
def LeadsBack (lyt : CoordinateLayout) (dir : Cube) (f g : Ucoord → Option Ucoord) : Prop :=
  ∀ c, lyt.Inside c → ∃ e, f c = some e ∧ (e = c ∧ lyt.AtBorder c dir ∨
    (∃ l, Checked.adjacentCoordinates lyt c = some l ∧ e ∈ l) ∧ g e = some c)

structure HexagonalGeometry (lyt : CoordinateLayout) : Prop where
  roundTrip : ∀ c, lyt.Inside c → ∃ cube o, Checked.toCubeCoordinate lyt c = some cube ∧
    Checked.toOffsetCoordinate lyt cube = some o ∧ o.x = c.x ∧ o.y = c.y
  adjacent : ∀ c, lyt.Inside c → ∃ l, Checked.adjacentCoordinates lyt c = some l ∧ l.Nodup ∧
    ∀ e, e ∈ l ↔ lyt.Inside e ∧ e.z = c.z ∧
      (lyt.toCubeCoordinate c).distance (lyt.toCubeCoordinate e) = 1
  symmetric : ∀ c e, lyt.Inside c → lyt.Inside e → ∀ l l',
    Checked.adjacentCoordinates lyt c = some l → Checked.adjacentCoordinates lyt e = some l' →
      e ∈ l → c ∈ l'
  irreflexive : ∀ c, lyt.Inside c → ∀ l, Checked.adjacentCoordinates lyt c = some l → c ∉ l
  northEast : lyt.LeadsBack Checked.northEastVector (Checked.northEast lyt) (Checked.southWest lyt)
  southWest : lyt.LeadsBack Checked.southWestVector (Checked.southWest lyt) (Checked.northEast lyt)
  southEast : lyt.LeadsBack (Checked.southEastVector lyt) (Checked.southEast lyt)
    (Checked.northWest lyt)
  northWest : lyt.LeadsBack (Checked.northWestVector lyt) (Checked.northWest lyt)
    (Checked.southEast lyt)

/-- The cube coordinates of all faces and of their neighbours can be represented. The two
orientations exchange the dimensions. -/
def CubeRepresentable (lyt : CoordinateLayout) : Prop :=
  match lyt.arrangement with
  | .oddRowHex => lyt.x < 2 ^ 31 - 1 ∧ lyt.y < 2 ^ 31 - 1 ∧ lyt.x + (lyt.y + 1) / 2 < 2 ^ 31
  | .evenRowHex => lyt.x < 2 ^ 31 - 1 ∧ lyt.y < 2 ^ 31 - 2 ∧ lyt.x + lyt.y / 2 < 2 ^ 31
  | .oddColumnHex => lyt.y < 2 ^ 31 - 1 ∧ lyt.x < 2 ^ 31 - 1 ∧ lyt.y + (lyt.x + 1) / 2 < 2 ^ 31
  | .evenColumnHex => lyt.y < 2 ^ 31 - 1 ∧ lyt.x < 2 ^ 31 - 2 ∧ lyt.y + lyt.x / 2 < 2 ^ 31
  | .cartesian => True

variable {lyt : CoordinateLayout} {c e : Ucoord} {dir : Cube}

section Arithmetic

/-- All intermediate values of a step from the face `a` along and `b` across the rows are signed
words. -/
structure StepRepresentable (off : ℤ) (a b : ℕ) (da dm db : ℤ) : Prop where
  rows : IsInt32 (b + off * ((b : ℤ) % 2))
  along : IsInt32 (a - ((b : ℤ) + off * ((b : ℤ) % 2)).tdiv 2)
  middle : IsInt32 (-((a : ℤ) - ((b : ℤ) + off * ((b : ℤ) % 2)).tdiv 2) - b)
  along_add : IsInt32 ((a : ℤ) - ((b : ℤ) + off * ((b : ℤ) % 2)).tdiv 2 + da)
  middle_add : IsInt32 (-((a : ℤ) - ((b : ℤ) + off * ((b : ℤ) % 2)).tdiv 2) - b + dm)
  across_add : IsInt32 (b + db)
  rows_add : IsInt32 (b + db + off * (((b : ℤ) + db) % 2))

/-- The greatest dimensions along and across the rows whose faces have representable steps. -/
def Bounded (off : ℤ) (a b : ℕ) : Prop :=
  a < 2 ^ 31 - 1 ∧ b < 2 ^ 31 - 1 ∧ (off = 1 → b < 2 ^ 31 - 2) ∧
    (a : ℤ) + (b - (b + off * ((b : ℤ) % 2)) / 2) < 2 ^ 31

theorem abs_le_one_of_mem_cubeDirections :
    ∀ d ∈ cubeDirections, |d.x| ≤ 1 ∧ |d.y| ≤ 1 ∧ |d.z| ≤ 1 := by decide

theorem StepRepresentable.of_bounded {off : ℤ} (hoff : off = 1 ∨ off = -1) {a b A B : ℕ}
    (h : Bounded off A B) (ha : a ≤ A) (hb : b ≤ B) {da dm db : ℤ}
    (hd : (⟨da, dm, db⟩ : Cube) ∈ cubeDirections) : StepRepresentable off a b da dm db := by
  obtain ⟨hA, hB, hB', hAB⟩ := h
  obtain ⟨hda, hdm, hdb⟩ := abs_le_one_of_mem_cubeDirections _ hd
  rw [abs_le] at hda hdm hdb
  dsimp only at hda hdm hdb
  constructor <;> simp only [tdiv_two_eq off _ hoff, IsInt32] <;> rcases hoff with rfl | rfl <;>
    omega

theorem bounded_of_stepRepresentable {off : ℤ} (hoff : off = 1 ∨ off = -1) {A B : ℕ}
    (hA : A < 2 ^ 31) (hB : B < 2 ^ 31)
    (h : ∀ a ≤ A, ∀ b ≤ B, ∀ d ∈ cubeDirections, StepRepresentable off a b d.x d.y d.z) :
    Bounded off A B := by
  have halong := (h A le_rfl 0 (Nat.zero_le B) ⟨1, -1, 0⟩ (by simp [cubeDirections])).along_add
  have hacross := (h 0 (Nat.zero_le A) B le_rfl ⟨0, -1, 1⟩ (by simp [cubeDirections])).across_add
  have hrows := (h 0 (Nat.zero_le A) B le_rfl ⟨0, -1, 1⟩ (by simp [cubeDirections])).rows_add
  have hmiddle := (h A le_rfl B le_rfl ⟨1, -1, 0⟩ (by simp [cubeDirections])).middle_add
  simp only [tdiv_two_eq off _ hoff, IsInt32] at halong hacross hrows hmiddle
  unfold Bounded
  rcases hoff with rfl | rfl <;> refine ⟨?_, ?_, ?_, ?_⟩ <;> omega

end Arithmetic

namespace Checked

theorem mapM_eq_some_iff {α β : Type*} {f : α → Option β} {g : α → β} {P : α → Prop}
    (h : ∀ a b, f a = some b ↔ P a ∧ b = g a) {l : List α} {r : List β} :
    l.mapM f = some r ↔ (∀ a ∈ l, P a) ∧ r = l.map g := by
  induction l generalizing r with
  | nil => simp [eq_comm]
  | cons a l ih =>
    simp only [List.mapM_cons, Option.bind_eq_bind, Option.bind_eq_some_iff, Option.pure_def,
      Option.some.injEq, h, ih, List.forall_mem_cons, List.map_cons]
    constructor
    · rintro ⟨_, ⟨ha, rfl⟩, _, ⟨hl, rfl⟩, rfl⟩
      exact ⟨⟨ha, hl⟩, rfl⟩
    · rintro ⟨⟨ha, hl⟩, rfl⟩
      exact ⟨_, ⟨ha, rfl⟩, _, ⟨hl, rfl⟩, rfl⟩

theorem hexNeighbour_eq_some_pointy (hp : isPointyTop lyt.arrangement = true) :
    hexNeighbour lyt c dir = some e ↔
      StepRepresentable (hexOffset lyt.arrangement) c.x c.y dir.x dir.y dir.z ∧
        e = lyt.hexNeighbour c dir := by
  simp only [hexNeighbour, toCubeCoordinate, add, toOffsetCoordinate, hp, if_true,
    Option.bind_eq_bind, Option.bind_eq_some_iff, int32_eq_some, Option.pure_def,
    Option.some.injEq]
  constructor
  · rintro ⟨_, ⟨_, ⟨h₁, rfl⟩, _, ⟨h₂, rfl⟩, _, ⟨h₃, rfl⟩, rfl⟩, _, ⟨_, ⟨h₄, rfl⟩, _, ⟨h₅, rfl⟩,
      _, ⟨h₆, rfl⟩, rfl⟩, _, ⟨_, ⟨h₇, rfl⟩, rfl⟩, rfl⟩
    refine ⟨⟨h₁, h₂, h₃, h₄, h₅, h₆, h₇⟩, ?_⟩
    rw [CoordinateLayout.hexNeighbour_pointy hp]
    rfl
  · rintro ⟨⟨h₁, h₂, h₃, h₄, h₅, h₆, h₇⟩, rfl⟩
    refine ⟨_, ⟨_, ⟨h₁, rfl⟩, _, ⟨h₂, rfl⟩, _, ⟨h₃, rfl⟩, rfl⟩, _, ⟨_, ⟨h₄, rfl⟩, _, ⟨h₅, rfl⟩,
      _, ⟨h₆, rfl⟩, rfl⟩, _, ⟨_, ⟨h₇, rfl⟩, rfl⟩, ?_⟩
    rw [CoordinateLayout.hexNeighbour_pointy hp]
    rfl

theorem hexNeighbour_eq_some_flat (hp : isPointyTop lyt.arrangement = false) :
    hexNeighbour lyt c dir = some e ↔
      StepRepresentable (hexOffset lyt.arrangement) c.y c.x dir.z dir.y dir.x ∧
        e = lyt.hexNeighbour c dir := by
  have hcomm : ∀ v : ℤ, -(c.x : ℤ) - v = -v - c.x := fun v => by omega
  simp only [hexNeighbour, toCubeCoordinate, add, toOffsetCoordinate, hp, Bool.false_eq_true,
    if_false, Option.bind_eq_bind, Option.bind_eq_some_iff, int32_eq_some, Option.pure_def,
    Option.some.injEq, hcomm]
  constructor
  · rintro ⟨_, ⟨_, ⟨h₁, rfl⟩, _, ⟨h₂, rfl⟩, _, ⟨h₃, rfl⟩, rfl⟩, _, ⟨_, ⟨h₄, rfl⟩, _, ⟨h₅, rfl⟩,
      _, ⟨h₆, rfl⟩, rfl⟩, _, ⟨_, ⟨h₇, rfl⟩, rfl⟩, rfl⟩
    refine ⟨⟨h₁, h₂, h₃, h₆, h₅, h₄, h₇⟩, ?_⟩
    rw [CoordinateLayout.hexNeighbour_flat hp]
    rfl
  · rintro ⟨⟨h₁, h₂, h₃, h₆, h₅, h₄, h₇⟩, rfl⟩
    refine ⟨_, ⟨_, ⟨h₁, rfl⟩, _, ⟨h₂, rfl⟩, _, ⟨h₃, rfl⟩, rfl⟩, _, ⟨_, ⟨h₄, rfl⟩, _, ⟨h₅, rfl⟩,
      _, ⟨h₆, rfl⟩, rfl⟩, _, ⟨_, ⟨h₇, rfl⟩, rfl⟩, ?_⟩
    rw [CoordinateLayout.hexNeighbour_flat hp]
    rfl

/-- All values of a step of the layout from `c` in direction `dir` are signed words. -/
def CanStep (lyt : CoordinateLayout) (c : Ucoord) (dir : Cube) : Prop :=
  if isPointyTop lyt.arrangement then
    StepRepresentable (hexOffset lyt.arrangement) c.x c.y dir.x dir.y dir.z
  else StepRepresentable (hexOffset lyt.arrangement) c.y c.x dir.z dir.y dir.x

theorem hexNeighbour_eq_some :
    hexNeighbour lyt c dir = some e ↔ CanStep lyt c dir ∧ e = lyt.hexNeighbour c dir := by
  unfold CanStep
  cases hp : isPointyTop lyt.arrangement with
  | true => exact hexNeighbour_eq_some_pointy hp
  | false => exact hexNeighbour_eq_some_flat hp

theorem adjacentCoordinates_eq_some (ha : lyt.arrangement ≠ .cartesian) {l : List Ucoord} :
    adjacentCoordinates lyt c = some l ↔
      (∀ dir ∈ cubeDirections, CanStep lyt c dir) ∧ l = lyt.adjacentCoordinates c := by
  simp only [adjacentCoordinates, Option.bind_eq_bind, Option.bind_eq_some_iff, Option.pure_def,
    Option.some.injEq, mapM_eq_some_iff fun _ _ => hexNeighbour_eq_some]
  rw [adjacentCoordinates_hex ha]
  constructor
  · rintro ⟨_, ⟨h, rfl⟩, rfl⟩
    exact ⟨h, rfl⟩
  · rintro ⟨h, rfl⟩
    exact ⟨_, ⟨h, rfl⟩, rfl⟩

theorem hexDirection_eq (h : CanStep lyt c dir) :
    hexDirection lyt c dir = some (lyt.hexDirection c dir) := by
  have hn : hexNeighbour lyt c dir = some (lyt.hexNeighbour c dir) :=
    hexNeighbour_eq_some.mpr ⟨h, rfl⟩
  rw [hexDirection, hn]
  rfl

theorem toCubeCoordinate_eq (h : CanStep lyt c dir) :
    toCubeCoordinate lyt c = some (lyt.toCubeCoordinate c) := by
  unfold CanStep at h
  cases hp : isPointyTop lyt.arrangement with
  | true =>
    rw [if_pos hp] at h
    simp only [toCubeCoordinate, CoordinateLayout.toCubeCoordinate, hp, if_true,
      Option.bind_eq_bind, Option.bind_eq_some_iff, int32_eq_some, Option.pure_def,
      Option.some.injEq]
    exact ⟨_, ⟨h.rows, rfl⟩, _, ⟨h.along, rfl⟩, _, ⟨h.middle, rfl⟩, rfl⟩
  | false =>
    have hcomm : ∀ v : ℤ, -(c.x : ℤ) - v = -v - c.x := fun v => by omega
    rw [if_neg (by simp [hp])] at h
    simp only [toCubeCoordinate, CoordinateLayout.toCubeCoordinate, hp, Bool.false_eq_true,
      if_false, Option.bind_eq_bind, Option.bind_eq_some_iff, int32_eq_some, Option.pure_def,
      Option.some.injEq, hcomm]
    exact ⟨_, ⟨h.rows, rfl⟩, _, ⟨h.along, rfl⟩, _, ⟨h.middle, rfl⟩, rfl⟩

theorem toOffsetCoordinate_eq (h : CanStep lyt c dir) :
    toOffsetCoordinate lyt (lyt.toCubeCoordinate c) =
      some (lyt.toOffsetCoordinate (lyt.toCubeCoordinate c)) := by
  unfold CanStep at h
  cases hp : isPointyTop lyt.arrangement with
  | true =>
    rw [if_pos hp] at h
    simp only [toOffsetCoordinate, CoordinateLayout.toOffsetCoordinate,
      CoordinateLayout.toCubeCoordinate, hp, if_true, Option.bind_eq_bind, Option.bind_eq_some_iff,
      int32_eq_some, Option.pure_def, Option.some.injEq]
    exact ⟨_, ⟨h.rows, rfl⟩, rfl⟩
  | false =>
    rw [if_neg (by simp [hp])] at h
    simp only [toOffsetCoordinate, CoordinateLayout.toOffsetCoordinate,
      CoordinateLayout.toCubeCoordinate, hp, Bool.false_eq_true, if_false, Option.bind_eq_bind,
      Option.bind_eq_some_iff, int32_eq_some, Option.pure_def, Option.some.injEq]
    exact ⟨_, ⟨h.rows, rfl⟩, rfl⟩

end Checked

/-- Every step is defined in exactly the layouts of representable size. -/
theorem canStep_iff (hf : lyt.Fits) (ha : lyt.arrangement ≠ .cartesian) :
    (∀ c, lyt.Inside c → ∀ dir ∈ cubeDirections, Checked.CanStep lyt c dir) ↔
      lyt.CubeRepresentable := by
  have hoff := hexOffset_eq lyt.arrangement
  have hinside : ∀ x ≤ lyt.x, ∀ y ≤ lyt.y, lyt.Inside (.at2 x y) := fun x hx y hy =>
    ⟨rfl, hx, hy, Nat.zero_le _⟩
  have hswap : ∀ d ∈ cubeDirections, (⟨d.z, d.y, d.x⟩ : Cube) ∈ cubeDirections := by
    intro d hd
    simp only [cubeDirections, List.mem_cons, List.not_mem_nil, or_false] at hd ⊢
    rcases hd with rfl | rfl | rfl | rfl | rfl | rfl <;> simp
  have hpointy : isPointyTop lyt.arrangement = true →
      ((∀ c, lyt.Inside c → ∀ dir ∈ cubeDirections, Checked.CanStep lyt c dir) ↔
        Bounded (hexOffset lyt.arrangement) lyt.x lyt.y) := by
    intro hp
    simp only [Checked.CanStep, hp, if_true]
    constructor
    · intro h
      exact bounded_of_stepRepresentable hoff hf.1 hf.2 fun a hA b hB d hd =>
        h _ (hinside a hA b hB) d hd
    · intro h c hc dir hd
      exact StepRepresentable.of_bounded hoff h hc.x_le hc.y_le hd
  have hflat : isPointyTop lyt.arrangement = false →
      ((∀ c, lyt.Inside c → ∀ dir ∈ cubeDirections, Checked.CanStep lyt c dir) ↔
        Bounded (hexOffset lyt.arrangement) lyt.y lyt.x) := by
    intro hp
    simp only [Checked.CanStep, hp, Bool.false_eq_true, if_false]
    constructor
    · intro h
      exact bounded_of_stepRepresentable hoff hf.2 hf.1 fun a hA b hB d hd =>
        h _ (hinside b hB a hA) _ (hswap d hd)
    · intro h c hc dir hd
      exact StepRepresentable.of_bounded hoff h hc.y_le hc.x_le (hswap dir hd)
  unfold CubeRepresentable
  cases h : lyt.arrangement with
  | cartesian => exact absurd h ha
  | oddRowHex =>
    rw [hpointy (by rw [h]; rfl), h]
    simp only [Bounded, hexOffset]
    omega
  | evenRowHex =>
    rw [hpointy (by rw [h]; rfl), h]
    simp only [Bounded, hexOffset, true_imp_iff]
    omega
  | oddColumnHex =>
    rw [hflat (by rw [h]; rfl), h]
    simp only [Bounded, hexOffset]
    omega
  | evenColumnHex =>
    rw [hflat (by rw [h]; rfl), h]
    simp only [Bounded, hexOffset, true_imp_iff]
    omega

section Distance

theorem toOffsetCoordinate_toCubeCoordinate (hx : c.x < 2 ^ 31) (hy : c.y < 2 ^ 31) :
    lyt.toOffsetCoordinate (lyt.toCubeCoordinate c) = .at2 c.x c.y := by
  have hfield : ∀ v : ℕ, v < 2 ^ 31 → toField v = v := fun v hv => by
    unfold toField
    omega
  unfold toOffsetCoordinate toCubeCoordinate
  cases hp : isPointyTop lyt.arrangement with
  | true => simp only [if_true, Int.sub_add_cancel, hfield _ hx, hfield _ hy]
  | false => simp only [Bool.false_eq_true, if_false, Int.sub_add_cancel, hfield _ hx, hfield _ hy]

theorem toCubeCoordinate_sum (c : Ucoord) : (lyt.toCubeCoordinate c).x +
    (lyt.toCubeCoordinate c).y + (lyt.toCubeCoordinate c).z = 0 := by
  unfold toCubeCoordinate
  split_ifs <;> simp only <;> omega

theorem Cube.distance_eq_one_iff {a b : Cube} (ha : a.x + a.y + a.z = 0)
    (hb : b.x + b.y + b.z = 0) : a.distance b = 1 ↔ ∃ dir ∈ cubeDirections, b = a.add dir := by
  constructor
  · intro h
    have hx : (a.x - b.x).natAbs ≤ 1 := h ▸ le_max_left _ _
    have hyz : max (a.y - b.y).natAbs (a.z - b.z).natAbs ≤ 1 := h ▸ le_max_right _ _
    have hy : (a.y - b.y).natAbs ≤ 1 := (le_max_left _ _).trans hyz
    have hz : (a.z - b.z).natAbs ≤ 1 := (le_max_right _ _).trans hyz
    have hne : ¬(a.x = b.x ∧ a.y = b.y) := by
      rintro ⟨h₁, h₂⟩
      have h₃ : a.z = b.z := by omega
      simp [Cube.distance, h₁, h₂, h₃] at h
    refine ⟨⟨b.x - a.x, b.y - a.y, b.z - a.z⟩, ?_, ?_⟩
    · have hx' : b.x - a.x = -1 ∨ b.x - a.x = 0 ∨ b.x - a.x = 1 := by omega
      have hy' : b.y - a.y = -1 ∨ b.y - a.y = 0 ∨ b.y - a.y = 1 := by omega
      have hz' : b.z - a.z = -(b.x - a.x) - (b.y - a.y) := by omega
      rw [hz']
      rcases hx' with h₁ | h₁ | h₁ <;> rcases hy' with h₂ | h₂ | h₂ <;> rw [h₁, h₂] <;>
        first
          | decide
          | omega
    · obtain ⟨bx, b_y, bz⟩ := b
      simp only [Cube.add, Cube.mk.injEq]
      omega
  · rintro ⟨dir, hdir, rfl⟩
    simp only [cubeDirections, List.mem_cons, List.not_mem_nil, or_false] at hdir
    rcases hdir with rfl | rfl | rfl | rfl | rfl | rfl <;> simp only [Cube.distance, Cube.add] <;>
      omega

theorem toField_eq {v : ℤ} (h : -1 ≤ v ∧ v < 2 ^ 31) (hv : toField v < 2 ^ 31 - 1) :
    (toField v : ℤ) = v := by
  unfold toField at *
  omega

/-- A step that does not wrap around adds its direction to the cube coordinate. -/
theorem field_toCube {off : ℤ} (hoff : off = 1 ∨ off = -1) {a b : ℕ} (ha : a < 2 ^ 31 - 1)
    (hb : b < 2 ^ 31 - 1) {da db : ℤ} (hd : (da, db) ∈ hexSteps)
    (ha' : fieldAlong off a b da db < 2 ^ 31 - 1) (hb' : fieldAcross b db < 2 ^ 31 - 1) :
    (fieldAcross b db : ℤ) = b + db ∧
      (fieldAlong off a b da db : ℤ) =
        (a : ℤ) - ((b : ℤ) + off * ((b : ℤ) % 2)).tdiv 2 + da +
          ((b : ℤ) + db + off * (((b : ℤ) + db) % 2)).tdiv 2 := by
  simp only [hexSteps, List.mem_cons, List.not_mem_nil, or_false, Prod.mk.injEq] at hd
  have hacross : -1 ≤ (b : ℤ) + db ∧ (b : ℤ) + db < 2 ^ 31 := by omega
  have halong : -1 ≤ (a : ℤ) - ((b : ℤ) + off * ((b : ℤ) % 2)).tdiv 2 + da +
        ((b : ℤ) + db + off * (((b : ℤ) + db) % 2)).tdiv 2 ∧
      (a : ℤ) - ((b : ℤ) + off * ((b : ℤ) % 2)).tdiv 2 + da +
        ((b : ℤ) + db + off * (((b : ℤ) + db) % 2)).tdiv 2 < 2 ^ 31 := by
    simp only [tdiv_two_eq off _ hoff]
    rcases hoff with rfl | rfl <;>
      rcases hd with ⟨rfl, rfl⟩ | ⟨rfl, rfl⟩ | ⟨rfl, rfl⟩ | ⟨rfl, rfl⟩ | ⟨rfl, rfl⟩ | ⟨rfl, rfl⟩ <;>
      omega
  exact ⟨toField_eq hacross hb', toField_eq halong ha'⟩

theorem toCubeCoordinate_hexNeighbour (hx : c.x < 2 ^ 31 - 1) (hy : c.y < 2 ^ 31 - 1)
    (hdir : dir ∈ cubeDirections) (hx' : (lyt.hexNeighbour c dir).x < 2 ^ 31 - 1)
    (hy' : (lyt.hexNeighbour c dir).y < 2 ^ 31 - 1) :
    lyt.toCubeCoordinate (lyt.hexNeighbour c dir) = (lyt.toCubeCoordinate c).add dir := by
  have hoff := hexOffset_eq lyt.arrangement
  obtain ⟨h₁, h₂⟩ := mem_hexSteps_of_mem_cubeDirections hdir
  have hsum : dir.x + dir.y + dir.z = 0 := by
    simp only [cubeDirections, List.mem_cons, List.not_mem_nil, or_false] at hdir
    rcases hdir with rfl | rfl | rfl | rfl | rfl | rfl <;> rfl
  cases hp : isPointyTop lyt.arrangement with
  | true =>
    rw [hexNeighbour_pointy hp] at hx' hy' ⊢
    obtain ⟨hb, ha⟩ := field_toCube hoff hx hy h₁ hx' hy'
    simp only [toCubeCoordinate, hp, if_true, Cube.add, Cube.mk.injEq, Ucoord.at3, hb, ha]
    exact ⟨by ring, by linear_combination -hsum, trivial⟩
  | false =>
    rw [hexNeighbour_flat hp] at hx' hy' ⊢
    obtain ⟨hb, ha⟩ := field_toCube hoff hy hx h₂ hy' hx'
    simp only [toCubeCoordinate, hp, Bool.false_eq_true, if_false, Cube.add, Cube.mk.injEq,
      Ucoord.at3, hb, ha]
    exact ⟨trivial, by linear_combination -hsum, by ring⟩

theorem eq_hexNeighbour_iff (hs : lyt.Small) (hc : lyt.Inside c) (he : lyt.Inside e)
    (hdir : dir ∈ cubeDirections) : e = lyt.hexNeighbour c dir ↔
      e.z = c.z ∧ lyt.toCubeCoordinate e = (lyt.toCubeCoordinate c).add dir := by
  have hex : e.x < 2 ^ 31 - 1 := he.x_le.trans_lt hs.1
  have hey : e.y < 2 ^ 31 - 1 := he.y_le.trans_lt hs.2
  constructor
  · intro h
    have hcube := toCubeCoordinate_hexNeighbour (hc.x_le.trans_lt hs.1) (hc.y_le.trans_lt hs.2) hdir
      (h ▸ hex) (h ▸ hey)
    rw [← h] at hcube
    refine ⟨?_, hcube⟩
    rw [h]
    rfl
  · rintro ⟨hz, hcube⟩
    rw [hexNeighbour, ← hcube, toOffsetCoordinate_toCubeCoordinate (by omega) (by omega), ← hz]
    obtain ⟨d, z, y, x⟩ := e
    have hd : d = false := he.live
    rw [hd]
    rfl

theorem mem_adjacentCoordinates_iff (hs : lyt.Small) (ha : lyt.arrangement ≠ .cartesian)
    (hc : lyt.Inside c) : e ∈ lyt.adjacentCoordinates c ↔ lyt.Inside e ∧ e.z = c.z ∧
      (lyt.toCubeCoordinate c).distance (lyt.toCubeCoordinate e) = 1 := by
  rw [Cube.distance_eq_one_iff (toCubeCoordinate_sum c) (toCubeCoordinate_sum e)]
  constructor
  · intro h
    obtain ⟨he, hz⟩ := adjacentCoordinates_inside hc h
    rw [adjacentCoordinates_hex ha, List.mem_filter, List.mem_map] at h
    obtain ⟨⟨dir, hdir, hn⟩, -⟩ := h
    exact ⟨he, hz, dir, hdir, ((eq_hexNeighbour_iff hs hc he hdir).mp hn.symm).2⟩
  · rintro ⟨he, hz, dir, hdir, hcube⟩
    rw [adjacentCoordinates_hex ha, List.mem_filter, List.mem_map]
    refine ⟨⟨dir, hdir, ((eq_hexNeighbour_iff hs hc he hdir).mpr ⟨hz, hcube⟩).symm⟩, ?_⟩
    simp [isWithinBounds, he.x_le, he.y_le, he.z_le]

end Distance

section Geometry

theorem mem_cubeDirections_diagonal (lyt : CoordinateLayout) :
    Checked.northEastVector ∈ cubeDirections ∧ Checked.southWestVector ∈ cubeDirections ∧
      Checked.southEastVector lyt ∈ cubeDirections ∧
      Checked.northWestVector lyt ∈ cubeDirections := by
  unfold Checked.southEastVector Checked.northWestVector
  refine ⟨by decide, by decide, ?_, ?_⟩ <;> split_ifs <;> decide

theorem opposite_diagonal (lyt : CoordinateLayout) :
    Checked.northWestVector lyt = ⟨-(Checked.southEastVector lyt).x,
      -(Checked.southEastVector lyt).y, -(Checked.southEastVector lyt).z⟩ ∧
    Checked.southEastVector lyt = ⟨-(Checked.northWestVector lyt).x,
      -(Checked.northWestVector lyt).y, -(Checked.northWestVector lyt).z⟩ := by
  unfold Checked.southEastVector Checked.northWestVector
  split_ifs <;> exact ⟨rfl, rfl⟩

theorem leadsBack (hs : lyt.Small) (ha : lyt.arrangement ≠ .cartesian)
    (hstep : ∀ c, lyt.Inside c → ∀ dir ∈ cubeDirections, Checked.CanStep lyt c dir)
    (hdir : dir ∈ cubeDirections) {back : Cube} (hopp : back = ⟨-dir.x, -dir.y, -dir.z⟩) :
    lyt.LeadsBack dir (fun c => Checked.hexDirection lyt c dir)
      (fun c => Checked.hexDirection lyt c back) := by
  intro c hc
  have hback : back ∈ cubeDirections := hopp ▸ mem_cubeDirections_neg hdir
  refine ⟨lyt.hexDirection c dir, Checked.hexDirection_eq (hstep c hc dir hdir), ?_⟩
  by_cases hin : lyt.isWithinBounds (lyt.hexNeighbour c dir) = true
  · right
    rw [hexDirection, if_pos hin]
    have hmem : lyt.hexNeighbour c dir ∈ lyt.adjacentCoordinates c := by
      rw [adjacentCoordinates_hex ha, List.mem_filter]
      exact ⟨List.mem_map_of_mem hdir, hin⟩
    have he : lyt.Inside (lyt.hexNeighbour c dir) := (adjacentCoordinates_inside hc hmem).1
    have hreturn : c = lyt.hexNeighbour (lyt.hexNeighbour c dir) back := by
      have h := @hexNeighbour_symm lyt hs.fits c (lyt.hexNeighbour c dir) hc dir rfl
      rw [hopp, ← h]
      rfl
    refine ⟨⟨_, (Checked.adjacentCoordinates_eq_some ha).mpr ⟨hstep c hc, rfl⟩, hmem⟩, ?_⟩
    have hcin : lyt.isWithinBounds c = true := by
      simp [isWithinBounds, hc.x_le, hc.y_le, hc.z_le]
    simp only [Checked.hexDirection_eq (hstep _ he _ hback), hexDirection, ← hreturn, if_pos hcin]
  · left
    rw [hexDirection, if_neg hin]
    refine ⟨rfl, fun e he hz hcube => hin ?_⟩
    rw [← (eq_hexNeighbour_iff hs hc he hdir).mpr ⟨hz, hcube⟩]
    simp [isWithinBounds, he.x_le, he.y_le, he.z_le]

theorem hexagonalGeometry_of_canStep (hs : lyt.Small) (ha : lyt.arrangement ≠ .cartesian)
    (hstep : ∀ c, lyt.Inside c → ∀ dir ∈ cubeDirections, Checked.CanStep lyt c dir) :
    lyt.HexagonalGeometry := by
  have hadj : ∀ {c}, lyt.Inside c →
      Checked.adjacentCoordinates lyt c = some (lyt.adjacentCoordinates c) := fun hc =>
    (Checked.adjacentCoordinates_eq_some ha).mpr ⟨hstep _ hc, rfl⟩
  obtain ⟨hne, hsw, hse, hnw⟩ := mem_cubeDirections_diagonal lyt
  constructor
  · intro c hc
    have hc' := hstep c hc _ hne
    have hback : lyt.toOffsetCoordinate (lyt.toCubeCoordinate c) = .at2 c.x c.y :=
      toOffsetCoordinate_toCubeCoordinate (hc.x_le.trans_lt hs.fits.1) (hc.y_le.trans_lt hs.fits.2)
    exact ⟨_, _, Checked.toCubeCoordinate_eq hc', Checked.toOffsetCoordinate_eq hc',
      by rw [hback]; rfl, by rw [hback]; rfl⟩
  · intro c hc
    exact ⟨_, hadj hc, adjacentCoordinates_nodup hs hc, fun e => mem_adjacentCoordinates_iff hs ha hc⟩
  · intro c e hc he l l' hl hl' hmem
    cases (hadj hc).symm.trans hl
    cases (hadj he).symm.trans hl'
    have hz := (adjacentCoordinates_inside hc hmem).2
    exact (adjacentCoordinates_comm hs hc he hz).mp hmem
  · intro c hc l hl hmem
    cases (hadj hc).symm.trans hl
    have h := ((mem_adjacentCoordinates_iff hs ha hc).mp hmem).2.2
    simp [Cube.distance] at h
  · exact leadsBack hs ha hstep hne rfl
  · exact leadsBack hs ha hstep hsw rfl
  · exact leadsBack hs ha hstep hse (opposite_diagonal lyt).1
  · exact leadsBack hs ha hstep hnw (opposite_diagonal lyt).2

theorem CubeRepresentable.small (h : lyt.CubeRepresentable) (ha : lyt.arrangement ≠ .cartesian) :
    lyt.Small := by
  unfold CubeRepresentable at h
  unfold Small
  split at h
  · omega
  · omega
  · omega
  · omega
  · contradiction

/-- A hexagonal layout has the documented geometry exactly if all of its cube coordinates can be
represented. -/
theorem hexagonalGeometry_iff (hf : lyt.Fits) (ha : lyt.arrangement ≠ .cartesian) :
    lyt.HexagonalGeometry ↔ lyt.CubeRepresentable := by
  rw [← canStep_iff hf ha]
  constructor
  · intro h c hc
    obtain ⟨l, hl, -⟩ := h.adjacent c hc
    exact ((Checked.adjacentCoordinates_eq_some ha).mp hl).1
  · intro hstep
    have hs : lyt.Small := ((canStep_iff hf ha).mp hstep).small ha
    exact hexagonalGeometry_of_canStep hs ha hstep

theorem hexagonalGeometry_evenRow :
    (⟨.at3 7 5 1, .evenRowHex⟩ : CoordinateLayout).HexagonalGeometry :=
  (hexagonalGeometry_iff ⟨by decide, by decide⟩ (by decide)).mpr
    ⟨by decide, by decide, by decide⟩

/-- In a row of the greatest length the first and the last face are taken for neighbours. -/
theorem widestRow_wraps :
    ¬(⟨.at3 (2 ^ 31 - 1) 0 0, .oddRowHex⟩ : CoordinateLayout).HexagonalGeometry := by
  intro h
  obtain ⟨l, hl, -, hmem⟩ := h.adjacent (.at2 0 0) ⟨rfl, by decide, by decide, by decide⟩
  have hwrapped : Ucoord.at2 (2 ^ 31 - 1) 0 ∈ l := by
    have := ((Checked.adjacentCoordinates_eq_some (by decide)).mp hl).2
    rw [this]
    decide
  have hdistance := ((hmem _).mp hwrapped).2.2
  exact absurd hdistance (by decide)

end Geometry

end Fiction.CoordinateLayout
