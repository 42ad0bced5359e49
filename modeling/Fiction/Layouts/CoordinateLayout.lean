import Fiction.Layouts.Coordinates

/-!
# Coordinate layouts

Cartesian layouts and the four hexagonal arrangements share their aspect ratio, their cardinal
operations and their layers; they differ in which coordinates of one layer are adjacent. Shifted
Cartesian layouts reuse the hexagonal arrangements.
-/

namespace Fiction

inductive Arrangement
  | cartesian
  | oddRowHex
  | evenRowHex
  | oddColumnHex
  | evenColumnHex
  deriving DecidableEq, Repr

/-- `dimension` is the highest coordinate that still belongs to the layout. -/
structure CoordinateLayout where
  dimension : Ucoord
  arrangement : Arrangement
  deriving DecidableEq

namespace CoordinateLayout

variable (lyt : CoordinateLayout)

def x : ℕ := lyt.dimension.x
def y : ℕ := lyt.dimension.y
def z : ℕ := lyt.dimension.z

def north (c : Ucoord) : Ucoord := if c.y = 0 then c else { c with y := c.y - 1 }

def east (c : Ucoord) : Ucoord :=
  if c.x > lyt.x then { c with d := true }
  else if c.x < lyt.x then { c with x := c.x + 1 }
  else c

def south (c : Ucoord) : Ucoord :=
  if c.y > lyt.y then { c with d := true }
  else if c.y < lyt.y then { c with y := c.y + 1 }
  else c

def west (c : Ucoord) : Ucoord := if c.x = 0 then c else { c with x := c.x - 1 }

def above (c : Ucoord) : Ucoord :=
  if c.z > lyt.z then { c with d := true }
  else if c.z < lyt.z then { c with z := c.z + 1 }
  else c

def below (c : Ucoord) : Ucoord := if c.z = 0 then c else { c with z := c.z - 1 }

def isNorthwardsOf (c1 c2 : Ucoord) : Bool := c1.z = c2.z ∧ c1.y > c2.y ∧ c1.x = c2.x

/-- `c2` is somewhere west of `c1`. -/
def isWestwardsOf (c1 c2 : Ucoord) : Bool := c1.z = c2.z ∧ c1.y = c2.y ∧ c1.x > c2.x

def isAtEasternBorder (c : Ucoord) : Bool := c.x = lyt.x

def easternBorderOf (c : Ucoord) : Ucoord := .at3 lyt.x c.y c.z

def isWithinBounds (c : Ucoord) : Bool := c.x ≤ lyt.x ∧ c.y ≤ lyt.y ∧ c.z ≤ lyt.z

/-- A cube coordinate; its layer is not represented. -/
structure Cube where
  x : ℤ
  y : ℤ
  z : ℤ
  deriving DecidableEq

def Cube.add (a b : Cube) : Cube := ⟨a.x + b.x, a.y + b.y, a.z + b.z⟩

/-- The sign that separates odd from even hexagonal arrangements. -/
def hexOffset : Arrangement → ℤ
  | .oddRowHex | .oddColumnHex => -1
  | _ => 1

def isPointyTop : Arrangement → Bool
  | .oddRowHex | .evenRowHex => true
  | _ => false

def toCubeCoordinate (c : Ucoord) : Cube :=
  let offset := hexOffset lyt.arrangement
  if isPointyTop lyt.arrangement then
    let cx := (c.x : ℤ) - ((c.y : ℤ) + offset * ((c.y : ℤ) % 2)).tdiv 2
    ⟨cx, -cx - c.y, c.y⟩
  else
    let cz := (c.y : ℤ) - ((c.x : ℤ) + offset * ((c.x : ℤ) % 2)).tdiv 2
    ⟨c.x, -c.x - cz, cz⟩

/-- Stores an integer in one of the 31-bit fields of a coordinate. -/
def toField (v : ℤ) : ℕ := (v % 2 ^ 31).toNat

def toOffsetCoordinate (c : Cube) : Ucoord :=
  let offset := hexOffset lyt.arrangement
  if isPointyTop lyt.arrangement then
    .at2 (toField (c.x + (c.z + offset * (c.z % 2)).tdiv 2)) (toField c.z)
  else
    .at2 (toField c.x) (toField (c.z + (c.x + offset * (c.x % 2)).tdiv 2))

def cubeDirections : List Cube :=
  [⟨1, -1, 0⟩, ⟨1, 0, -1⟩, ⟨0, 1, -1⟩, ⟨-1, 1, 0⟩, ⟨-1, 0, 1⟩, ⟨0, -1, 1⟩]

/-- All coordinates adjacent to `c` in the cardinal directions or, on a hexagonal grid, in the
six directions of a face. -/
def adjacentCoordinates (c : Ucoord) : List Ucoord :=
  match lyt.arrangement with
  | .cartesian => [north c, lyt.east c, lyt.south c, west c].filter (· ≠ c)
  | _ =>
    (cubeDirections.map fun dir =>
      { lyt.toOffsetCoordinate ((lyt.toCubeCoordinate c).add dir) with z := c.z }).filter
        lyt.isWithinBounds

/-- Cartesian layouts compare the four neighbours by equality; hexagonal layouts look the coordinate
up in an ordered set, whose comparison disregards the dead indicator. -/
def isAdjacentOf (c1 c2 : Ucoord) : Bool :=
  match lyt.arrangement with
  | .cartesian =>
    [north c1, lyt.east c1, lyt.south c1, west c1].any fun c => c1 ≠ c2 ∧ c = c2
  | _ => (lyt.adjacentCoordinates c1).any fun c => !c.lt c2 && !c2.lt c

def isAdjacentElevationOf (c1 c2 : Ucoord) : Bool :=
  lyt.isAdjacentOf c1 c2 || lyt.isAdjacentOf (lyt.above c1) c2 || lyt.isAdjacentOf (below c1) c2

theorem tdiv_two_eq (off v : ℤ) (h : off = 1 ∨ off = -1) :
    (v + off * (v % 2)).tdiv 2 = (v + (1 + off) / 2) / 2 := by
  rw [Int.tdiv_eq_ediv_of_dvd] <;> rcases h with rfl | rfl <;> omega

theorem tdiv_two_add (off v k : ℤ) (h : off = 1 ∨ off = -1) :
    (v + 2 ^ 31 * k + off * ((v + 2 ^ 31 * k) % 2)).tdiv 2 =
      (v + off * (v % 2)).tdiv 2 + 2 ^ 30 * k := by
  rw [tdiv_two_eq off _ h, tdiv_two_eq off _ h]
  omega

theorem exists_toField_eq (i : ℤ) : ∃ k : ℤ, (toField i : ℤ) = i + 2 ^ 31 * k := by
  use -(i / 2 ^ 31)
  unfold toField
  omega

theorem toField_add_mul {a : ℕ} (ha : a < 2 ^ 31) (k : ℤ) : toField (a + 2 ^ 31 * k) = a := by
  unfold toField
  omega

theorem field_step (off : ℤ) (hoff : off = 1 ∨ off = -1) {a b a' b' : ℕ} {da db : ℤ}
    (ha : a < 2 ^ 31) (hb : b < 2 ^ 31)
    (h₁ : a' = toField ((a : ℤ) - ((b : ℤ) + off * ((b : ℤ) % 2)).tdiv 2 + da +
      ((b : ℤ) + db + off * (((b : ℤ) + db) % 2)).tdiv 2))
    (h₂ : b' = toField (b + db)) :
    a = toField ((a' : ℤ) - ((b' : ℤ) + off * ((b' : ℤ) % 2)).tdiv 2 + -da +
      ((b' : ℤ) + -db + off * (((b' : ℤ) + -db) % 2)).tdiv 2) ∧ b = toField (b' + -db) := by
  obtain ⟨m, hm⟩ := exists_toField_eq ((a : ℤ) - ((b : ℤ) + off * ((b : ℤ) % 2)).tdiv 2 + da +
    ((b : ℤ) + db + off * (((b : ℤ) + db) % 2)).tdiv 2)
  obtain ⟨k, hk⟩ := exists_toField_eq (b + db)
  rw [← h₁] at hm
  rw [← h₂] at hk
  have hback : (b' : ℤ) + -db = b + 2 ^ 31 * k := by omega
  constructor
  · rw [hback, hk, hm, tdiv_two_add off _ _ hoff, tdiv_two_add off _ _ hoff]
    refine (toField_add_mul ha m).symm.trans (congrArg toField ?_)
    omega
  · rw [hback, toField_add_mul hb]

structure Inside (lyt : CoordinateLayout) (c : Ucoord) : Prop where
  live : c.isDead = false
  x_le : c.x ≤ lyt.x
  y_le : c.y ≤ lyt.y
  z_le : c.z ≤ lyt.z

/-- Horizontal positions are stored in 31 bits. -/
def Fits (lyt : CoordinateLayout) : Prop := lyt.x < 2 ^ 31 ∧ lyt.y < 2 ^ 31

/-- `c` and `e` are adjacent up to their layers. -/
def Beside (lyt : CoordinateLayout) (c e : Ucoord) : Prop :=
  { e with z := c.z } ∈ lyt.adjacentCoordinates c

variable {lyt : CoordinateLayout}

theorem hexOffset_eq (a : Arrangement) : hexOffset a = 1 ∨ hexOffset a = -1 := by
  cases a <;> simp [hexOffset]

def hexNeighbour (lyt : CoordinateLayout) (c : Ucoord) (dir : Cube) : Ucoord :=
  { lyt.toOffsetCoordinate ((lyt.toCubeCoordinate c).add dir) with z := c.z }

theorem hexNeighbour_symm (hf : lyt.Fits) {c e : Ucoord} (hc : lyt.Inside c)
    {dir : Cube} (h : { e with z := c.z } = lyt.hexNeighbour c dir) :
    { c with z := e.z } = lyt.hexNeighbour e ⟨-dir.x, -dir.y, -dir.z⟩ := by
  have hx : c.x < 2 ^ 31 := hc.x_le.trans_lt hf.1
  have hy : c.y < 2 ^ 31 := hc.y_le.trans_lt hf.2
  have hoff := hexOffset_eq lyt.arrangement
  have hd : c.d = false := hc.live
  unfold hexNeighbour toCubeCoordinate toOffsetCoordinate at *
  by_cases hp : isPointyTop lyt.arrangement = true
  · simp only [hp, if_true, Cube.add, Ucoord.at2, Ucoord.mk.injEq] at h ⊢
    obtain ⟨-, -, h₂, h₁⟩ := h
    obtain ⟨h₃, h₄⟩ := field_step _ hoff hx hy h₁ h₂
    exact ⟨hd, trivial, h₄, h₃⟩
  · simp only [hp, if_false, Cube.add, Ucoord.at2, Ucoord.mk.injEq, Bool.false_eq_true] at h ⊢
    obtain ⟨-, -, h₂, h₁⟩ := h
    obtain ⟨h₃, h₄⟩ := field_step _ hoff hy hx h₂ h₁
    exact ⟨hd, trivial, h₃, h₄⟩

section Cardinal

variable {x y z x' y' : ℕ}

theorem eq_north_or_south_iff (hy : y ≤ lyt.y) (hy' : y' ≤ lyt.y) :
    ((⟨false, z, y', x'⟩ : Ucoord) = north ⟨false, z, y, x⟩ ∨
        (⟨false, z, y', x'⟩ : Ucoord) = lyt.south ⟨false, z, y, x⟩) ∧
      (⟨false, z, y', x'⟩ : Ucoord) ≠ ⟨false, z, y, x⟩ ↔
    x = x' ∧ (y = y' + 1 ∨ y' = y + 1) := by
  simp only [north, south]
  split_ifs <;> simp only [Ucoord.mk.injEq, true_and, ne_eq] <;> omega

theorem eq_east_or_west_iff (hx : x ≤ lyt.x) (hx' : x' ≤ lyt.x) :
    ((⟨false, z, y', x'⟩ : Ucoord) = lyt.east ⟨false, z, y, x⟩ ∨
        (⟨false, z, y', x'⟩ : Ucoord) = west ⟨false, z, y, x⟩) ∧
      (⟨false, z, y', x'⟩ : Ucoord) ≠ ⟨false, z, y, x⟩ ↔
    y = y' ∧ (x = x' + 1 ∨ x' = x + 1) := by
  simp only [east, west]
  split_ifs <;> simp only [Ucoord.mk.injEq, true_and, ne_eq] <;> omega

end Cardinal

theorem beside_cartesian_iff (ha : lyt.arrangement = .cartesian) {c e : Ucoord} (hc : lyt.Inside c)
    (he : lyt.Inside e) : lyt.Beside c e ↔
      c.x = e.x ∧ (c.y = e.y + 1 ∨ e.y = c.y + 1) ∨ c.y = e.y ∧ (c.x = e.x + 1 ∨ e.x = c.x + 1) := by
  obtain ⟨dc, zc, yc, xc⟩ := c
  obtain ⟨de, ze, ye, xe⟩ := e
  obtain ⟨rfl, hcx, hcy, -⟩ := hc
  obtain ⟨hde, hex, hey, -⟩ := he
  have hde' : de = false := hde
  subst hde'
  rw [← eq_north_or_south_iff (z := zc) hcy hey, ← eq_east_or_west_iff (z := zc) hcx hex]
  simp only [Beside, adjacentCoordinates, ha, List.mem_filter, List.mem_cons, List.not_mem_nil,
    or_false, decide_eq_true_eq]
  tauto

theorem mem_cubeDirections_neg {dir : Cube} (h : dir ∈ cubeDirections) :
    (⟨-dir.x, -dir.y, -dir.z⟩ : Cube) ∈ cubeDirections := by
  simp only [cubeDirections, List.mem_cons, List.not_mem_nil, or_false] at h ⊢
  rcases h with rfl | rfl | rfl | rfl | rfl | rfl <;> simp

theorem beside_hex_iff (ha : lyt.arrangement ≠ .cartesian) {c e : Ucoord} (hc : lyt.Inside c)
    (he : lyt.Inside e) :
    lyt.Beside c e ↔ ∃ dir ∈ cubeDirections, { e with z := c.z } = lyt.hexNeighbour c dir := by
  have hadj : lyt.adjacentCoordinates c =
      (cubeDirections.map (lyt.hexNeighbour c)).filter lyt.isWithinBounds := by
    unfold adjacentCoordinates
    split
    · contradiction
    · rfl
  have hin : lyt.isWithinBounds { e with z := c.z } = true := by
    simp [isWithinBounds, he.x_le, he.y_le, hc.z_le]
  rw [Beside, hadj, List.mem_filter, List.mem_map]
  simp only [hin, and_true, eq_comm]

theorem beside_comm (hf : lyt.Fits) {c e : Ucoord} (hc : lyt.Inside c) (he : lyt.Inside e) :
    lyt.Beside c e ↔ lyt.Beside e c := by
  by_cases ha : lyt.arrangement = .cartesian
  · rw [beside_cartesian_iff ha hc he, beside_cartesian_iff ha he hc]
    omega
  · rw [beside_hex_iff ha hc he, beside_hex_iff ha he hc]
    constructor
    · rintro ⟨dir, hdir, h⟩
      exact ⟨_, mem_cubeDirections_neg hdir, hexNeighbour_symm hf hc h⟩
    · rintro ⟨dir, hdir, h⟩
      exact ⟨_, mem_cubeDirections_neg hdir, hexNeighbour_symm hf he h⟩

theorem adjacentCoordinates_inside {c e : Ucoord} (hc : lyt.Inside c)
    (h : e ∈ lyt.adjacentCoordinates c) : lyt.Inside e ∧ e.z = c.z := by
  by_cases ha : lyt.arrangement = .cartesian
  · obtain ⟨hl, hx, hy, hz⟩ := hc
    have hmem : e ∈ [north c, lyt.east c, lyt.south c, west c] := by
      simp only [adjacentCoordinates, ha] at h
      exact (List.mem_filter.mp h).1
    have hin : ∀ x y : ℕ, x ≤ lyt.x → y ≤ lyt.y →
        lyt.Inside { c with x := x, y := y } ∧ ({ c with x := x, y := y } : Ucoord).z = c.z :=
      fun _ _ hx' hy' => ⟨⟨hl, hx', hy', hz⟩, rfl⟩
    simp only [List.mem_cons, List.not_mem_nil, or_false, north, east, south, west] at hmem
    rcases hmem with rfl | rfl | rfl | rfl <;> split_ifs <;>
      first
        | omega
        | exact ⟨⟨hl, hx, hy, hz⟩, rfl⟩
        | exact hin _ _ (by omega) (by omega)
  · have hadj : e ∈ (cubeDirections.map (lyt.hexNeighbour c)).filter lyt.isWithinBounds := by
      unfold adjacentCoordinates at h
      split at h
      · contradiction
      · exact h
    obtain ⟨hm, hw⟩ := List.mem_filter.mp hadj
    obtain ⟨dir, -, rfl⟩ := List.mem_map.mp hm
    simp only [isWithinBounds, decide_eq_true_eq] at hw
    refine ⟨⟨?_, hw.1, hw.2.1, hw.2.2⟩, rfl⟩
    unfold hexNeighbour toOffsetCoordinate
    by_cases hp : isPointyTop lyt.arrangement = true
    · simp only [hp, if_true]
      rfl
    · simp only [hp]
      rfl

theorem isAdjacentOf_hex (ha : lyt.arrangement ≠ .cartesian) (c1 c2 : Ucoord) :
    lyt.isAdjacentOf c1 c2 =
      (lyt.adjacentCoordinates c1).any fun c => !c.lt c2 && !c2.lt c := by
  unfold isAdjacentOf
  split
  · contradiction
  · rfl

theorem adjacentCoordinates_z {c e : Ucoord} (h : e ∈ lyt.adjacentCoordinates c) : e.z = c.z := by
  unfold adjacentCoordinates at h
  split at h
  · have hmem := (List.mem_filter.mp h).1
    simp only [List.mem_cons, List.not_mem_nil, or_false, north, east, south, west] at hmem
    rcases hmem with rfl | rfl | rfl | rfl <;> split_ifs <;> rfl
  · obtain ⟨dir, -, rfl⟩ := List.mem_map.mp (List.mem_filter.mp h).1
    rfl

theorem isAdjacentOf_z {c e : Ucoord} (h : lyt.isAdjacentOf c e = true) : e.z = c.z := by
  by_cases ha : lyt.arrangement = .cartesian
  · simp only [isAdjacentOf, ha, List.any_eq_true, decide_eq_true_eq] at h
    obtain ⟨e', hmem, hne, rfl⟩ := h
    apply @adjacentCoordinates_z lyt
    simp only [adjacentCoordinates, ha]
    exact List.mem_filter.mpr ⟨hmem, decide_eq_true fun he => hne he.symm⟩
  · rw [isAdjacentOf_hex ha, List.any_eq_true] at h
    obtain ⟨e', hmem, hlt⟩ := h
    rw [← adjacentCoordinates_z hmem]
    rw [Bool.and_eq_true, Bool.not_eq_true', Bool.not_eq_true'] at hlt
    have h₁ : ¬ e'.z < e.z := fun hz => by simp [Ucoord.lt, hz] at hlt
    have h₂ : ¬ e.z < e'.z := fun hz => by simp [Ucoord.lt, hz] at hlt
    omega

theorem isAdjacentElevationOf_z {c e : Ucoord} (h : lyt.isAdjacentElevationOf c e = true) :
    e.z = c.z ∨ e.z = c.z + 1 ∧ c.z < lyt.z ∨ e.z + 1 = c.z := by
  simp only [isAdjacentElevationOf, Bool.or_eq_true] at h
  rcases h with (h | h) | h
  · exact .inl (isAdjacentOf_z h)
  · have hz := isAdjacentOf_z h
    unfold above at hz
    split_ifs at hz with h₁ h₂
    · exact .inl hz
    · exact .inr (.inl ⟨hz, h₂⟩)
    · exact .inl hz
  · have hz := isAdjacentOf_z h
    unfold below at hz
    split_ifs at hz with h₁
    · exact .inl hz
    · have hz' : e.z = c.z - 1 := hz
      omega

end CoordinateLayout
end Fiction
