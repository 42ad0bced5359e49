import Fiction.Layouts.CoordinateLayout
import Mathlib.Data.List.Nodup

/-!
# Ground tiles, borders and directions

The tiles of the ground layer, the borders they lie at and their neighbours. Every arrangement
keeps the four cardinal neighbours, and no neighbour is more than one column or one row away.
A layout that grows leaves the neighbours of all tiles unchanged that did not lie at the border
that moved.
-/

namespace Fiction.CoordinateLayout

variable (lyt : CoordinateLayout)

def isAtNorthernBorder (c : Ucoord) : Bool := c.y = 0

def isAtSouthernBorder (c : Ucoord) : Bool := c.y = lyt.y

def isAtWesternBorder (c : Ucoord) : Bool := c.x = 0

def isAtAnyBorder (c : Ucoord) : Bool := c.y = 0 ∨ c.x = lyt.x ∨ c.y = lyt.y ∨ c.x = 0

def foreachGroundTile : List Ucoord :=
  (List.range (lyt.y + 1)).flatMap fun y => (List.range (lyt.x + 1)).map fun x => .at2 x y

/-- The neighbour in one of the six directions of a face, or `c` if it is out of bounds. -/
def hexDirection (c : Ucoord) (dir : Cube) : Ucoord :=
  if lyt.isWithinBounds (lyt.hexNeighbour c dir) then lyt.hexNeighbour c dir else c

def northEast (c : Ucoord) : Ucoord :=
  match lyt.arrangement with
  | .cartesian => if c.x = lyt.x ∨ c.y = 0 then c else { c with x := c.x + 1, y := c.y - 1 }
  | _ => lyt.hexDirection c ⟨1, 0, -1⟩

def southEast (c : Ucoord) : Ucoord :=
  match lyt.arrangement with
  | .cartesian =>
    if c.x > lyt.x ∨ c.y > lyt.y then { c with d := true }
    else if c.x < lyt.x ∧ c.y < lyt.y then { c with x := c.x + 1, y := c.y + 1 }
    else c
  | .oddRowHex | .evenRowHex => lyt.hexDirection c ⟨0, -1, 1⟩
  | .oddColumnHex | .evenColumnHex => lyt.hexDirection c ⟨1, -1, 0⟩

def southWest (c : Ucoord) : Ucoord :=
  match lyt.arrangement with
  | .cartesian =>
    if c.y > lyt.y then { c with d := true }
    else if c.x > 0 ∧ c.y < lyt.y then { c with x := c.x - 1, y := c.y + 1 }
    else c
  | _ => lyt.hexDirection c ⟨-1, 0, 1⟩

def northWest (c : Ucoord) : Ucoord :=
  match lyt.arrangement with
  | .cartesian => if c.x = 0 ∨ c.y = 0 then c else { c with x := c.x - 1, y := c.y - 1 }
  | .oddRowHex | .evenRowHex => lyt.hexDirection c ⟨0, 1, -1⟩
  | .oddColumnHex | .evenColumnHex => lyt.hexDirection c ⟨-1, 1, 0⟩

/-- The opposing pairs of neighbours of `c`. -/
def adjacentOppositeCoordinates (c : Ucoord) : List (Ucoord × Ucoord) :=
  (match lyt.arrangement with
    | .cartesian => [(north c, lyt.south c), (lyt.east c, west c)]
    | .oddRowHex | .evenRowHex =>
      [(lyt.east c, west c), (lyt.northEast c, lyt.southWest c),
        (lyt.northWest c, lyt.southEast c)]
    | .oddColumnHex | .evenColumnHex =>
      [(north c, lyt.south c), (lyt.northEast c, lyt.southWest c),
        (lyt.northWest c, lyt.southEast c)]).filter fun cp => cp.1 ≠ c ∧ cp.2 ≠ c

variable {lyt} {c e : Ucoord}

theorem mem_foreachGroundTile :
    c ∈ lyt.foreachGroundTile ↔ c = .at2 c.x c.y ∧ c.x ≤ lyt.x ∧ c.y ≤ lyt.y := by
  simp only [foreachGroundTile, List.mem_flatMap, List.mem_map, List.mem_range]
  constructor
  · rintro ⟨y, hy, x, hx, rfl⟩
    exact ⟨rfl, Nat.le_of_lt_succ hx, Nat.le_of_lt_succ hy⟩
  · rintro ⟨hc, hx, hy⟩
    exact ⟨c.y, Nat.lt_succ_of_le hy, c.x, Nat.lt_succ_of_le hx, hc.symm⟩

theorem inside_of_mem_foreachGroundTile (h : c ∈ lyt.foreachGroundTile) : lyt.Inside c := by
  obtain ⟨hc, hx, hy⟩ := mem_foreachGroundTile.mp h
  rw [hc]
  exact ⟨rfl, hx, hy, Nat.zero_le _⟩

theorem mem_foreachGroundTile_of_inside (h : lyt.Inside c) (hz : c.z = 0) :
    c ∈ lyt.foreachGroundTile := by
  obtain ⟨d, z, y, x⟩ := c
  obtain ⟨hd, hx, hy, -⟩ := h
  have hd' : d = false := hd
  have hz' : z = 0 := hz
  subst hd' hz'
  exact mem_foreachGroundTile.mpr ⟨rfl, hx, hy⟩

theorem foreachGroundTile_nodup : lyt.foreachGroundTile.Nodup := by
  refine List.nodup_flatMap.mpr ⟨fun y _ => ?_, ?_⟩
  · refine List.nodup_range.map fun a b h => ?_
    simpa [Ucoord.at2] using h
  · refine List.nodup_range.imp fun {a b} hab => ?_
    simp only [List.disjoint_left, List.mem_map, not_exists, not_and]
    rintro _ ⟨x, -, rfl⟩ x' - h
    simp only [Ucoord.at2, Ucoord.mk.injEq] at h
    exact hab h.2.2.1.symm

theorem length_foreachGroundTile :
    lyt.foreachGroundTile.length = (lyt.x + 1) * (lyt.y + 1) := by
  simp [foreachGroundTile, List.length_flatMap, Nat.mul_comm]

section HexagonalSteps

/-- The six steps along a row of faces (`da`) and across rows (`db`). -/
def hexSteps : List (ℤ × ℤ) := [(1, 0), (-1, 0), (0, 1), (-1, 1), (0, -1), (1, -1)]

/-- Coordinates after a step on a hexagonal grid, along and across its rows. -/
def fieldAlong (off : ℤ) (a b : ℕ) (da db : ℤ) : ℕ :=
  toField ((a : ℤ) - ((b : ℤ) + off * ((b : ℤ) % 2)).tdiv 2 + da +
    ((b : ℤ) + db + off * (((b : ℤ) + db) % 2)).tdiv 2)

def fieldAcross (b : ℕ) (db : ℤ) : ℕ := toField ((b : ℤ) + db)

/-- A field holds a number that is at most one off a coordinate, unless it wraps around at zero. -/
theorem toField_near {v : ℤ} {a : ℕ} (ha : a < 2 ^ 31 - 1) (h : a - 1 ≤ v ∧ v ≤ a + 1) :
    (toField v : ℤ) = v ∨ toField v = 2 ^ 31 - 1 := by
  unfold toField
  omega

theorem along_near (off : ℤ) (a b : ℕ) {da db : ℤ} (hd : (da, db) ∈ hexSteps) :
    (a : ℤ) - 1 ≤ a - (b + (1 + off) / 2) / 2 + da + (b + db + (1 + off) / 2) / 2 ∧
      a - (b + (1 + off) / 2) / 2 + da + (b + db + (1 + off) / 2) / 2 ≤ (a : ℤ) + 1 := by
  simp only [hexSteps, List.mem_cons, List.not_mem_nil, or_false, Prod.mk.injEq] at hd
  rcases hd with ⟨rfl, rfl⟩ | ⟨rfl, rfl⟩ | ⟨rfl, rfl⟩ | ⟨rfl, rfl⟩ | ⟨rfl, rfl⟩ | ⟨rfl, rfl⟩ <;>
    constructor <;> omega

theorem fieldAlong_near {off : ℤ} (hoff : off = 1 ∨ off = -1) {a b : ℕ} (ha : a < 2 ^ 31 - 1)
    {da db : ℤ} (hd : (da, db) ∈ hexSteps) :
    (fieldAlong off a b da db : ℤ) =
        a - (b + (1 + off) / 2) / 2 + da + (b + db + (1 + off) / 2) / 2 ∨
      fieldAlong off a b da db = 2 ^ 31 - 1 := by
  rw [fieldAlong, tdiv_two_eq off _ hoff, tdiv_two_eq off _ hoff]
  exact toField_near ha (along_near off a b hd)

theorem hexSteps_bounds {da db : ℤ} (hd : (da, db) ∈ hexSteps) :
    (-1 ≤ da ∧ da ≤ 1) ∧ -1 ≤ db ∧ db ≤ 1 := by
  simp only [hexSteps, List.mem_cons, List.not_mem_nil, or_false, Prod.mk.injEq] at hd
  omega

theorem fieldAcross_near {b : ℕ} (hb : b < 2 ^ 31 - 1) {da db : ℤ} (hd : (da, db) ∈ hexSteps) :
    (fieldAcross b db : ℤ) = b + db ∨ fieldAcross b db = 2 ^ 31 - 1 := by
  obtain ⟨-, hdb⟩ := hexSteps_bounds hd
  exact toField_near hb (by omega)

/-- A step leads one face further, or wraps around at the coordinate zero. -/
theorem field_near {off : ℤ} (hoff : off = 1 ∨ off = -1) {a b : ℕ} (ha : a < 2 ^ 31 - 1)
    (hb : b < 2 ^ 31 - 1) {da db : ℤ} (hd : (da, db) ∈ hexSteps) :
    (a ≤ fieldAlong off a b da db + 1 ∧ fieldAlong off a b da db ≤ a + 1 ∨
        fieldAlong off a b da db = 2 ^ 31 - 1) ∧
      (b ≤ fieldAcross b db + 1 ∧ fieldAcross b db ≤ b + 1 ∨ fieldAcross b db = 2 ^ 31 - 1) := by
  have halong := along_near off a b hd
  obtain ⟨-, hdb⟩ := hexSteps_bounds hd
  constructor
  · rcases fieldAlong_near (b := b) hoff ha hd with h | h
    · left
      omega
    · exact .inr h
  · rcases fieldAcross_near hb hd with h | h
    · left
      omega
    · exact .inr h

/-- A step towards the previous row never leads further along. -/
theorem field_back {off : ℤ} (hoff : off = 1 ∨ off = -1) {a b : ℕ} (ha : a < 2 ^ 31 - 1)
    (hb : b < 2 ^ 31 - 1) :
    (fieldAlong off a b 0 (-1) ≤ a ∨ fieldAlong off a b 0 (-1) = 2 ^ 31 - 1) ∧
      (fieldAcross b (-1) ≤ b ∨ fieldAcross b (-1) = 2 ^ 31 - 1) := by
  unfold fieldAlong fieldAcross
  simp only [tdiv_two_eq off _ hoff, toField]
  rcases hoff with rfl | rfl <;> constructor <;> omega

/-- A step towards the next row never leads back. -/
theorem field_forth {off : ℤ} (hoff : off = 1 ∨ off = -1) {a b : ℕ} (ha : a < 2 ^ 31 - 1)
    (hb : b < 2 ^ 31 - 1) : a ≤ fieldAlong off a b 0 1 ∧ b ≤ fieldAcross b 1 := by
  unfold fieldAlong fieldAcross
  simp only [tdiv_two_eq off _ hoff, toField]
  rcases hoff with rfl | rfl <;> constructor <;> omega

theorem toField_add_injective {v d d' : ℤ} (hd : -1 ≤ d ∧ d ≤ 1) (hd' : -1 ≤ d' ∧ d' ≤ 1)
    (h : toField (v + d) = toField (v + d')) : d = d' := by
  unfold toField at h
  omega

/-- Different steps lead to different faces. -/
theorem field_injective {off : ℤ} {a b : ℕ} {da db da' db' : ℤ} (hd : (da, db) ∈ hexSteps)
    (hd' : (da', db') ∈ hexSteps)
    (h₁ : fieldAlong off a b da db = fieldAlong off a b da' db')
    (h₂ : fieldAcross b db = fieldAcross b db') : (da, db) = (da', db') := by
  obtain ⟨hda, hdb⟩ := hexSteps_bounds hd
  obtain ⟨hda', hdb'⟩ := hexSteps_bounds hd'
  obtain rfl := toField_add_injective hdb hdb' h₂
  rw [fieldAlong, fieldAlong, Int.add_right_comm _ da, Int.add_right_comm _ da'] at h₁
  rw [toField_add_injective hda hda' h₁]

theorem exists_field_step {off : ℤ} (hoff : off = 1 ∨ off = -1) {a b a' b' : ℕ}
    (ha : a' < 2 ^ 31 - 1) (hb : b' < 2 ^ 31 - 1)
    (h : b' = b ∧ (a' = a + 1 ∨ a = a' + 1) ∨ a' = a ∧ (b' = b + 1 ∨ b = b' + 1)) :
    ∃ d ∈ hexSteps, a' = fieldAlong off a b d.1 d.2 ∧ b' = fieldAcross b d.2 := by
  have hstep : ∀ d ∈ hexSteps, (a' : ℤ) = a - (b + (1 + off) / 2) / 2 + d.1 +
      (b + d.2 + (1 + off) / 2) / 2 → (b' : ℤ) = b + d.2 →
      ∃ d ∈ hexSteps, a' = fieldAlong off a b d.1 d.2 ∧ b' = fieldAcross b d.2 := by
    intro d hd h₁ h₂
    refine ⟨d, hd, ?_, ?_⟩
    · rw [fieldAlong, tdiv_two_eq off _ hoff, tdiv_two_eq off _ hoff, ← h₁, toField]
      omega
    · rw [fieldAcross, ← h₂, toField]
      omega
  -- whether a row is shifted depends on its parity
  have hpar : (b : ℤ) % 2 = 0 ∨ (b : ℤ) % 2 = 1 := by omega
  rcases h with ⟨rfl, rfl | rfl⟩ | ⟨rfl, rfl | rfl⟩
  · exact hstep (1, 0) (by decide) (by simp only [Int.add_zero]; omega) (by simp)
  · exact hstep (-1, 0) (by decide) (by simp only [Int.add_zero]; omega) (by simp)
  · rcases hoff with rfl | rfl <;> rcases hpar with hp | hp
    · exact hstep (-1, 1) (by decide) (by simp only; omega) (by simp)
    · exact hstep (0, 1) (by decide) (by simp only; omega) (by simp)
    · exact hstep (0, 1) (by decide) (by simp only; omega) (by simp)
    · exact hstep (-1, 1) (by decide) (by simp only; omega) (by simp)
  · rcases hoff with rfl | rfl <;> rcases hpar with hp | hp
    · exact hstep (0, -1) (by decide) (by simp only; omega) (by simp only; omega)
    · exact hstep (1, -1) (by decide) (by simp only; omega) (by simp only; omega)
    · exact hstep (1, -1) (by decide) (by simp only; omega) (by simp only; omega)
    · exact hstep (0, -1) (by decide) (by simp only; omega) (by simp only; omega)

end HexagonalSteps

/-- Both dimensions leave room for one more face. -/
def Small (lyt : CoordinateLayout) : Prop := lyt.x < 2 ^ 31 - 1 ∧ lyt.y < 2 ^ 31 - 1

theorem Small.fits (h : lyt.Small) : lyt.Fits := ⟨by have := h.1; omega, by have := h.2; omega⟩

theorem hexNeighbour_pointy (hp : isPointyTop lyt.arrangement = true) (dir : Cube) :
    lyt.hexNeighbour c dir = .at3 (fieldAlong (hexOffset lyt.arrangement) c.x c.y dir.x dir.z)
      (fieldAcross c.y dir.z) c.z := by
  simp only [hexNeighbour, toCubeCoordinate, toOffsetCoordinate, hp, if_true, Cube.add]
  rfl

theorem hexNeighbour_flat (hp : isPointyTop lyt.arrangement = false) (dir : Cube) :
    lyt.hexNeighbour c dir = .at3 (fieldAcross c.x dir.x)
      (fieldAlong (hexOffset lyt.arrangement) c.y c.x dir.z dir.x) c.z := by
  simp only [hexNeighbour, toCubeCoordinate, toOffsetCoordinate, hp, if_false, Cube.add,
    Bool.false_eq_true]
  rfl

theorem mem_hexSteps_of_mem_cubeDirections {dir : Cube} (h : dir ∈ cubeDirections) :
    (dir.x, dir.z) ∈ hexSteps ∧ (dir.z, dir.x) ∈ hexSteps := by
  simp only [cubeDirections, List.mem_cons, List.not_mem_nil, or_false] at h
  rcases h with rfl | rfl | rfl | rfl | rfl | rfl <;> decide

theorem exists_cubeDirection {d : ℤ × ℤ} (h : d ∈ hexSteps) :
    ∃ dir ∈ cubeDirections, (dir.x, dir.z) = d := by
  simp only [hexSteps, List.mem_cons, List.not_mem_nil, or_false] at h
  rcases h with rfl | rfl | rfl | rfl | rfl | rfl <;> decide

theorem exists_cubeDirection_swap {d : ℤ × ℤ} (h : d ∈ hexSteps) :
    ∃ dir ∈ cubeDirections, (dir.z, dir.x) = d := by
  simp only [hexSteps, List.mem_cons, List.not_mem_nil, or_false] at h
  rcases h with rfl | rfl | rfl | rfl | rfl | rfl <;> decide

theorem hexNeighbour_near (hx : c.x < 2 ^ 31 - 1) (hy : c.y < 2 ^ 31 - 1) {dir : Cube}
    (hdir : dir ∈ cubeDirections) :
    (c.x ≤ (lyt.hexNeighbour c dir).x + 1 ∧ (lyt.hexNeighbour c dir).x ≤ c.x + 1 ∨
        (lyt.hexNeighbour c dir).x = 2 ^ 31 - 1) ∧
      (c.y ≤ (lyt.hexNeighbour c dir).y + 1 ∧ (lyt.hexNeighbour c dir).y ≤ c.y + 1 ∨
        (lyt.hexNeighbour c dir).y = 2 ^ 31 - 1) := by
  have hoff := hexOffset_eq lyt.arrangement
  obtain ⟨h₁, h₂⟩ := mem_hexSteps_of_mem_cubeDirections hdir
  cases hp : isPointyTop lyt.arrangement with
  | true =>
    rw [hexNeighbour_pointy hp]
    exact field_near hoff hx hy h₁
  | false =>
    rw [hexNeighbour_flat hp]
    exact (field_near hoff hy hx h₂).symm

theorem adjacentCoordinates_hex (ha : lyt.arrangement ≠ .cartesian) (c : Ucoord) :
    lyt.adjacentCoordinates c =
      (cubeDirections.map (lyt.hexNeighbour c)).filter lyt.isWithinBounds := by
  unfold adjacentCoordinates
  split
  · contradiction
  · rfl

theorem adjacentCoordinates_cartesian (ha : lyt.arrangement = .cartesian) (c : Ucoord) :
    lyt.adjacentCoordinates c =
      [north c, lyt.east c, lyt.south c, west c].filter (· ≠ c) := by
  simp only [adjacentCoordinates, ha]

theorem mem_adjacentCoordinates_cartesian (ha : lyt.arrangement = .cartesian)
    (hc : lyt.Inside c) : e ∈ lyt.adjacentCoordinates c ↔
      lyt.Inside e ∧ e.z = c.z ∧ (c.x = e.x ∧ (c.y = e.y + 1 ∨ e.y = c.y + 1) ∨
        c.y = e.y ∧ (c.x = e.x + 1 ∨ e.x = c.x + 1)) := by
  constructor
  · intro h
    obtain ⟨he, hz⟩ := adjacentCoordinates_inside hc h
    refine ⟨he, hz, (beside_cartesian_iff ha hc he).mp ?_⟩
    rwa [Beside, ← hz]
  · rintro ⟨he, hz, h⟩
    have hb := (beside_cartesian_iff ha hc he).mpr h
    rwa [Beside, ← hz] at hb

theorem mem_adjacentCoordinates_of_cardinal (hs : lyt.Small) (hc : lyt.Inside c)
    (he : lyt.Inside e) (hz : e.z = c.z)
    (h : e.y = c.y ∧ (e.x = c.x + 1 ∨ c.x = e.x + 1) ∨
      e.x = c.x ∧ (e.y = c.y + 1 ∨ c.y = e.y + 1)) : e ∈ lyt.adjacentCoordinates c := by
  by_cases ha : lyt.arrangement = .cartesian
  · rw [mem_adjacentCoordinates_cartesian ha hc]
    exact ⟨he, hz, by omega⟩
  · have hoff := hexOffset_eq lyt.arrangement
    have hx := he.x_le.trans_lt hs.1
    have hy := he.y_le.trans_lt hs.2
    rw [adjacentCoordinates_hex ha, List.mem_filter, List.mem_map]
    refine ⟨?_, by simp [isWithinBounds, he.x_le, he.y_le, he.z_le]⟩
    have heq : e = .at3 e.x e.y c.z := by
      obtain ⟨d, z, y, x⟩ := e
      have hd : d = false := he.live
      have hz' : z = c.z := hz
      rw [hd, hz']
      rfl
    cases hp : isPointyTop lyt.arrangement with
    | true =>
      obtain ⟨d, hd, h₁, h₂⟩ := exists_field_step hoff hx hy h
      obtain ⟨dir, hdir, rfl⟩ := exists_cubeDirection hd
      exact ⟨dir, hdir, by rw [hexNeighbour_pointy hp, heq]; simp only at h₁ h₂; rw [h₁, h₂]⟩
    | false =>
      obtain ⟨d, hd, h₁, h₂⟩ := exists_field_step hoff hy hx h.symm
      obtain ⟨dir, hdir, rfl⟩ := exists_cubeDirection_swap hd
      exact ⟨dir, hdir, by rw [hexNeighbour_flat hp, heq]; simp only at h₁ h₂; rw [h₁, h₂]⟩

theorem exists_step_of_mem_adjacentCoordinates (ha : lyt.arrangement ≠ .cartesian) (hs : lyt.Small)
    (hc : lyt.Inside c) (h : e ∈ lyt.adjacentCoordinates c) :
    (c.x < 2 ^ 31 - 1 ∧ c.y < 2 ^ 31 - 1) ∧ (e.x < 2 ^ 31 - 1 ∧ e.y < 2 ^ 31 - 1) ∧
      ∃ dir ∈ cubeDirections, lyt.hexNeighbour c dir = e := by
  have he := (adjacentCoordinates_inside hc h).1
  rw [adjacentCoordinates_hex ha, List.mem_filter, List.mem_map] at h
  exact ⟨⟨hc.x_le.trans_lt hs.1, hc.y_le.trans_lt hs.2⟩,
    ⟨he.x_le.trans_lt hs.1, he.y_le.trans_lt hs.2⟩, h.1⟩

/-- No neighbour is more than one column or one row away. -/
theorem near_of_mem_adjacentCoordinates (hs : lyt.arrangement ≠ .cartesian → lyt.Small)
    (hc : lyt.Inside c) (h : e ∈ lyt.adjacentCoordinates c) :
    c.x ≤ e.x + 1 ∧ e.x ≤ c.x + 1 ∧ c.y ≤ e.y + 1 ∧ e.y ≤ c.y + 1 := by
  by_cases ha : lyt.arrangement = .cartesian
  · obtain ⟨-, -, h'⟩ := (mem_adjacentCoordinates_cartesian ha hc).mp h
    omega
  · obtain ⟨⟨hx, hy⟩, ⟨hex, hey⟩, dir, hdir, rfl⟩ :=
      exists_step_of_mem_adjacentCoordinates ha (hs ha) hc h
    obtain ⟨h₁, h₂⟩ := @hexNeighbour_near lyt _ hx hy _ hdir
    omega

theorem adjacentCoordinates_comm (hs : lyt.Small) (hc : lyt.Inside c) (he : lyt.Inside e)
    (hz : e.z = c.z) : e ∈ lyt.adjacentCoordinates c ↔ c ∈ lyt.adjacentCoordinates e := by
  have h := beside_comm hs.fits hc he
  rwa [Beside, Beside, ← hz, show ({ c with z := e.z } : Ucoord) = c by rw [hz]] at h

theorem adjacentCoordinates_nodup_cartesian (ha : lyt.arrangement = .cartesian)
    (hc : lyt.Inside c) : (lyt.adjacentCoordinates c).Nodup := by
  have hcx := hc.x_le
  have hcy := hc.y_le
  have hn : north c ≠ c → (north c).x = c.x ∧ (north c).y + 1 = c.y := by
    rw [north]
    split_ifs <;> grind
  have he : lyt.east c ≠ c → (lyt.east c).x = c.x + 1 ∧ (lyt.east c).y = c.y := by
    rw [east]
    split_ifs <;> grind
  have hs : lyt.south c ≠ c → (lyt.south c).x = c.x ∧ (lyt.south c).y = c.y + 1 := by
    rw [south]
    split_ifs <;> grind
  have hw : west c ≠ c → (west c).x + 1 = c.x ∧ (west c).y = c.y := by
    rw [west]
    split_ifs <;> grind
  have hne : ∀ a b : Ucoord, (a.x ≠ b.x ∨ a.y ≠ b.y) → a ≠ b := by
    rintro a b h rfl
    simp at h
  rw [adjacentCoordinates_cartesian ha]
  refine List.pairwise_filter.mpr ?_
  simp only [List.pairwise_cons, List.mem_cons, List.not_mem_nil, or_false, decide_eq_true_eq,
    forall_eq_or_imp, forall_eq, List.Pairwise.nil, and_true, false_implies, implies_true]
  refine ⟨⟨?_, ?_, ?_⟩, ⟨?_, ?_⟩, ?_⟩ <;> intro h₁ h₂ <;> apply hne <;> grind

theorem adjacentCoordinates_nodup (hs : lyt.Small) (hc : lyt.Inside c) :
    (lyt.adjacentCoordinates c).Nodup := by
  by_cases ha : lyt.arrangement = .cartesian
  · exact adjacentCoordinates_nodup_cartesian ha hc
  · have hx := hc.x_le.trans_lt hs.1
    have hy := hc.y_le.trans_lt hs.2
    have hoff := hexOffset_eq lyt.arrangement
    rw [adjacentCoordinates_hex ha]
    refine List.Nodup.filter _ (List.Nodup.map_on ?_ (by decide))
    intro d₁ hd₁ d₂ hd₂ heq
    have hdir : d₁.x = d₂.x ∧ d₁.z = d₂.z → d₁ = d₂ := by
      simp only [cubeDirections, List.mem_cons, List.not_mem_nil, or_false] at hd₁ hd₂
      rcases hd₁ with rfl | rfl | rfl | rfl | rfl | rfl <;>
        rcases hd₂ with rfl | rfl | rfl | rfl | rfl | rfl <;> simp
    obtain ⟨h₁, h₁'⟩ := mem_hexSteps_of_mem_cubeDirections hd₁
    obtain ⟨h₂, h₂'⟩ := mem_hexSteps_of_mem_cubeDirections hd₂
    cases hp : isPointyTop lyt.arrangement with
    | true =>
      rw [hexNeighbour_pointy hp, hexNeighbour_pointy hp] at heq
      simp only [Ucoord.at3, Ucoord.mk.injEq, true_and] at heq
      have h := field_injective h₁ h₂ heq.2 heq.1
      rw [Prod.mk.injEq] at h
      exact hdir h
    | false =>
      rw [hexNeighbour_flat hp, hexNeighbour_flat hp] at heq
      simp only [Ucoord.at3, Ucoord.mk.injEq, true_and] at heq
      have h := field_injective h₁' h₂' heq.1 heq.2
      rw [Prod.mk.injEq] at h
      exact hdir h.symm

theorem le_hexDirection {dir : Cube}
    (h : c.x ≤ (lyt.hexNeighbour c dir).x ∧ c.y ≤ (lyt.hexNeighbour c dir).y) :
    c.x ≤ (lyt.hexDirection c dir).x ∧ c.y ≤ (lyt.hexDirection c dir).y := by
  unfold hexDirection
  split_ifs
  · exact h
  · exact ⟨le_rfl, le_rfl⟩

theorem le_southEast (hs : lyt.Small) (hc : lyt.Inside c) :
    c.x ≤ (lyt.southEast c).x ∧ c.y ≤ (lyt.southEast c).y := by
  have hoff := hexOffset_eq lyt.arrangement
  have hx : c.x < 2 ^ 31 - 1 := hc.x_le.trans_lt hs.1
  have hy : c.y < 2 ^ 31 - 1 := hc.y_le.trans_lt hs.2
  have hpointy : isPointyTop lyt.arrangement = true →
      c.x ≤ (lyt.hexDirection c ⟨0, -1, 1⟩).x ∧ c.y ≤ (lyt.hexDirection c ⟨0, -1, 1⟩).y :=
    fun hp => le_hexDirection (by rw [hexNeighbour_pointy hp]; exact field_forth hoff hx hy)
  have hflat : isPointyTop lyt.arrangement = false →
      c.x ≤ (lyt.hexDirection c ⟨1, -1, 0⟩).x ∧ c.y ≤ (lyt.hexDirection c ⟨1, -1, 0⟩).y :=
    fun hp => le_hexDirection (by rw [hexNeighbour_flat hp]; exact (field_forth hoff hy hx).symm)
  unfold southEast
  split
  · split_ifs
    · exact ⟨le_rfl, le_rfl⟩
    · exact ⟨Nat.le_succ _, Nat.le_succ _⟩
    · exact ⟨le_rfl, le_rfl⟩
  all_goals first
    | exact hpointy (by simp only [isPointyTop, *])
    | exact hflat (by simp only [isPointyTop, *])

section Growth

/-- `lyt'` has at least the size of `lyt`. -/
structure Grows (lyt lyt' : CoordinateLayout) : Prop where
  arrangement : lyt'.arrangement = lyt.arrangement
  z_eq : lyt'.z = lyt.z
  x_le : lyt.x ≤ lyt'.x
  y_le : lyt.y ≤ lyt'.y

/-- `lyt'` has at least the size of `lyt`, and `c` lies at no border of `lyt` that moved. -/
structure Settled (lyt lyt' : CoordinateLayout) (c : Ucoord) : Prop extends Grows lyt lyt' where
  east : c.x = lyt.x → lyt'.x = lyt.x
  south : c.y = lyt.y → lyt'.y = lyt.y

variable {lyt' : CoordinateLayout}

theorem Settled.isWithinBounds_eq (h : Settled lyt lyt' c) (hs : lyt'.Small) (hc : lyt.Inside c)
    {dir : Cube} (hdir : dir ∈ cubeDirections) :
    lyt'.isWithinBounds (lyt.hexNeighbour c dir) = lyt.isWithinBounds (lyt.hexNeighbour c dir) := by
  have hx : c.x < 2 ^ 31 - 1 := (hc.x_le.trans h.x_le).trans_lt hs.1
  have hy : c.y < 2 ^ 31 - 1 := (hc.y_le.trans h.y_le).trans_lt hs.2
  obtain ⟨h₁, h₂⟩ := @hexNeighbour_near lyt _ hx hy _ hdir
  have hsx := hs.1
  have hsy := hs.2
  have hxx := h.x_le
  have hyy := h.y_le
  have he := h.east
  have hso := h.south
  have hz := h.z_eq
  have hcx := hc.x_le
  have hcy := hc.y_le
  simp only [isWithinBounds, decide_eq_decide]
  omega

theorem Grows.hexNeighbour_eq (h : Grows lyt lyt') (c : Ucoord) (dir : Cube) :
    lyt'.hexNeighbour c dir = lyt.hexNeighbour c dir := by
  simp only [hexNeighbour, toCubeCoordinate, toOffsetCoordinate, h.arrangement]

theorem Settled.hexDirection_eq (h : Settled lyt lyt' c) (hs : lyt'.Small) (hc : lyt.Inside c)
    {dir : Cube} (hdir : dir ∈ cubeDirections) :
    lyt'.hexDirection c dir = lyt.hexDirection c dir := by
  rw [hexDirection, hexDirection, h.toGrows.hexNeighbour_eq, h.isWithinBounds_eq hs hc hdir]

theorem Settled.east_eq (h : Settled lyt lyt' c) (hc : lyt.Inside c) :
    lyt'.east c = lyt.east c := by
  have h₁ := h.x_le
  have h₂ := h.east
  have h₃ := hc.x_le
  simp only [CoordinateLayout.east]
  split_ifs <;> first | rfl | omega

theorem Settled.south_eq (h : Settled lyt lyt' c) (hc : lyt.Inside c) :
    lyt'.south c = lyt.south c := by
  have h₁ := h.y_le
  have h₂ := h.south
  have h₃ := hc.y_le
  simp only [CoordinateLayout.south]
  split_ifs <;> first | rfl | omega

/-- The neighbours of a tile only change if it lies at a border that moves. -/
theorem Settled.adjacentCoordinates_eq (h : Settled lyt lyt' c) (hs : lyt'.Small)
    (hc : lyt.Inside c) : lyt'.adjacentCoordinates c = lyt.adjacentCoordinates c := by
  by_cases ha : lyt.arrangement = .cartesian
  · rw [adjacentCoordinates_cartesian ha, adjacentCoordinates_cartesian (h.arrangement.trans ha),
      h.east_eq hc, h.south_eq hc]
  · rw [adjacentCoordinates_hex ha, adjacentCoordinates_hex (by rwa [h.arrangement]),
      show lyt'.hexNeighbour c = lyt.hexNeighbour c from funext (h.toGrows.hexNeighbour_eq c)]
    refine List.filter_congr fun e he => ?_
    obtain ⟨dir, hdir, rfl⟩ := List.mem_map.mp he
    exact h.isWithinBounds_eq hs hc hdir

theorem mem_cubeDirections_of_direction :
    (⟨1, 0, -1⟩ : Cube) ∈ cubeDirections ∧ ⟨0, -1, 1⟩ ∈ cubeDirections ∧
      ⟨1, -1, 0⟩ ∈ cubeDirections ∧ ⟨-1, 0, 1⟩ ∈ cubeDirections ∧
      ⟨0, 1, -1⟩ ∈ cubeDirections ∧ ⟨-1, 1, 0⟩ ∈ cubeDirections := by
  decide

theorem Settled.northEast_eq (h : Settled lyt lyt' c) (hs : lyt'.Small) (hc : lyt.Inside c) :
    lyt'.northEast c = lyt.northEast c := by
  have hdir : ∀ {dir : Cube}, dir ∈ cubeDirections →
      lyt'.hexDirection c dir = lyt.hexDirection c dir := fun hd => h.hexDirection_eq hs hc hd
  have h₁ := h.x_le
  have h₂ := h.east
  have h₃ := hc.x_le
  have h₄ : c.x = lyt'.x ↔ c.x = lyt.x := by omega
  unfold northEast
  rw [h.arrangement]
  split
  · simp only [h₄]
  · exact hdir mem_cubeDirections_of_direction.1

theorem Settled.southEast_eq (h : Settled lyt lyt' c) (hs : lyt'.Small) (hc : lyt.Inside c) :
    lyt'.southEast c = lyt.southEast c := by
  have h₁ := h.x_le
  have h₂ := h.east
  have h₃ := hc.x_le
  have h₄ := h.y_le
  have h₅ := h.south
  have h₆ := hc.y_le
  unfold southEast
  rw [h.arrangement]
  split
  · rw [if_neg (show ¬(c.x > lyt'.x ∨ c.y > lyt'.y) by omega),
      if_neg (show ¬(c.x > lyt.x ∨ c.y > lyt.y) by omega)]
    exact if_congr (by omega) rfl rfl
  · exact h.hexDirection_eq hs hc mem_cubeDirections_of_direction.2.1
  · exact h.hexDirection_eq hs hc mem_cubeDirections_of_direction.2.1
  · exact h.hexDirection_eq hs hc mem_cubeDirections_of_direction.2.2.1
  · exact h.hexDirection_eq hs hc mem_cubeDirections_of_direction.2.2.1

theorem Settled.southWest_eq (h : Settled lyt lyt' c) (hs : lyt'.Small) (hc : lyt.Inside c) :
    lyt'.southWest c = lyt.southWest c := by
  have h₄ := h.y_le
  have h₅ := h.south
  have h₆ := hc.y_le
  unfold southWest
  rw [h.arrangement]
  split
  · rw [if_neg (show ¬c.y > lyt'.y by omega), if_neg (show ¬c.y > lyt.y by omega)]
    exact if_congr (by omega) rfl rfl
  · exact h.hexDirection_eq hs hc mem_cubeDirections_of_direction.2.2.2.1

theorem Grows.inside (h : Grows lyt lyt') (hc : lyt.Inside c) : lyt'.Inside c :=
  ⟨hc.live, hc.x_le.trans h.x_le, hc.y_le.trans h.y_le, hc.z_le.trans h.z_eq.ge⟩

theorem Grows.isWithinBounds (h : Grows lyt lyt') (hc : lyt.isWithinBounds c = true) :
    lyt'.isWithinBounds c = true := by
  have h₁ := h.x_le
  have h₂ := h.y_le
  have h₃ := h.z_eq
  simp only [CoordinateLayout.isWithinBounds, decide_eq_true_eq] at hc ⊢
  omega

theorem Grows.mem_adjacentCoordinates (h : Grows lyt lyt') (hc : lyt.Inside c)
    (he : e ∈ lyt.adjacentCoordinates c) : e ∈ lyt'.adjacentCoordinates c := by
  by_cases ha : lyt.arrangement = .cartesian
  · obtain ⟨hin, hz, hnear⟩ := (mem_adjacentCoordinates_cartesian ha hc).mp he
    exact (mem_adjacentCoordinates_cartesian (h.arrangement.trans ha) (h.inside hc)).mpr
      ⟨h.inside hin, hz, hnear⟩
  · rw [adjacentCoordinates_hex ha, List.mem_filter] at he
    rw [adjacentCoordinates_hex (by rwa [h.arrangement]), List.mem_filter,
      show lyt'.hexNeighbour c = lyt.hexNeighbour c from funext (h.hexNeighbour_eq c)]
    exact ⟨he.1, h.isWithinBounds he.2⟩

/-- No tiles become neighbours that have not been neighbours before. -/
theorem Grows.mem_adjacentCoordinates_of_inside (h : Grows lyt lyt') (hc : lyt.Inside c)
    (he : lyt.Inside e) (hadj : e ∈ lyt'.adjacentCoordinates c) : e ∈ lyt.adjacentCoordinates c := by
  by_cases ha : lyt.arrangement = .cartesian
  · obtain ⟨-, hz, hnear⟩ := (mem_adjacentCoordinates_cartesian (h.arrangement.trans ha)
      (h.inside hc)).mp hadj
    exact (mem_adjacentCoordinates_cartesian ha hc).mpr ⟨he, hz, hnear⟩
  · rw [adjacentCoordinates_hex (by rwa [h.arrangement]), List.mem_filter,
      show lyt'.hexNeighbour c = lyt.hexNeighbour c from funext (h.hexNeighbour_eq c)] at hadj
    rw [adjacentCoordinates_hex ha, List.mem_filter]
    exact ⟨hadj.1, decide_eq_true ⟨he.x_le, he.y_le, he.z_le⟩⟩

theorem Grows.hexDirection_eq (h : Grows lyt lyt') {dir : Cube} (hne : lyt.hexDirection c dir ≠ c) :
    lyt'.hexDirection c dir = lyt.hexDirection c dir := by
  unfold hexDirection at hne ⊢
  rw [h.hexNeighbour_eq]
  split_ifs at hne with hb
  · rw [if_pos hb, if_pos (h.isWithinBounds hb)]
  · exact absurd rfl hne

theorem Grows.northEast_eq (h : Grows lyt lyt') (hc : lyt.Inside c) (hne : lyt.northEast c ≠ c) :
    lyt'.northEast c = lyt.northEast c := by
  have h₁ := h.x_le
  have h₃ := hc.x_le
  unfold northEast at hne ⊢
  rw [h.arrangement]
  split at hne
  · split_ifs at hne with hb
    · exact absurd rfl hne
    · rw [if_neg hb, if_neg (by omega)]
  · exact h.hexDirection_eq hne

theorem Grows.southEast_eq (h : Grows lyt lyt') (hc : lyt.Inside c) (hne : lyt.southEast c ≠ c) :
    lyt'.southEast c = lyt.southEast c := by
  have h₁ := h.x_le
  have h₃ := hc.x_le
  have h₄ := h.y_le
  have h₆ := hc.y_le
  unfold southEast at hne ⊢
  rw [h.arrangement]
  split at hne
  · rw [if_neg (show ¬(c.x > lyt.x ∨ c.y > lyt.y) by omega)] at hne
    rw [if_neg (show ¬(c.x > lyt'.x ∨ c.y > lyt'.y) by omega),
      if_neg (show ¬(c.x > lyt.x ∨ c.y > lyt.y) by omega)]
    split_ifs at hne with hb
    · rw [if_pos hb, if_pos (show c.x < lyt'.x ∧ c.y < lyt'.y by omega)]
    · exact absurd rfl hne
  all_goals exact h.hexDirection_eq hne

theorem Grows.hexDirection_eq_of_inside (h : Grows lyt lyt') {dir : Cube}
    (hne : lyt'.hexDirection c dir ≠ c) (hin : lyt.Inside (lyt'.hexDirection c dir)) :
    lyt.hexDirection c dir = lyt'.hexDirection c dir := by
  unfold hexDirection at hne hin ⊢
  rw [h.hexNeighbour_eq] at hne hin ⊢
  split_ifs at hne hin with hb
  · have hin' : lyt.isWithinBounds (lyt.hexNeighbour c dir) = true :=
      decide_eq_true ⟨hin.x_le, hin.y_le, hin.z_le⟩
    rw [if_pos hb, if_pos hin']
  · exact absurd rfl hne

theorem Grows.southEast_eq_of_inside (h : Grows lyt lyt') (hc : lyt.Inside c)
    (hne : lyt'.southEast c ≠ c) (hin : lyt.Inside (lyt'.southEast c)) :
    lyt.southEast c = lyt'.southEast c := by
  have h₁ := h.x_le
  have h₃ := hc.x_le
  have h₄ := h.y_le
  have h₆ := hc.y_le
  unfold southEast at hne hin ⊢
  rw [h.arrangement] at hne hin ⊢
  cases ha : lyt.arrangement <;> simp only [ha] at hne hin ⊢
  case cartesian =>
    rw [if_neg (show ¬(c.x > lyt'.x ∨ c.y > lyt'.y) by omega)] at hne hin ⊢
    rw [if_neg (show ¬(c.x > lyt.x ∨ c.y > lyt.y) by omega)]
    split_ifs at hne hin with hb
    · have hx : c.x + 1 ≤ lyt.x := hin.x_le
      have hy : c.y + 1 ≤ lyt.y := hin.y_le
      rw [if_pos hb, if_pos (show c.x < lyt.x ∧ c.y < lyt.y by omega)]
    · exact absurd rfl hne
  all_goals exact h.hexDirection_eq_of_inside hne hin

/-- A face whose coordinates do not grow is within the bounds of both layouts or of none. -/
theorem Grows.hexDirection_eq_of_le (h : Grows lyt lyt') (hs : lyt'.Small) (hc : lyt.Inside c)
    {dir : Cube}
    (hx : (lyt.hexNeighbour c dir).x ≤ c.x ∨ (lyt.hexNeighbour c dir).x = 2 ^ 31 - 1)
    (hy : (lyt.hexNeighbour c dir).y ≤ c.y ∨ (lyt.hexNeighbour c dir).y = 2 ^ 31 - 1) :
    lyt'.hexDirection c dir = lyt.hexDirection c dir := by
  have h₁ := h.x_le
  have h₂ := h.y_le
  have h₃ := hc.x_le
  have h₄ := hc.y_le
  have h₅ := hs.1
  have h₆ := hs.2
  have h₇ := h.z_eq
  have hb : lyt'.isWithinBounds (lyt.hexNeighbour c dir) =
      lyt.isWithinBounds (lyt.hexNeighbour c dir) := by
    simp only [CoordinateLayout.isWithinBounds, decide_eq_decide]
    omega
  rw [hexDirection, hexDirection, h.hexNeighbour_eq, hb]

theorem Grows.northWest_eq (h : Grows lyt lyt') (hs : lyt'.Small) (hc : lyt.Inside c) :
    lyt'.northWest c = lyt.northWest c := by
  have hoff := hexOffset_eq lyt.arrangement
  have hx : c.x < 2 ^ 31 - 1 := (hc.x_le.trans h.x_le).trans_lt hs.1
  have hy : c.y < 2 ^ 31 - 1 := (hc.y_le.trans h.y_le).trans_lt hs.2
  obtain ⟨h₁, h₂⟩ := field_back hoff hx hy
  obtain ⟨h₃, h₄⟩ := field_back hoff hy hx
  have hpointy : isPointyTop lyt.arrangement = true →
      lyt'.hexDirection c ⟨0, 1, -1⟩ = lyt.hexDirection c ⟨0, 1, -1⟩ := fun hp =>
    h.hexDirection_eq_of_le hs hc (by rw [hexNeighbour_pointy hp]; exact h₁)
      (by rw [hexNeighbour_pointy hp]; exact h₂)
  have hflat : isPointyTop lyt.arrangement = false →
      lyt'.hexDirection c ⟨-1, 1, 0⟩ = lyt.hexDirection c ⟨-1, 1, 0⟩ := fun hp =>
    h.hexDirection_eq_of_le hs hc (by rw [hexNeighbour_flat hp]; exact h₄)
      (by rw [hexNeighbour_flat hp]; exact h₃)
  unfold northWest
  rw [h.arrangement]
  split
  · rfl
  all_goals first
    | exact hpointy (by simp only [isPointyTop, *])
    | exact hflat (by simp only [isPointyTop, *])

theorem Settled.adjacentOppositeCoordinates_eq (h : Settled lyt lyt' c) (hs : lyt'.Small)
    (hc : lyt.Inside c) :
    lyt'.adjacentOppositeCoordinates c = lyt.adjacentOppositeCoordinates c := by
  simp only [adjacentOppositeCoordinates, h.arrangement, h.east_eq hc, h.south_eq hc,
    h.northEast_eq hs hc, h.southEast_eq hs hc, h.southWest_eq hs hc, h.toGrows.northWest_eq hs hc]

end Growth

end Fiction.CoordinateLayout
