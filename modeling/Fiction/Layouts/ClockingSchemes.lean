import Fiction.Layouts.ClockedLayout
import Fiction.Layouts.GroundTiles

/-!
# Predefined clocking schemes

Most schemes are given by a cutout that is repeated in all directions. Columnar and row clocking
lead information one column, respectively one row, further with each step. No regular scheme
leaves a tile without an outgoing zone that has neighbours to the east and to the south.
-/

namespace Fiction

inductive ClockName
  | «open» | columnar | row | twoddwave | twoddwaveHex | use | res | esr | cfe | bancs
  deriving DecidableEq, Repr

inductive NumClks
  | three
  | four
  deriving DecidableEq, Repr

/-- A clocking scheme is identified by its name. -/
structure NamedScheme where
  name : ClockName
  clocking : ClockingScheme

namespace NamedScheme

/-- The clock number `cutout[b][a]` of a cutout with `height` rows of `width` zones. -/
def cutoutEntry (cutout : List (List ℕ)) (a b : ℕ) : ℕ := (cutout.getD b []).getD a 0

def ofCutout (name : ClockName) (numClocks width height : ℕ) (cutout : List (List ℕ)) :
    NamedScheme :=
  ⟨name, numClocks, true, fun cz => cutoutEntry cutout (cz.x % width) (cz.y % height),
    fun _ => none⟩

/-- The scheme that repeats a transposed cutout in all directions. -/
def ofCutoutSwap (name : ClockName) (numClocks width height : ℕ) (cutout : List (List ℕ)) :
    NamedScheme :=
  ⟨name, numClocks, true, fun cz => cutoutEntry cutout (cz.y % width) (cz.x % height),
    fun _ => none⟩

def openClocking : NumClks → NamedScheme
  | .three => ⟨.open, .openClocking 3⟩
  | .four => ⟨.open, .openClocking 4⟩

def columnarClocking : NumClks → NamedScheme
  | .three => ofCutout .columnar 3 3 3 [[0, 1, 2], [0, 1, 2], [0, 1, 2]]
  | .four => ofCutout .columnar 4 4 4 [[0, 1, 2, 3], [0, 1, 2, 3], [0, 1, 2, 3], [0, 1, 2, 3]]

def rowClocking : NumClks → NamedScheme
  | .three => ofCutout .row 3 3 3 [[0, 0, 0], [1, 1, 1], [2, 2, 2]]
  | .four => ofCutout .row 4 4 4 [[0, 0, 0, 0], [1, 1, 1, 1], [2, 2, 2, 2], [3, 3, 3, 3]]

def twoddwaveClocking : NumClks → NamedScheme
  | .three => ⟨.twoddwave, .twoddwaveClocking 3⟩
  | .four => ⟨.twoddwave, .twoddwaveClocking 4⟩

def oddCutout3 : List (List ℕ) :=
  [[0, 1, 2], [1, 2, 0], [1, 2, 0], [2, 0, 1], [2, 0, 1], [0, 1, 2]]

def evenCutout3 : List (List ℕ) :=
  [[0, 1, 2], [0, 1, 2], [1, 2, 0], [1, 2, 0], [2, 0, 1], [2, 0, 1]]

def oddCutout4 : List (List ℕ) :=
  [[0, 1, 2, 3], [1, 2, 3, 0], [1, 2, 3, 0], [2, 3, 0, 1],
    [2, 3, 0, 1], [3, 0, 1, 2], [3, 0, 1, 2], [0, 1, 2, 3]]

def evenCutout4 : List (List ℕ) :=
  [[0, 1, 2, 3], [0, 1, 2, 3], [1, 2, 3, 0], [1, 2, 3, 0],
    [2, 3, 0, 1], [2, 3, 0, 1], [3, 0, 1, 2], [3, 0, 1, 2]]

/-- Layouts that are not hexagonal fall back to the 2DDWave clocking with four phases. -/
def twoddwaveHexClocking : Arrangement → NumClks → NamedScheme
  | .oddRowHex, .three => ofCutout .twoddwaveHex 3 3 6 oddCutout3
  | .oddRowHex, .four => ofCutout .twoddwaveHex 4 4 8 oddCutout4
  | .evenRowHex, .three => ofCutout .twoddwaveHex 3 3 6 evenCutout3
  | .evenRowHex, .four => ofCutout .twoddwaveHex 4 4 8 evenCutout4
  | .oddColumnHex, .three => ofCutoutSwap .twoddwaveHex 3 3 6 oddCutout3
  | .oddColumnHex, .four => ofCutoutSwap .twoddwaveHex 4 4 8 oddCutout4
  | .evenColumnHex, .three => ofCutoutSwap .twoddwaveHex 3 3 6 evenCutout3
  | .evenColumnHex, .four => ofCutoutSwap .twoddwaveHex 4 4 8 evenCutout4
  | .cartesian, _ => twoddwaveClocking .four

def useClocking : NamedScheme :=
  ofCutout .use 4 4 4 [[0, 1, 2, 3], [3, 2, 1, 0], [2, 3, 0, 1], [1, 0, 3, 2]]

def resClocking : NamedScheme :=
  ofCutout .res 4 4 4 [[3, 0, 1, 2], [0, 1, 0, 3], [1, 2, 3, 0], [0, 3, 2, 1]]

def esrClocking : NamedScheme :=
  ofCutout .esr 4 4 4 [[3, 0, 1, 2], [0, 1, 2, 3], [1, 2, 3, 0], [0, 3, 2, 1]]

def cfeClocking : NamedScheme :=
  ofCutout .cfe 4 4 4 [[0, 1, 0, 1], [3, 2, 3, 2], [0, 1, 0, 1], [3, 2, 3, 2]]

def bancsClocking : NamedScheme :=
  ofCutout .bancs 3 3 6 [[0, 1, 2], [2, 1, 0], [2, 0, 1], [1, 0, 2], [1, 2, 0], [0, 2, 1]]

/-- The schemes that `get_clocking_scheme` knows. -/
inductive Predefined (a : Arrangement) : NamedScheme → Prop
  | open (n : NumClks) : Predefined a (openClocking n)
  | columnar (n : NumClks) : Predefined a (columnarClocking n)
  | row (n : NumClks) : Predefined a (rowClocking n)
  | twoddwave (n : NumClks) : Predefined a (twoddwaveClocking n)
  | twoddwaveHex (n : NumClks) : Predefined a (twoddwaveHexClocking a n)
  | use : Predefined a useClocking
  | res : Predefined a resClocking
  | esr : Predefined a esrClocking
  | cfe : Predefined a cfeClocking
  | bancs : Predefined a bancsClocking

/-- Schemes that are registered as free of cycles. -/
def isLinearScheme (s : NamedScheme) : Bool :=
  s.name ∈ [ClockName.columnar, .row, .twoddwave, .twoddwaveHex]

/-- From every zone some cardinal neighbour is the next in turn. The northern and the western
neighbour have to exist. -/
def Proceeds (s : ClockingScheme) : Prop :=
  ∀ x y : ℕ,
    (s.clockNumber (.at2 x y) + 1) % s.numClocks = s.clockNumber (.at2 (x + 1) y) ∨
    (s.clockNumber (.at2 x y) + 1) % s.numClocks = s.clockNumber (.at2 x (y + 1)) ∨
    (0 < y ∧ (s.clockNumber (.at2 x y) + 1) % s.numClocks = s.clockNumber (.at2 x (y - 1))) ∨
    (0 < x ∧ (s.clockNumber (.at2 x y) + 1) % s.numClocks = s.clockNumber (.at2 (x - 1) y))

/-- The same within a cutout that repeats. -/
def CutoutProceeds (numClocks width height : ℕ) (cutout : List (List ℕ)) : Prop :=
  ∀ a ∈ List.range width, ∀ b ∈ List.range height,
    (cutoutEntry cutout a b + 1) % numClocks = cutoutEntry cutout ((a + 1) % width) b ∨
    (cutoutEntry cutout a b + 1) % numClocks = cutoutEntry cutout a ((b + 1) % height) ∨
    (b ≠ 0 ∧ (cutoutEntry cutout a b + 1) % numClocks = cutoutEntry cutout a (b - 1)) ∨
    (a ≠ 0 ∧ (cutoutEntry cutout a b + 1) % numClocks = cutoutEntry cutout (a - 1) b)
  deriving Decidable

theorem sub_one_mod {x w : ℕ} (h : x % w ≠ 0) : (x - 1) % w = x % w - 1 ∧ 0 < x := by
  have hpos : 0 < x := Nat.pos_of_ne_zero fun h0 => h (by rw [h0, Nat.zero_mod])
  refine ⟨?_, hpos⟩
  rcases Nat.eq_zero_or_pos w with rfl | hw
  · simp only [Nat.mod_zero]
  · have hlt := Nat.mod_lt x hw
    have hsub : x - 1 = w * (x / w) + (x % w - 1) := by
      have := Nat.div_add_mod x w
      omega
    rw [hsub, Nat.mul_add_mod, Nat.mod_eq_of_lt (by omega)]

theorem proceeds_ofCutout {name : ClockName} {numClocks width height : ℕ}
    {cutout : List (List ℕ)} (hw : 0 < width) (hh : 0 < height)
    (h : CutoutProceeds numClocks width height cutout) :
    Proceeds (ofCutout name numClocks width height cutout).clocking := by
  intro x y
  have hxy := h (x % width) (List.mem_range.mpr (Nat.mod_lt x hw)) (y % height)
    (List.mem_range.mpr (Nat.mod_lt y hh))
  simp only [ClockingScheme.clockNumber, ofCutout, if_true, Ucoord.at2]
  rw [Nat.mod_add_mod, Nat.mod_add_mod] at hxy
  rcases hxy with hxy | hxy | ⟨hb, hxy⟩ | ⟨ha, hxy⟩
  · exact .inl hxy
  · exact .inr (.inl hxy)
  · obtain ⟨hm, hpos⟩ := sub_one_mod hb
    exact .inr (.inr (.inl ⟨hpos, by rw [hm]; exact hxy⟩))
  · obtain ⟨hm, hpos⟩ := sub_one_mod ha
    exact .inr (.inr (.inr ⟨hpos, by rw [hm]; exact hxy⟩))

theorem proceeds_ofCutoutSwap {name : ClockName} {numClocks width height : ℕ}
    {cutout : List (List ℕ)} (hw : 0 < width) (hh : 0 < height)
    (h : CutoutProceeds numClocks width height cutout) :
    Proceeds (ofCutoutSwap name numClocks width height cutout).clocking := by
  intro x y
  rcases @proceeds_ofCutout name _ _ _ _ hw hh h y x with hxy | hxy | ⟨hb, hxy⟩ | ⟨ha, hxy⟩
  · exact .inr (.inl hxy)
  · exact .inl hxy
  · exact .inr (.inr (.inr ⟨hb, hxy⟩))
  · exact .inr (.inr (.inl ⟨ha, hxy⟩))

theorem proceeds_twoddwave (n : ℕ) : Proceeds (.twoddwaveClocking n) := by
  intro x y
  left
  simp only [ClockingScheme.clockNumber, ClockingScheme.twoddwaveClocking, if_true, Ucoord.at2]
  rw [← Nat.add_mod, ← Nat.add_mod, Nat.mod_add_mod, Nat.add_assoc]

theorem Predefined.proceeds {a : Arrangement} {s : NamedScheme} (h : Predefined a s)
    (hr : s.clocking.regular = true) : Proceeds s.clocking := by
  cases h with
  | «open» n => cases n <;> exact absurd hr (by decide)
  | columnar n => cases n <;> exact proceeds_ofCutout (by decide) (by decide) (by decide)
  | row n => cases n <;> exact proceeds_ofCutout (by decide) (by decide) (by decide)
  | twoddwave n => cases n <;> exact proceeds_twoddwave _
  | twoddwaveHex n =>
    cases a <;> cases n
    case cartesian.three => exact proceeds_twoddwave _
    case cartesian.four => exact proceeds_twoddwave _
    case oddRowHex.three => exact proceeds_ofCutout (by decide) (by decide) (by decide)
    case oddRowHex.four => exact proceeds_ofCutout (by decide) (by decide) (by decide)
    case evenRowHex.three => exact proceeds_ofCutout (by decide) (by decide) (by decide)
    case evenRowHex.four => exact proceeds_ofCutout (by decide) (by decide) (by decide)
    case oddColumnHex.three => exact proceeds_ofCutoutSwap (by decide) (by decide) (by decide)
    case oddColumnHex.four => exact proceeds_ofCutoutSwap (by decide) (by decide) (by decide)
    case evenColumnHex.three => exact proceeds_ofCutoutSwap (by decide) (by decide) (by decide)
    case evenColumnHex.four => exact proceeds_ofCutoutSwap (by decide) (by decide) (by decide)
  | use => exact proceeds_ofCutout (by decide) (by decide) (by decide)
  | res => exact proceeds_ofCutout (by decide) (by decide) (by decide)
  | esr => exact proceeds_ofCutout (by decide) (by decide) (by decide)
  | cfe => exact proceeds_ofCutout (by decide) (by decide) (by decide)
  | bancs => exact proceeds_ofCutout (by decide) (by decide) (by decide)

theorem Predefined.isLinearScheme_eq_false {a : Arrangement} {s : NamedScheme}
    (h : Predefined a s) (hr : s.clocking.regular = false) : s.isLinearScheme = false := by
  cases h with
  | «open» n => cases n <;> rfl
  | columnar n => cases n <;> exact absurd hr (by decide)
  | row n => cases n <;> exact absurd hr (by decide)
  | twoddwave n => cases n <;> exact absurd hr (by decide)
  | twoddwaveHex n => cases a <;> cases n <;> exact absurd hr (by decide)
  | use | res | esr | cfe | bancs => exact absurd hr (by decide)

theorem Predefined.eq_columnar {a : Arrangement} {s : NamedScheme} (h : Predefined a s)
    (hn : s.name = .columnar) : ∃ n, s = columnarClocking n := by
  cases h with
  | columnar n => exact ⟨n, rfl⟩
  | «open» n => cases n <;> exact absurd hn (by decide)
  | row n => cases n <;> exact absurd hn (by decide)
  | twoddwave n => cases n <;> exact absurd hn (by decide)
  | twoddwaveHex n => cases a <;> cases n <;> exact absurd hn (by decide)
  | use | res | esr | cfe | bancs => exact absurd hn (by decide)

theorem Predefined.eq_row {a : Arrangement} {s : NamedScheme} (h : Predefined a s)
    (hn : s.name = .row) : ∃ n, s = rowClocking n := by
  cases h with
  | row n => exact ⟨n, rfl⟩
  | «open» n => cases n <;> exact absurd hn (by decide)
  | columnar n => cases n <;> exact absurd hn (by decide)
  | twoddwave n => cases n <;> exact absurd hn (by decide)
  | twoddwaveHex n => cases a <;> cases n <;> exact absurd hn (by decide)
  | use | res | esr | cfe | bancs => exact absurd hn (by decide)

theorem Predefined.eq_twoddwave {a : Arrangement} {s : NamedScheme} (h : Predefined a s)
    (hn : s.name = .twoddwave) : ∃ n, s = twoddwaveClocking n := by
  cases h with
  | twoddwave n => exact ⟨n, rfl⟩
  | twoddwaveHex n =>
    cases a
    case cartesian => exact ⟨.four, rfl⟩
    all_goals cases n <;> exact absurd hn (by decide)
  | «open» n => cases n <;> exact absurd hn (by decide)
  | columnar n => cases n <;> exact absurd hn (by decide)
  | row n => cases n <;> exact absurd hn (by decide)
  | use | res | esr | cfe | bancs => exact absurd hn (by decide)

theorem clockNumber_columnar (n : NumClks) (cz : Ucoord) :
    (columnarClocking n).clocking.clockNumber cz =
      cz.x % (columnarClocking n).clocking.numClocks := by
  have h3 : ∀ a ∈ List.range 3, ∀ b ∈ List.range 3,
      cutoutEntry [[0, 1, 2], [0, 1, 2], [0, 1, 2]] a b = a := by decide
  have h4 : ∀ a ∈ List.range 4, ∀ b ∈ List.range 4,
      cutoutEntry [[0, 1, 2, 3], [0, 1, 2, 3], [0, 1, 2, 3], [0, 1, 2, 3]] a b = a := by decide
  cases n with
  | three =>
    exact h3 _ (List.mem_range.mpr (Nat.mod_lt _ (by decide))) _
      (List.mem_range.mpr (Nat.mod_lt _ (by decide)))
  | four =>
    exact h4 _ (List.mem_range.mpr (Nat.mod_lt _ (by decide))) _
      (List.mem_range.mpr (Nat.mod_lt _ (by decide)))

theorem clockNumber_row (n : NumClks) (cz : Ucoord) :
    (rowClocking n).clocking.clockNumber cz = cz.y % (rowClocking n).clocking.numClocks := by
  have h3 : ∀ a ∈ List.range 3, ∀ b ∈ List.range 3,
      cutoutEntry [[0, 0, 0], [1, 1, 1], [2, 2, 2]] a b = b := by decide
  have h4 : ∀ a ∈ List.range 4, ∀ b ∈ List.range 4,
      cutoutEntry [[0, 0, 0, 0], [1, 1, 1, 1], [2, 2, 2, 2], [3, 3, 3, 3]] a b = b := by decide
  cases n with
  | three =>
    exact h3 _ (List.mem_range.mpr (Nat.mod_lt _ (by decide))) _
      (List.mem_range.mpr (Nat.mod_lt _ (by decide)))
  | four =>
    exact h4 _ (List.mem_range.mpr (Nat.mod_lt _ (by decide))) _
      (List.mem_range.mpr (Nat.mod_lt _ (by decide)))

theorem eq_succ_of_mod {n a b : ℕ} (hn : n = 3 ∨ n = 4) (h₁ : a ≤ b + 1) (h₂ : b ≤ a + 1)
    (h : (a % n + 1) % n = b % n) : b = a + 1 := by
  rcases hn with rfl | rfl <;> omega

end NamedScheme

namespace ClockedLayout

variable {lyt : ClockedLayout} {c e : Ucoord}

theorem mem_outgoingClockedZones :
    e ∈ lyt.outgoingClockedZones c ↔
      e ∈ lyt.adjacentCoordinates c ∧ lyt.isOutgoingClocked c e = true :=
  List.mem_filter

theorem mem_incomingClockedZones_comm (hs : lyt.Small) (hc : lyt.Inside c) (he : lyt.Inside e)
    (hz : e.z = c.z) : c ∈ lyt.incomingClockedZones e ↔ e ∈ lyt.outgoingClockedZones c := by
  rw [incomingClockedZones, outgoingClockedZones, List.mem_filter, List.mem_filter,
    isIncomingClocked_eq_isOutgoingClocked,
    CoordinateLayout.adjacentCoordinates_comm hs hc he hz]

theorem outgoingClockedZones_nodup (hs : lyt.Small) (hc : lyt.Inside c) :
    (lyt.outgoingClockedZones c).Nodup :=
  (CoordinateLayout.adjacentCoordinates_nodup hs hc).filter _

theorem incomingClockedZones_nodup (hs : lyt.Small) (hc : lyt.Inside c) :
    (lyt.incomingClockedZones c).Nodup :=
  (CoordinateLayout.adjacentCoordinates_nodup hs hc).filter _

theorem clockNumber_of_mem_outgoingClockedZones (h : e ∈ lyt.outgoingClockedZones c) :
    (lyt.getClockNumber c + 1) % lyt.numClocks = lyt.getClockNumber e := by
  have h' := (mem_outgoingClockedZones.mp h).2
  unfold isOutgoingClocked at h'
  split_ifs at h'
  exact of_decide_eq_true h'

theorem mem_outgoingClockedZones_of_ne (hne : c ≠ e) (h : e ∈ lyt.adjacentCoordinates c)
    (hc : (lyt.getClockNumber c + 1) % lyt.numClocks = lyt.getClockNumber e) :
    e ∈ lyt.outgoingClockedZones c := by
  refine mem_outgoingClockedZones.mpr ⟨h, ?_⟩
  rw [isOutgoingClocked, if_neg hne]
  exact decide_eq_true hc

section Growth

variable {lyt' : ClockedLayout}

theorem isOutgoingClocked_congr (hk : lyt'.clocking = lyt.clocking) (cz1 cz2 : Ucoord) :
    lyt'.isOutgoingClocked cz1 cz2 = lyt.isOutgoingClocked cz1 cz2 := by
  unfold isOutgoingClocked getClockNumber numClocks
  rw [hk]

theorem outgoingClockedZones_eq_of_settled (hk : lyt'.clocking = lyt.clocking)
    (h : CoordinateLayout.Settled lyt.toCoordinateLayout lyt'.toCoordinateLayout c)
    (hs : lyt'.Small) (hc : lyt.Inside c) :
    lyt'.outgoingClockedZones c = lyt.outgoingClockedZones c := by
  simp only [outgoingClockedZones, h.adjacentCoordinates_eq hs hc]
  exact List.filter_congr fun e _ => isOutgoingClocked_congr hk c e

theorem incomingClockedZones_eq_of_settled (hk : lyt'.clocking = lyt.clocking)
    (h : CoordinateLayout.Settled lyt.toCoordinateLayout lyt'.toCoordinateLayout c)
    (hs : lyt'.Small) (hc : lyt.Inside c) :
    lyt'.incomingClockedZones c = lyt.incomingClockedZones c := by
  simp only [incomingClockedZones, h.adjacentCoordinates_eq hs hc]
  refine List.filter_congr fun e _ => ?_
  rw [isIncomingClocked_eq_isOutgoingClocked, isIncomingClocked_eq_isOutgoingClocked,
    isOutgoingClocked_congr hk]

theorem mem_outgoingClockedZones_of_grows (hk : lyt'.clocking = lyt.clocking)
    (h : CoordinateLayout.Grows lyt.toCoordinateLayout lyt'.toCoordinateLayout)
    (hc : lyt.Inside c) (he : e ∈ lyt.outgoingClockedZones c) :
    e ∈ lyt'.outgoingClockedZones c := by
  obtain ⟨hadj, hout⟩ := mem_outgoingClockedZones.mp he
  refine mem_outgoingClockedZones.mpr ⟨h.mem_adjacentCoordinates hc hadj, ?_⟩
  rw [isOutgoingClocked_congr hk, hout]

end Growth

theorem outgoingClockedZones_ne_nil (hs : lyt.Small) (hp : NamedScheme.Proceeds lyt.clocking)
    (hc : c ∈ lyt.foreachGroundTile) (hx : c.x ≠ lyt.x) (hy : c.y ≠ lyt.y) :
    lyt.outgoingClockedZones c ≠ [] := by
  obtain ⟨heq, hcx, hcy⟩ := CoordinateLayout.mem_foreachGroundTile.mp hc
  have hin := CoordinateLayout.inside_of_mem_foreachGroundTile hc
  have hout : ∀ x y : ℕ, x ≤ lyt.x → y ≤ lyt.y →
      (y = c.y ∧ (x = c.x + 1 ∨ c.x = x + 1) ∨ x = c.x ∧ (y = c.y + 1 ∨ c.y = y + 1)) →
      (lyt.clocking.clockNumber (.at2 c.x c.y) + 1) % lyt.clocking.numClocks =
        lyt.clocking.clockNumber (.at2 x y) → lyt.outgoingClockedZones c ≠ [] := by
    intro x y hx' hy' hnear hclk
    have he : lyt.Inside (.at2 x y) := ⟨rfl, hx', hy', Nat.zero_le _⟩
    have hz : (Ucoord.at2 x y).z = c.z := by rw [heq]; rfl
    refine List.ne_nil_of_mem (a := .at2 x y) (mem_outgoingClockedZones_of_ne ?_
      (CoordinateLayout.mem_adjacentCoordinates_of_cardinal hs hin he hz hnear) ?_)
    · rintro h
      have h₁ : c.x = x := congrArg Ucoord.x h
      have h₂ : c.y = y := congrArg Ucoord.y h
      omega
    · rw [← heq] at hclk
      exact hclk
  rcases hp c.x c.y with h | h | ⟨hpos, h⟩ | ⟨hpos, h⟩
  · exact hout _ _ (by omega) hcy (by omega) h
  · exact hout _ _ hcx (by omega) (by omega) h
  · exact hout _ _ hcx (by omega) (by omega) h
  · exact hout _ _ (by omega) hcy (by omega) h

end ClockedLayout
end Fiction
