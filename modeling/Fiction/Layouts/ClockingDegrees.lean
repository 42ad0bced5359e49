import Fiction.Layouts.ClockingSchemes
import Mathlib.Data.List.Perm.Subperm

/-!
# Degrees of clocking schemes

A scheme states how many zones feed information to a zone at most, and how many accept information
from it. On Cartesian layouts all regular schemes keep what they state.
-/

namespace Fiction

namespace NamedScheme

/-- `max_in_degree` -/
def maxInDegree (maxFaninSize : ℕ) (s : NamedScheme) : ℕ :=
  match s.name with
  | .open => maxFaninSize
  | .columnar | .row | .res | .esr | .cfe => min maxFaninSize 3
  | .twoddwave | .twoddwaveHex | .use | .bancs => min maxFaninSize 2

/-- `max_out_degree` -/
def maxOutDegree (maxFaninSize : ℕ) (s : NamedScheme) : ℕ :=
  match s.name with
  | .open => maxFaninSize
  | .columnar | .row | .twoddwave | .twoddwaveHex | .use | .bancs => 2
  | .res | .esr | .cfe => 3

/-- The positions next to `(x, y)`. -/
def around (x y : ℕ) : List Ucoord :=
  (if 0 < y then [.at2 x (y - 1)] else []) ++ [.at2 (x + 1) y, .at2 x (y + 1)] ++
    if 0 < x then [.at2 (x - 1) y] else []

/-- At most `indeg` zones next to a zone precede it, and at most `outdeg` follow it. -/
def HasDegrees (s : ClockingScheme) (indeg outdeg : ℕ) : Prop :=
  ∀ x y : ℕ,
    ((around x y).countP fun e =>
      (s.clockNumber e + 1) % s.numClocks = s.clockNumber (.at2 x y)) ≤ indeg ∧
    ((around x y).countP fun e =>
      (s.clockNumber (.at2 x y) + 1) % s.numClocks = s.clockNumber e) ≤ outdeg

def cutoutAround (width height : ℕ) (cutout : List (List ℕ)) (a b : ℕ) : List ℕ :=
  [cutoutEntry cutout a ((b + height - 1) % height), cutoutEntry cutout ((a + 1) % width) b,
    cutoutEntry cutout a ((b + 1) % height), cutoutEntry cutout ((a + width - 1) % width) b]

def CutoutHasDegrees (numClocks width height : ℕ) (cutout : List (List ℕ)) (indeg outdeg : ℕ) :
    Prop :=
  ∀ a ∈ List.range width, ∀ b ∈ List.range height,
    ((cutoutAround width height cutout a b).countP fun k =>
      (k + 1) % numClocks = cutoutEntry cutout a b) ≤ indeg ∧
    ((cutoutAround width height cutout a b).countP fun k =>
      (cutoutEntry cutout a b + 1) % numClocks = k) ≤ outdeg
  deriving Decidable

theorem add_sub_one_mod {x w : ℕ} (hw : 0 < w) (hx : 0 < x) :
    (x % w + w - 1) % w = (x - 1) % w := by
  have h : (x % w + w - 1) = x % w + (w - 1) := by omega
  rw [h, Nat.mod_add_mod, show x + (w - 1) = x - 1 + w by omega, Nat.add_mod_right]

theorem countP_around_le {name : ClockName} {numClocks width height : ℕ}
    {cutout : List (List ℕ)} (hw : 0 < width) (hh : 0 < height) (p : ℕ → Bool) (x y : ℕ) :
    (around x y).countP (p ∘ (ofCutout name numClocks width height cutout).clocking.clockNumber) ≤
      (cutoutAround width height cutout (x % width) (y % height)).countP p := by
  have hnorth : ((if 0 < y then [Ucoord.at2 x (y - 1)] else []).countP
      (p ∘ (ofCutout name numClocks width height cutout).clocking.clockNumber)) ≤
      [cutoutEntry cutout (x % width) ((y % height + height - 1) % height)].countP p := by
    split_ifs with hy
    · rw [add_sub_one_mod hh hy]
      rfl
    · exact Nat.zero_le _
  have hwest : ((if 0 < x then [Ucoord.at2 (x - 1) y] else []).countP
      (p ∘ (ofCutout name numClocks width height cutout).clocking.clockNumber)) ≤
      [cutoutEntry cutout ((x % width + width - 1) % width) (y % height)].countP p := by
    split_ifs with hx
    · rw [add_sub_one_mod hw hx]
      rfl
    · exact Nat.zero_le _
  have hmid : [Ucoord.at2 (x + 1) y, .at2 x (y + 1)].countP
      (p ∘ (ofCutout name numClocks width height cutout).clocking.clockNumber) =
      [cutoutEntry cutout ((x % width + 1) % width) (y % height),
        cutoutEntry cutout (x % width) ((y % height + 1) % height)].countP p := by
    rw [Nat.mod_add_mod, Nat.mod_add_mod]
    rfl
  have hsplit : cutoutAround width height cutout (x % width) (y % height) =
      [cutoutEntry cutout (x % width) ((y % height + height - 1) % height)] ++
        [cutoutEntry cutout ((x % width + 1) % width) (y % height),
          cutoutEntry cutout (x % width) ((y % height + 1) % height)] ++
        [cutoutEntry cutout ((x % width + width - 1) % width) (y % height)] := rfl
  rw [around, hsplit, List.countP_append, List.countP_append, List.countP_append,
    List.countP_append, hmid]
  omega

theorem hasDegrees_ofCutout {name : ClockName} {numClocks width height : ℕ}
    {cutout : List (List ℕ)} {indeg outdeg : ℕ} (hw : 0 < width) (hh : 0 < height)
    (h : CutoutHasDegrees numClocks width height cutout indeg outdeg) :
    HasDegrees (ofCutout name numClocks width height cutout).clocking indeg outdeg := by
  intro x y
  obtain ⟨hin, hout⟩ := h (x % width) (List.mem_range.mpr (Nat.mod_lt x hw)) (y % height)
    (List.mem_range.mpr (Nat.mod_lt y hh))
  exact ⟨(countP_around_le hw hh _ x y).trans hin, (countP_around_le hw hh _ x y).trans hout⟩

theorem hasDegrees_twoddwave {n : ℕ} (hn : n = 3 ∨ n = 4) :
    HasDegrees (.twoddwaveClocking n) 2 2 := by
  intro x y
  simp only [around, ClockingScheme.clockNumber, ClockingScheme.twoddwaveClocking, if_true,
    Ucoord.at2, List.countP_append]
  rcases hn with rfl | rfl <;> split_ifs <;>
    simp only [List.countP_cons, List.countP_nil, decide_eq_true_eq] <;>
    constructor <;> split_ifs <;> omega

theorem Predefined.hasDegrees {s : NamedScheme} (h : Predefined .cartesian s)
    (hr : s.clocking.regular = true) :
    HasDegrees s.clocking (s.maxInDegree 3) (s.maxOutDegree 3) := by
  cases h with
  | «open» n => cases n <;> exact absurd hr (by decide)
  | columnar n => cases n <;> exact hasDegrees_ofCutout (by decide) (by decide) (by decide)
  | row n => cases n <;> exact hasDegrees_ofCutout (by decide) (by decide) (by decide)
  | twoddwave n =>
    cases n with
    | three => exact hasDegrees_twoddwave (.inl rfl)
    | four => exact hasDegrees_twoddwave (.inr rfl)
  | twoddwaveHex n => exact hasDegrees_twoddwave (.inr rfl)
  | use => exact hasDegrees_ofCutout (by decide) (by decide) (by decide)
  | res => exact hasDegrees_ofCutout (by decide) (by decide) (by decide)
  | esr => exact hasDegrees_ofCutout (by decide) (by decide) (by decide)
  | cfe => exact hasDegrees_ofCutout (by decide) (by decide) (by decide)
  | bancs => exact hasDegrees_ofCutout (by decide) (by decide) (by decide)

theorem Predefined.clockNumber_at2 {a : Arrangement} {s : NamedScheme} (h : Predefined a s)
    (c : Ucoord) :
    s.clocking.clockNumber (.at2 c.x c.y) = s.clocking.clockNumber c := by
  cases h with
  | «open» n | columnar n | row n | twoddwave n => cases n <;> rfl
  | twoddwaveHex n => cases a <;> cases n <;> rfl
  | use | res | esr | cfe | bancs => rfl

end NamedScheme

namespace ClockedLayout

variable {lyt : ClockedLayout} {c e : Ucoord}

theorem mem_around (ha : lyt.arrangement = .cartesian) (hc : lyt.Inside c)
    (he : e ∈ lyt.adjacentCoordinates c) :
    .at2 e.x e.y ∈ NamedScheme.around c.x c.y ∧ e.z = c.z ∧ e.d = false := by
  obtain ⟨hin, hz, hstep⟩ := (CoordinateLayout.mem_adjacentCoordinates_cartesian ha hc).mp he
  refine ⟨?_, hz, hin.live⟩
  unfold NamedScheme.around
  rcases hstep with ⟨hx, hy | hy⟩ | ⟨hy, hx | hx⟩
  · rw [if_pos (by omega : 0 < c.y), show c.y - 1 = e.y by omega, hx]
    simp
  · rw [hy, hx]
    simp
  · rw [if_pos (by omega : 0 < c.x), show c.x - 1 = e.x by omega, hy]
    simp
  · rw [hx, hy]
    simp

theorem length_zones_le (ha : lyt.arrangement = .cartesian) (hc : lyt.Inside c)
    {zones : List Ucoord} (hsub : zones ⊆ lyt.adjacentCoordinates c) (hnd : zones.Nodup)
    {p : Ucoord → Bool} (hp : ∀ e ∈ zones, p (.at2 e.x e.y) = true) :
    zones.length ≤ (NamedScheme.around c.x c.y).countP p := by
  have hinj : ∀ a ∈ zones, ∀ b ∈ zones, Ucoord.at2 a.x a.y = .at2 b.x b.y → a = b := by
    intro a hmem b hmem' heq
    obtain ⟨-, hz, hd⟩ := mem_around ha hc (hsub hmem)
    obtain ⟨-, hz', hd'⟩ := mem_around ha hc (hsub hmem')
    obtain ⟨-, -, hy, hx⟩ := Ucoord.mk.inj heq
    exact congr (congr (congr (congrArg Ucoord.mk (hd.trans hd'.symm)) (hz.trans hz'.symm)) hy) hx
  have hflat : (zones.map fun e => Ucoord.at2 e.x e.y).Nodup :=
    hnd.map_on fun a hmem b hmem' => hinj a hmem b hmem'
  have hmem : (zones.map fun e => Ucoord.at2 e.x e.y) ⊆
      (NamedScheme.around c.x c.y).filter p := by
    intro t ht
    obtain ⟨e, he, rfl⟩ := List.mem_map.mp ht
    exact List.mem_filter.mpr ⟨(mem_around ha hc (hsub he)).1, hp e he⟩
  have hle := (hflat.subperm hmem).length_le
  rwa [List.length_map, ← List.countP_eq_length_filter] at hle

/-- No tile of a Cartesian layout is fed by more zones, and none feeds more zones, than its scheme
states. -/
theorem degrees_of_predefined {s : NamedScheme} (h : NamedScheme.Predefined .cartesian s)
    (hr : s.clocking.regular = true) (hk : lyt.clocking = s.clocking)
    (ha : lyt.arrangement = .cartesian) (hc : lyt.Inside c) :
    (lyt.incomingClockedZones c).length ≤ s.maxInDegree 3 ∧
      (lyt.outgoingClockedZones c).length ≤ s.maxOutDegree 3 := by
  obtain ⟨hin, hout⟩ := h.hasDegrees hr c.x c.y
  have hclk : ∀ e, s.clocking.clockNumber (.at2 e.x e.y) = lyt.getClockNumber e := by
    intro e
    rw [h.clockNumber_at2, getClockNumber, hk]
  have hnum : s.clocking.numClocks = lyt.numClocks := by rw [numClocks, hk]
  have hnodup := CoordinateLayout.adjacentCoordinates_nodup_cartesian ha hc
  constructor
  · apply (length_zones_le ha hc (fun e he => (List.mem_filter.mp he).1)
      (hnodup.filter _) _).trans hin
    intro e he
    obtain ⟨hadj, hclocked⟩ := List.mem_filter.mp he
    rw [isIncomingClocked] at hclocked
    split_ifs at hclocked
    rw [hclk, hclk, hnum]
    exact hclocked
  · apply (length_zones_le ha hc (fun e he => (List.mem_filter.mp he).1)
      (hnodup.filter _) _).trans hout
    intro e he
    rw [hclk, hclk, hnum]
    exact decide_eq_true (clockNumber_of_mem_outgoingClockedZones he)

theorem degrees_of_predefined_use :
    let lyt : ClockedLayout := ⟨⟨.at3 3 3 1, .cartesian⟩, NamedScheme.useClocking.clocking⟩
    (lyt.incomingClockedZones (.at2 1 1)).length ≤ 2 ∧
      (lyt.outgoingClockedZones (.at2 1 1)).length ≤ 2 :=
  degrees_of_predefined .use rfl rfl rfl
    ⟨rfl, by decide, by decide, by decide⟩

end ClockedLayout
end Fiction
