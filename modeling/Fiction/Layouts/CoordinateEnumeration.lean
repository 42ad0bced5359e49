import Fiction.Layouts.CoordinateLayout
import Fiction.Library.ForwardIteration

/-!
# Enumerating the coordinates of a layout

`coord_iterator` counts through a layout in the order of the layers, the rows and the columns, and
ends at the dead copy of the highest coordinate. The fields of a coordinate have 31 bits, the layer
has one; incrementing them wraps around. An aspect ratio may be dead itself, as that of a
default-constructed layout is.
-/

namespace Fiction

namespace Ucoord

/-- The coordinates that fit into the fields of `ucoord_t`. -/
structure Representable (c : Ucoord) : Prop where
  z_lt : c.z < 2
  y_lt : c.y < 2 ^ 31
  x_lt : c.x < 2 ^ 31

def getDead (c : Ucoord) : Ucoord := { c with d := true }

end Ucoord

namespace CoordIterator

variable (aspectRatio : Ucoord)

/-- The prefix `operator++` -/
def next (coord : Ucoord) : Ucoord :=
  if coord ≠ aspectRatio then
    let coord := { coord with x := (coord.x + 1) % 2 ^ 31 }
    if coord.x > aspectRatio.x then
      let coord := { coord with x := 0, y := (coord.y + 1) % 2 ^ 31 }
      if coord.y > aspectRatio.y then { coord with y := 0, z := (coord.z + 1) % 2 } else coord
    else coord
  else coord.getDead

end CoordIterator

namespace CoordinateLayout

variable (lyt : CoordinateLayout)

def resize (ar : Ucoord) : CoordinateLayout := { lyt with dimension := ar }

def groundLayer : Ucoord := .at2 lyt.x lyt.y

/-- `l` is what the loop over `coordinates()` visits, provided that it terminates. The iterators of
`foreach_coordinate` are the same. -/
def VisitsCoordinates (l : List Ucoord) : Prop :=
  Visits (CoordIterator.next lyt.dimension) lyt.dimension.getDead (.at2 0 0) l

def VisitsGroundCoordinates (l : List Ucoord) : Prop :=
  Visits (CoordIterator.next lyt.groundLayer) lyt.groundLayer.getDead (.at2 0 0) l

def WithinBounds (aspectRatio c : Ucoord) : Prop :=
  c.isDead = false ∧ c.x ≤ aspectRatio.x ∧ c.y ≤ aspectRatio.y ∧ c.z ≤ aspectRatio.z

/-- Both kinds of loops terminate and visit all coordinates in order, the second kind those of the
ground layer. -/
structure EnumeratesCoordinates : Prop where
  all : ∃ l, lyt.VisitsCoordinates l ∧ (∀ c, c ∈ l ↔ WithinBounds lyt.dimension c) ∧
    l.Pairwise fun c e => c.lt e = true
  ground : ∃ l, lyt.VisitsGroundCoordinates l ∧
    (∀ c, c ∈ l ↔ WithinBounds lyt.dimension c ∧ c.z = 0) ∧ l.Pairwise fun c e => c.lt e = true

end CoordinateLayout

namespace CoordIterator

open CoordinateLayout (WithinBounds)

variable {ar : Ucoord}

/-- The iterator leaves no row or layer behind that has the largest size. -/
structure Exhaustible (ar : Ucoord) : Prop where
  live : ar.isDead = false
  x : ar.x = 2 ^ 31 - 1 → ar.y = 0 ∧ ar.z = 0
  y : ar.y = 2 ^ 31 - 1 → ar.z = 0

theorem next_spec (hr : ar.Representable) (he : Exhaustible ar) {c : Ucoord}
    (hc : WithinBounds ar c) (hne : c ≠ ar) :
    WithinBounds ar (next ar c) ∧ c.lt (next ar c) = true ∧
      ∀ e : Ucoord, WithinBounds ar e → (e.lt (next ar c) = true ↔ e.lt c = true ∨ e = c) := by
  obtain ⟨hz, hy, hx⟩ := hr
  obtain ⟨hlive, hx31, hy31⟩ := he
  obtain ⟨da, za, ya, xa⟩ := ar
  obtain ⟨d, z, y, x⟩ := c
  obtain ⟨hd, hcx, hcy, hcz⟩ := hc
  have hda : da = false := hlive
  have hd' : d = false := hd
  subst hda hd'
  simp only at hz hy hx hx31 hy31 hcx hcy hcz
  have hne' : ¬ (z = za ∧ y = ya ∧ x = xa) := by
    rintro ⟨rfl, rfl, rfl⟩
    exact hne rfl
  -- no field wraps around before the highest coordinate is reached
  have hnext : next ⟨false, za, ya, xa⟩ ⟨false, z, y, x⟩ =
      if x < xa then ⟨false, z, y, x + 1⟩
      else if y < ya then ⟨false, z, y + 1, 0⟩ else ⟨false, z + 1, 0, 0⟩ := by
    have hxmod : (x + 1) % 2 ^ 31 = x + 1 := by omega
    unfold next
    rw [if_pos hne]
    by_cases hxa : x < xa
    · simp only [hxmod, if_pos hxa]
      rw [if_neg (by omega)]
    · have hymod : (y + 1) % 2 ^ 31 = y + 1 := by omega
      simp only [hxmod, hymod, if_neg hxa]
      rw [if_pos (by omega)]
      by_cases hya : y < ya
      · rw [if_pos hya, if_neg (by omega)]
      · rw [if_neg hya, if_pos (by omega), show (z + 1) % 2 = z + 1 by omega]
  rw [hnext]
  refine ⟨?_, ?_, ?_⟩
  · split_ifs <;> refine ⟨rfl, ?_, ?_, ?_⟩ <;> simp only <;> omega
  · split_ifs <;> rw [Ucoord.lt_iff] <;> simp
  · rintro ⟨de, ze, ye, xe⟩ ⟨hde, hex, hey, hez⟩
    have hde' : de = false := hde
    subst hde'
    simp only at hex hey hez
    simp only [Ucoord.lt_iff, Ucoord.mk.injEq, true_and]
    split_ifs <;> simp only <;> omega

theorem visits_from (hr : ar.Representable) (he : Exhaustible ar) (c : Ucoord)
    (hc : WithinBounds ar c) :
    ∃ l, Visits (next ar) ar.getDead c l ∧
      (∀ e, e ∈ l ↔ WithinBounds ar e ∧ e.lt c = false) ∧
      l.Pairwise fun e e' => e.lt e' = true := by
  have hstop : c ≠ ar.getDead := by
    rintro rfl
    exact Bool.noConfusion hc.1
  by_cases hne : c = ar
  · subst hne
    refine ⟨[c], .step hstop ?_, fun e => ?_, List.pairwise_singleton _ _⟩
    · have hlast : next c c = c.getDead := if_neg (not_not_intro rfl)
      rw [hlast]
      exact .done
    · rw [List.mem_singleton]
      constructor
      · rintro rfl
        exact ⟨hc, Ucoord.lt_irrefl e⟩
      · rintro ⟨⟨hd, hx, hy, hz⟩, hlt⟩
        apply Ucoord.eq_of_not_lt (hd.trans hc.1.symm) hlt
        rw [← Bool.not_eq_true, Ucoord.lt_iff]
        omega
  · obtain ⟨hc', hlt, hsucc⟩ := next_spec hr he hc hne
    have hdec := (Ucoord.lt_iff _ _).mp hlt
    obtain ⟨l, hv, hmem, hpw⟩ := visits_from hr he (next ar c) hc'
    refine ⟨c :: l, .step hstop hv, fun e => ?_, List.pairwise_cons.mpr ⟨fun e hl => ?_, hpw⟩⟩
    · rw [List.mem_cons, hmem, ← Bool.not_eq_true, ← Bool.not_eq_true]
      constructor
      · rintro (rfl | ⟨hb, hge⟩)
        · exact ⟨hc, by simp [Ucoord.lt_irrefl]⟩
        · exact ⟨hb, fun h => hge ((hsucc e hb).mpr (.inl h))⟩
      · rintro ⟨hb, hge⟩
        by_cases heq : e = c
        · exact .inl heq
        · exact .inr ⟨hb, fun h => ((hsucc e hb).mp h).elim hge heq⟩
    · obtain ⟨hb, hge⟩ := (hmem e).mp hl
      by_contra hn
      have hle : e.lt c = true ∨ e = c := by
        by_contra hcon
        rw [not_or] at hcon
        refine hcon.2 (Ucoord.eq_of_not_lt (hb.1.trans hc.1.symm) ?_ ?_)
        · exact Bool.eq_false_iff.mpr hcon.1
        · exact Bool.eq_false_iff.mpr hn
      have hcon := (hsucc e hb).mpr hle
      rw [hge] at hcon
      exact Bool.noConfusion hcon
termination_by (ar.z - c.z, ar.y - c.y, ar.x - c.x)
decreasing_by
  obtain ⟨-, hx, hy, hz⟩ := hc'
  simp only [Prod.lex_def]
  omega

theorem exhaustible_of_visits {l : List Ucoord}
    (h : Visits (next ar) ar.getDead (.at2 0 0) l) : Exhaustible ar := by
  refine ⟨?_, fun hx => ?_, fun hy => ?_⟩
  · by_contra hd
    have hlive : ∀ c : Ucoord, c.isDead = false → (next ar c).isDead = false := by
      intro c hc
      have hne : c ≠ ar := by
        rintro rfl
        exact hd hc
      unfold next
      rw [if_pos hne]
      simp only
      split_ifs <;> exact hc
    exact Bool.noConfusion (h.stop_of_invariant (I := fun c => c.isDead = false) hlive rfl)
  · by_contra hcon
    have hrow : ∀ c : Ucoord, c.isDead = false ∧ c.y = 0 ∧ c.z = 0 →
        (next ar c).isDead = false ∧ (next ar c).y = 0 ∧ (next ar c).z = 0 := by
      rintro c ⟨hd, hy, hz⟩
      have hne : c ≠ ar := by
        rintro rfl
        exact hcon ⟨hy, hz⟩
      unfold next
      rw [if_pos hne]
      simp only
      rw [if_neg (by omega)]
      exact ⟨hd, hy, hz⟩
    exact Bool.noConfusion (h.stop_of_invariant
      (I := fun c => c.isDead = false ∧ c.y = 0 ∧ c.z = 0) hrow ⟨rfl, rfl, rfl⟩).1
  · by_contra hz
    have hlayer : ∀ c : Ucoord, c.isDead = false ∧ c.z = 0 →
        (next ar c).isDead = false ∧ (next ar c).z = 0 := by
      rintro c ⟨hd, hcz⟩
      have hne : c ≠ ar := by
        rintro rfl
        exact hz hcz
      unfold next
      rw [if_pos hne]
      simp only
      split_ifs
      · omega
      · exact ⟨hd, hcz⟩
      · exact ⟨hd, hcz⟩
    exact Bool.noConfusion (h.stop_of_invariant
      (I := fun c => c.isDead = false ∧ c.z = 0) hlayer ⟨rfl, rfl⟩).1

theorem visits_iff (hr : ar.Representable) :
    (∃ l, Visits (next ar) ar.getDead (.at2 0 0) l ∧ (∀ c, c ∈ l ↔ WithinBounds ar c) ∧
      l.Pairwise fun c e => c.lt e = true) ↔ Exhaustible ar := by
  constructor
  · rintro ⟨l, hv, -⟩
    exact exhaustible_of_visits hv
  · intro he
    have hfirst : WithinBounds ar (.at2 0 0) := ⟨rfl, Nat.zero_le _, Nat.zero_le _, Nat.zero_le _⟩
    obtain ⟨l, hv, hmem, hpw⟩ := visits_from hr he (.at2 0 0) hfirst
    have hleast : ∀ e : Ucoord, e.lt (.at2 0 0) = false := by
      intro e
      rw [← Bool.not_eq_true, Ucoord.lt_iff]
      simp [Ucoord.at2]
    exact ⟨l, hv, fun c => by rw [hmem, hleast, and_iff_left rfl], hpw⟩

end CoordIterator

namespace CoordinateLayout

variable {lyt : CoordinateLayout}

/-- All loops visit what they should exactly if the aspect ratio is live, at most one row has the
largest width and at most one layer the largest height. -/
theorem enumeratesCoordinates_iff (hr : lyt.dimension.Representable) :
    lyt.EnumeratesCoordinates ↔ CoordIterator.Exhaustible lyt.dimension := by
  have hall := CoordIterator.visits_iff hr
  constructor
  · exact fun h => hall.mp h.all
  · intro he
    refine ⟨hall.mpr he, ?_⟩
    have hrg : lyt.groundLayer.Representable := ⟨Nat.two_pos, hr.y_lt, hr.x_lt⟩
    have heg : CoordIterator.Exhaustible lyt.groundLayer :=
      ⟨rfl, fun hx => ⟨(he.x hx).1, rfl⟩, fun _ => rfl⟩
    obtain ⟨l, hv, hmem, hpw⟩ := (CoordIterator.visits_iff hrg).mpr heg
    refine ⟨l, hv, fun c => ?_, hpw⟩
    rw [hmem]
    simp only [WithinBounds, groundLayer, Ucoord.at2, Nat.le_zero, x, y]
    constructor
    · rintro ⟨hd, hx, hy, hz⟩
      exact ⟨⟨hd, hx, hy, by omega⟩, hz⟩
    · rintro ⟨⟨hd, hx, hy, -⟩, hz⟩
      exact ⟨hd, hx, hy, hz⟩

theorem enumeratesCoordinates_crossing :
    (⟨.at3 3 2 1, .cartesian⟩ : CoordinateLayout).EnumeratesCoordinates ↔
      CoordIterator.Exhaustible (.at3 3 2 1) :=
  enumeratesCoordinates_iff ⟨by decide, by decide, by decide⟩

/-- The loop over a default-constructed layout does not terminate. -/
theorem default_not_enumerated :
    ¬ (⟨default, .cartesian⟩ : CoordinateLayout).EnumeratesCoordinates := by
  rintro ⟨⟨l, hv, -⟩, -⟩
  exact Bool.noConfusion (CoordIterator.exhaustible_of_visits hv).live

end CoordinateLayout
end Fiction
