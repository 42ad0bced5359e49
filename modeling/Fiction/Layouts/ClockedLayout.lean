import Fiction.Layouts.CoordinateLayout

/-!
# Clocking schemes and clocked layouts

A clocking scheme assigns a clock number to each coordinate. Overriding the clock number of one
zone makes the scheme irregular; an irregular scheme consults its overrides before its function.
-/

namespace Fiction

structure ClockingScheme where
  numClocks : ℕ
  regular : Bool
  fn : Ucoord → ℕ
  override : Ucoord → Option ℕ

namespace ClockingScheme

/-- `operator()` -/
def clockNumber (s : ClockingScheme) (cz : Ucoord) : ℕ :=
  if s.regular then s.fn cz else (s.override cz).getD (s.fn cz)

def overrideClockNumber (s : ClockingScheme) (cz : Ucoord) (cn : ℕ) : ClockingScheme :=
  { s with
    regular := false
    override := fun c => if c = cz then some (cn % s.numClocks) else s.override c }

def openClocking (n : ℕ) : ClockingScheme := ⟨n, false, fun _ => 0, fun _ => none⟩

def twoddwaveClocking (n : ℕ) : ClockingScheme :=
  ⟨n, true, fun cz => (cz.y % n + cz.x % n) % n, fun _ => none⟩

end ClockingScheme

structure ClockedLayout extends CoordinateLayout where
  clocking : ClockingScheme

namespace ClockedLayout

variable (lyt : ClockedLayout)

def assignClockNumber (cz : Ucoord) (cn : ℕ) : ClockedLayout :=
  { lyt with clocking := lyt.clocking.overrideClockNumber cz cn }

def getClockNumber (cz : Ucoord) : ℕ := lyt.clocking.clockNumber cz

def numClocks : ℕ := lyt.clocking.numClocks

/-- `cz2` feeds information to `cz1`. -/
def isIncomingClocked (cz1 cz2 : Ucoord) : Bool :=
  if cz1 = cz2 then false
  else (lyt.getClockNumber cz2 + 1) % lyt.numClocks = lyt.getClockNumber cz1

/-- `cz2` accepts information from `cz1`. -/
def isOutgoingClocked (cz1 cz2 : Ucoord) : Bool :=
  if cz1 = cz2 then false
  else (lyt.getClockNumber cz1 + 1) % lyt.numClocks = lyt.getClockNumber cz2

def incomingClockedZones (cz : Ucoord) : List Ucoord :=
  (lyt.adjacentCoordinates cz).filter (lyt.isIncomingClocked cz)

def outgoingClockedZones (cz : Ucoord) : List Ucoord :=
  (lyt.adjacentCoordinates cz).filter (lyt.isOutgoingClocked cz)

theorem isIncomingClocked_eq_isOutgoingClocked (cz1 cz2 : Ucoord) :
    lyt.isIncomingClocked cz1 cz2 = lyt.isOutgoingClocked cz2 cz1 := by
  simp only [isIncomingClocked, isOutgoingClocked, eq_comm]

end ClockedLayout
end Fiction
