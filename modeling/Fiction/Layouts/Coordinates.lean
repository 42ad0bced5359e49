import Mathlib.Algebra.Group.Int.Defs
import Mathlib.Algebra.Group.Nat.Defs
import Mathlib.Order.Basic
import Mathlib.Order.Lattice
import Mathlib.Tactic.Common

/-!
# Unsigned offset coordinates

`Ucoord` has the four fields of `offset::ucoord_t`. Horizontal positions are natural numbers:
none of the functions modelled here increments a coordinate beyond a layout border, so the 31 bits
that the source reserves for each of them are never exhausted by them.
-/

namespace Fiction

structure Ucoord where
  /-- dead indicator -/
  d : Bool
  z : ℕ
  y : ℕ
  x : ℕ
  deriving DecidableEq, Repr

namespace Ucoord

instance : Inhabited Ucoord := ⟨⟨true, 0, 0, 0⟩⟩

/-- A live coordinate `(x, y, z)`. -/
def at3 (x y z : ℕ) : Ucoord := ⟨false, z, y, x⟩

def at2 (x y : ℕ) : Ucoord := ⟨false, 0, y, x⟩

def isDead (c : Ucoord) : Bool := c.d

/-- `operator<`: compares `z`, then `y`, then `x`, and disregards the dead indicator. -/
def lt (c other : Ucoord) : Bool :=
  if c.z < other.z then true
  else if c.z = other.z then
    if c.y < other.y then true
    else if c.y = other.y then c.x < other.x
    else false
  else false

/-- `operator<=`: the negation of `operator>`, which is `operator<` the other way round. -/
def le (c other : Ucoord) : Bool := !other.lt c

@[simp] theorem isDead_default : (default : Ucoord).isDead = true := rfl
@[simp] theorem isDead_at3 (x y z : ℕ) : (at3 x y z).isDead = false := rfl
@[simp] theorem isDead_at2 (x y : ℕ) : (at2 x y).isDead = false := rfl

theorem lt_iff (c e : Ucoord) :
    c.lt e = true ↔ c.z < e.z ∨ c.z = e.z ∧ (c.y < e.y ∨ c.y = e.y ∧ c.x < e.x) := by
  unfold lt
  split_ifs <;> simp <;> omega

theorem lt_irrefl (c : Ucoord) : c.lt c = false := by
  simp [lt]

theorem lt_trans {a b c : Ucoord} (hab : a.lt b = true) (hbc : b.lt c = true) :
    a.lt c = true := by
  rw [lt_iff] at *
  omega

theorem eq_of_not_lt {a b : Ucoord} (hd : a.d = b.d) (hab : a.lt b = false) (hba : b.lt a = false) :
    a = b := by
  have h₁ : ¬ a.lt b = true := by simp [hab]
  have h₂ : ¬ b.lt a = true := by simp [hba]
  rw [lt_iff] at h₁ h₂
  obtain ⟨da, za, ya, xa⟩ := a
  obtain ⟨db, zb, yb, xb⟩ := b
  simp only at h₁ h₂ hd
  simp only [mk.injEq]
  exact ⟨hd, by omega, by omega, by omega⟩

end Ucoord
end Fiction
