import Mathlib.Data.BitVec
import Mathlib.Tactic.Common

/-!
# A counter and a flag in one word

The most significant bit of a word of `w + 1` bits is a flag and the remaining bits are a counter.
Arithmetic on the whole word acts on the counter alone as long as the counter neither underflows
nor reaches `2 ^ w`; bit operations on the most significant bit act on the flag alone.
-/

namespace Fiction.FlaggedCounter

variable {w : ℕ}

def flag (x : BitVec (w + 1)) : Bool := x.getLsbD w

def value (x : BitVec (w + 1)) : ℕ := (x.setWidth w).toNat

def mask (w : ℕ) : BitVec (w + 1) := BitVec.twoPow (w + 1) w

theorem value_eq_mod (x : BitVec (w + 1)) : value x = x.toNat % 2 ^ w := by
  simp [value]

theorem value_lt (x : BitVec (w + 1)) : value x < 2 ^ w := (x.setWidth w).isLt

theorem flag_iff (x : BitVec (w + 1)) : flag x = true ↔ 2 ^ w ≤ x.toNat := by
  have h := BitVec.msb_eq_decide x
  rw [BitVec.msb_eq_getLsbD_last, Nat.add_sub_cancel] at h
  rw [flag, h, decide_eq_true_iff]

theorem toNat_eq (x : BitVec (w + 1)) :
    x.toNat = value x + if flag x = true then 2 ^ w else 0 := by
  have hlt : x.toNat < 2 ^ w * 2 := by simpa [pow_succ] using x.isLt
  rw [value_eq_mod]
  split_ifs with h
  · rw [flag_iff] at h
    rw [Nat.mod_eq_sub_mod h, Nat.mod_eq_of_lt (by omega)]
    omega
  · rw [flag_iff, not_le] at h
    rw [Nat.mod_eq_of_lt h]
    exact (x.toNat.add_zero).symm

/-- A word is determined by its counter and its flag. -/
theorem eq_of_toNat {x : BitVec (w + 1)} {c : ℕ} {f : Bool} (hc : c < 2 ^ w)
    (h : x.toNat = c + if f = true then 2 ^ w else 0) : value x = c ∧ flag x = f := by
  have hx := toNat_eq x
  have hl := value_lt x
  rw [h] at hx
  cases f <;> cases hf : flag x <;> simp only [hf, if_true, Bool.false_eq_true, if_false] at hx <;>
    first
      | exact ⟨by omega, rfl⟩
      | omega

theorem add_spec (x : BitVec (w + 1)) {k : ℕ} (h : value x + k < 2 ^ w) :
    value (x + BitVec.ofNat _ k) = value x + k ∧ flag (x + BitVec.ofNat _ k) = flag x := by
  apply eq_of_toNat h
  have hx := toNat_eq x
  have hp : 2 ^ (w + 1) = 2 ^ w * 2 := pow_succ 2 w
  rw [BitVec.toNat_add, BitVec.toNat_ofNat, hp, Nat.mod_eq_of_lt (a := k) (by omega)]
  split_ifs at hx ⊢ <;> rw [Nat.mod_eq_of_lt] <;> omega

theorem sub_spec (x : BitVec (w + 1)) {k : ℕ} (h : k ≤ value x) :
    value (x - BitVec.ofNat _ k) = value x - k ∧ flag (x - BitVec.ofNat _ k) = flag x := by
  have hl := value_lt x
  have hx := toNat_eq x
  have hp : 2 ^ (w + 1) = 2 ^ w * 2 := pow_succ 2 w
  apply eq_of_toNat (by omega)
  have hk : k % 2 ^ (w + 1) = k := Nat.mod_eq_of_lt (by omega)
  rw [BitVec.toNat_sub_of_le (by rw [BitVec.le_def, BitVec.toNat_ofNat, hk]; omega),
    BitVec.toNat_ofNat, hk]
  split_ifs at hx ⊢ <;> omega

theorem setWidth_mask : (mask w).setWidth w = 0#w := by
  ext i hi
  simp [mask, BitVec.getElem_setWidth, Nat.ne_of_gt hi]

@[simp] theorem value_or_mask (x : BitVec (w + 1)) : value (x ||| mask w) = value x := by
  rw [value, BitVec.setWidth_or, setWidth_mask, BitVec.or_zero, value]

@[simp] theorem flag_or_mask (x : BitVec (w + 1)) : flag (x ||| mask w) = true := by
  simp [flag, mask]

@[simp] theorem value_and_not_mask (x : BitVec (w + 1)) :
    value (x &&& ~~~ mask w) = value x := by
  rw [value, value]
  congr 1
  ext i hi
  simp [mask, hi.ne, Nat.lt_succ_of_lt hi]

@[simp] theorem flag_and_not_mask (x : BitVec (w + 1)) : flag (x &&& ~~~ mask w) = false := by
  simp [flag, mask]

end Fiction.FlaggedCounter
