import Fiction.Layouts.CoordinateEnumeration

/-!
# Packed coordinates

A coordinate is stored in 64 bits, which also serve as the signal of a gate-level layout. Signals
that are numbers, such as the constants 0 and 1, are read as packed coordinates.
-/

namespace Fiction

namespace Ucoord

/-- The conversion to `uint64_t` -/
def toUInt64 (c : Ucoord) : BitVec 64 :=
  ((((BitVec.ofNat 64 c.d.toNat <<< 1 ||| BitVec.ofNat 64 c.z) <<< 31) |||
    BitVec.ofNat 64 c.y) <<< 31) ||| BitVec.ofNat 64 c.x

/-- The constructor from `uint64_t` -/
def ofUInt64 (t : BitVec 64) : Ucoord where
  d := t >>> 63 ≠ 0
  z := (t <<< 1 >>> 63).toNat
  y := (t <<< 2 >>> 33).toNat
  x := (t <<< 33 >>> 33).toNat

/-- `get_dead` sets the highest bit of the packed coordinate. -/
def packedDead (c : Ucoord) : Ucoord := ofUInt64 (c.toUInt64 ||| (default : Ucoord).toUInt64)

theorem toNat_shiftLeft_or {a : BitVec 64} {n k : ℕ} (ha : a.toNat < 2 ^ (64 - k)) (hn : n < 2 ^ k)
    (hk : k ≤ 64) : (a <<< k ||| BitVec.ofNat 64 n).toNat = a.toNat * 2 ^ k + n := by
  have hpow : 2 ^ (64 - k) * 2 ^ k = 2 ^ 64 := by rw [← Nat.pow_add, Nat.sub_add_cancel hk]
  have hlt : a.toNat * 2 ^ k < 2 ^ 64 := by
    rw [← hpow]
    exact Nat.mul_lt_mul_of_pos_right ha (Nat.two_pow_pos k)
  have hn' : n < 2 ^ 64 := hn.trans_le (Nat.pow_le_pow_right (by decide) hk)
  rw [BitVec.toNat_or, BitVec.toNat_shiftLeft, BitVec.toNat_ofNat, Nat.shiftLeft_eq,
    Nat.mod_eq_of_lt hlt, Nat.mod_eq_of_lt hn', Nat.mul_comm, Nat.two_pow_add_eq_or_of_lt hn]

theorem toNat_toUInt64 {c : Ucoord} (h : c.Representable) :
    c.toUInt64.toNat = ((c.d.toNat * 2 + c.z) * 2 ^ 31 + c.y) * 2 ^ 31 + c.x := by
  obtain ⟨hz, hy, hx⟩ := h
  have hd : c.d.toNat < 2 := Bool.toNat_lt c.d
  have h₀ : (BitVec.ofNat 64 c.d.toNat).toNat = c.d.toNat := by
    rw [BitVec.toNat_ofNat]; omega
  have h₁ : (BitVec.ofNat 64 c.d.toNat <<< 1 ||| BitVec.ofNat 64 c.z).toNat =
      c.d.toNat * 2 ^ 1 + c.z := by
    rw [toNat_shiftLeft_or (by omega) (by omega) (by omega), h₀]
  have h₂ := toNat_shiftLeft_or (a := BitVec.ofNat 64 c.d.toNat <<< 1 ||| BitVec.ofNat 64 c.z)
    (k := 31) (by omega) hy (by omega)
  have h₃ := toNat_shiftLeft_or (a := (BitVec.ofNat 64 c.d.toNat <<< 1 |||
    BitVec.ofNat 64 c.z) <<< 31 ||| BitVec.ofNat 64 c.y) (k := 31) (by omega) hx (by omega)
  rw [toUInt64, h₃, h₂, h₁, Nat.pow_one]

theorem z_ofUInt64 (t : BitVec 64) : (ofUInt64 t).z = t.toNat / 2 ^ 62 % 2 := by
  have := t.isLt
  simp only [ofUInt64, BitVec.toNat_ushiftRight, BitVec.toNat_shiftLeft, Nat.shiftLeft_eq,
    Nat.shiftRight_eq_div_pow]
  omega

theorem y_ofUInt64 (t : BitVec 64) : (ofUInt64 t).y = t.toNat / 2 ^ 31 % 2 ^ 31 := by
  have := t.isLt
  simp only [ofUInt64, BitVec.toNat_ushiftRight, BitVec.toNat_shiftLeft, Nat.shiftLeft_eq,
    Nat.shiftRight_eq_div_pow]
  omega

theorem x_ofUInt64 (t : BitVec 64) : (ofUInt64 t).x = t.toNat % 2 ^ 31 := by
  have := t.isLt
  simp only [ofUInt64, BitVec.toNat_ushiftRight, BitVec.toNat_shiftLeft, Nat.shiftLeft_eq,
    Nat.shiftRight_eq_div_pow]
  omega

theorem d_ofUInt64 (t : BitVec 64) : (ofUInt64 t).d = decide (2 ^ 63 ≤ t.toNat) := by
  have hiff : t >>> 63 ≠ 0 ↔ 2 ^ 63 ≤ t.toNat := by
    rw [ne_eq, BitVec.toNat_inj.symm, BitVec.toNat_ushiftRight, Nat.shiftRight_eq_div_pow]
    have := t.isLt
    simp only [BitVec.ofNat_eq_ofNat, BitVec.toNat_ofNat, Nat.zero_mod]
    omega
  simp only [ofUInt64, hiff]

theorem representable_ofUInt64 (t : BitVec 64) : (ofUInt64 t).Representable := by
  constructor
  · rw [z_ofUInt64]
    omega
  · rw [y_ofUInt64]
    omega
  · rw [x_ofUInt64]
    omega

theorem ofUInt64_toUInt64 {c : Ucoord} (h : c.Representable) : ofUInt64 c.toUInt64 = c := by
  have hn := toNat_toUInt64 h
  obtain ⟨hz, hy, hx⟩ := h
  have hlt : c.d.toNat < 2 := Bool.toNat_lt c.d
  have hd' : (ofUInt64 c.toUInt64).d = c.d := by
    rw [d_ofUInt64, hn]
    cases hd : c.d with
    | false => exact decide_eq_false (by rw [Bool.toNat_false]; omega)
    | true => exact decide_eq_true (by rw [Bool.toNat_true]; omega)
  have hz' : (ofUInt64 c.toUInt64).z = c.z := by
    rw [z_ofUInt64, hn]
    omega
  have hy' : (ofUInt64 c.toUInt64).y = c.y := by
    rw [y_ofUInt64, hn]
    omega
  have hx' : (ofUInt64 c.toUInt64).x = c.x := by
    rw [x_ofUInt64, hn]
    omega
  exact congr (congr (congr (congrArg mk hd') hz') hy') hx'

theorem toUInt64_ofUInt64 (t : BitVec 64) : (ofUInt64 t).toUInt64 = t := by
  apply BitVec.eq_of_toNat_eq
  have hd : (ofUInt64 t).d.toNat = t.toNat / 2 ^ 63 := by
    rw [d_ofUInt64]
    have := t.isLt
    by_cases hle : 2 ^ 63 ≤ t.toNat
    · simp only [hle, decide_true, Bool.toNat_true]
      omega
    · simp only [hle, decide_false, Bool.toNat_false]
      omega
  rw [toNat_toUInt64 (representable_ofUInt64 t), hd, z_ofUInt64, y_ofUInt64, x_ofUInt64]
  omega

theorem toUInt64_lt_iff {c e : Ucoord} (hc : c.Representable) (he : e.Representable)
    (hd : c.d = e.d) :
    c.toUInt64 < e.toUInt64 ↔ c.lt e = true := by
  rw [BitVec.lt_def, toNat_toUInt64 hc, toNat_toUInt64 he, hd, lt_iff]
  obtain ⟨-, hy, hx⟩ := hc
  obtain ⟨-, hy', hx'⟩ := he
  omega

theorem toUInt64_eq_or (c : Ucoord) :
    c.toUInt64 = BitVec.ofNat 64 c.d.toNat <<< 63 ||| (BitVec.ofNat 64 c.z <<< 62 |||
      (BitVec.ofNat 64 c.y <<< 31 ||| BitVec.ofNat 64 c.x)) := by
  simp only [toUInt64, BitVec.shiftLeft_or_distrib, ← BitVec.shiftLeft_add, BitVec.or_assoc]

theorem packedDead_eq {c : Ucoord} (h : c.Representable) : c.packedDead = c.getDead := by
  have hdead : c.toUInt64 ||| (default : Ucoord).toUInt64 = { c with d := true }.toUInt64 := by
    have hdefault : (default : Ucoord).toUInt64 = BitVec.ofNat 64 1 <<< 63 := by decide
    have hor : BitVec.ofNat 64 c.d.toNat <<< 63 ||| BitVec.ofNat 64 1 <<< 63 =
        BitVec.ofNat 64 1 <<< 63 := by cases c.d <;> decide
    rw [hdefault, toUInt64_eq_or c, BitVec.or_comm (BitVec.ofNat 64 c.d.toNat <<< 63),
      BitVec.or_assoc, hor, BitVec.or_comm, toUInt64_eq_or]
    rfl
  rw [packedDead, hdead]
  exact ofUInt64_toUInt64 ⟨h.z_lt, h.y_lt, h.x_lt⟩

/-- Packing and unpacking are inverse to each other. -/
theorem packing_roundTrip :
    (∀ c : Ucoord, c.Representable → ofUInt64 c.toUInt64 = c) ∧
      ∀ t : BitVec 64, (ofUInt64 t).Representable ∧ (ofUInt64 t).toUInt64 = t :=
  ⟨fun _ h => ofUInt64_toUInt64 h, fun t => ⟨representable_ofUInt64 t, toUInt64_ofUInt64 t⟩⟩

end Ucoord

namespace CoordinateLayout

variable {lyt : CoordinateLayout} {c e : Ucoord}

theorem Inside.representable (hc : lyt.Inside c) (hf : lyt.Fits) (hz : lyt.z ≤ 1) :
    c.Representable :=
  ⟨Nat.lt_succ_of_le (hc.z_le.trans hz), hc.y_le.trans_lt hf.2, hc.x_le.trans_lt hf.1⟩

/-- Within a layout of two layers, signals stand for tiles and their order is the one of tiles.
A tile is also recognized in the signal of its dead copy. -/
theorem signal_faithful (hf : lyt.Fits) (hz : lyt.z ≤ 1) (hc : lyt.Inside c) (he : lyt.Inside e) :
    (c.toUInt64 = e.toUInt64 ↔ c = e) ∧ (c.toUInt64 < e.toUInt64 ↔ c.lt e = true) ∧
      c.packedDead.toUInt64 ≠ e.toUInt64 ∧ (c.packedDead = e.packedDead ↔ c = e) := by
  have hcf := hc.representable hf hz
  have hef := he.representable hf hz
  have hdead : c.d = e.d := hc.live.trans he.live.symm
  have hinj : ∀ {a b : Ucoord},
      a.Representable → b.Representable → a.toUInt64 = b.toUInt64 → a = b := by
    intro a b ha hb h
    rw [← Ucoord.ofUInt64_toUInt64 ha, h, Ucoord.ofUInt64_toUInt64 hb]
  refine ⟨⟨hinj hcf hef, congrArg _⟩, Ucoord.toUInt64_lt_iff hcf hef hdead, ?_, ?_⟩
  · intro h
    have hfits : c.packedDead.Representable := Ucoord.representable_ofUInt64 _
    have heq := hinj hfits hef h
    have hlive := he.live
    rw [← heq, Ucoord.packedDead_eq hcf] at hlive
    exact Bool.noConfusion (show true = false from hlive)
  · rw [Ucoord.packedDead_eq hcf, Ucoord.packedDead_eq hef]
    constructor
    · intro h
      obtain ⟨-, hz', hy, hx⟩ := Ucoord.mk.inj h
      exact congr (congr (congr (congrArg Ucoord.mk hdead) hz') hy) hx
    · intro h
      rw [h]

theorem signal_faithful_two :
    (Ucoord.at2 0 0).toUInt64 < (Ucoord.at2 1 0).toUInt64 ↔
      (Ucoord.at2 0 0).lt (Ucoord.at2 1 0) = true :=
  (@signal_faithful ⟨.at3 1 0 1, .cartesian⟩ _ _ ⟨by decide, by decide⟩ (by decide)
    ⟨rfl, by decide, by decide, by decide⟩ ⟨rfl, by decide, by decide, by decide⟩).2.1

end CoordinateLayout
end Fiction
