import Fiction.Layouts.ClockingSchemes

/-!
# Flow ranks

A linear clocking scheme numbers ranks of tiles, which are columns, rows or diagonals. Neighbours
are at most one rank apart, so every tile sends information to the next rank only. 2DDWave clocking
on a hexagonal grid is an exception: some neighbours are two diagonals apart there, which three
phases cannot tell from one diagonal the other way.
-/

namespace Fiction.CoordinateLayout

/-- The number of the diagonal on which a face lies. Rows are shifted in pairs, and the offset tells
which rows make up the first pair. -/
def fieldDiagonal (off : ℤ) (a b : ℕ) : ℕ := a + (b + ((1 - off) / 2).toNat) / 2

/-- Steps lead to the same diagonal or to one next to it, unless they wrap around. -/
theorem field_diagonal {off : ℤ} (hoff : off = 1 ∨ off = -1) {a b : ℕ} (ha : a < 2 ^ 31 - 1)
    (hb : b < 2 ^ 31 - 1) {da db : ℤ} (hd : (da, db) ∈ hexSteps)
    (ha' : fieldAlong off a b da db < 2 ^ 31 - 1) (hb' : fieldAcross b db < 2 ^ 31 - 1) :
    fieldDiagonal off a b ≤ fieldDiagonal off (fieldAlong off a b da db) (fieldAcross b db) + 1 ∧
      fieldDiagonal off (fieldAlong off a b da db) (fieldAcross b db) ≤
        fieldDiagonal off a b + 1 := by
  have halong := (fieldAlong_near hoff ha hd).resolve_right ha'.ne
  have hacross := (fieldAcross_near hb hd).resolve_right hb'.ne
  generalize fieldAlong off a b da db = a' at halong
  generalize fieldAcross b db = b' at hacross
  simp only [hexSteps, List.mem_cons, List.not_mem_nil, or_false, Prod.mk.injEq] at hd
  unfold fieldDiagonal
  clear ha' hb'
  rcases hoff with rfl | rfl <;>
    rcases hd with ⟨rfl, rfl⟩ | ⟨rfl, rfl⟩ | ⟨rfl, rfl⟩ | ⟨rfl, rfl⟩ | ⟨rfl, rfl⟩ | ⟨rfl, rfl⟩ <;>
    constructor <;> omega

/-- The number of the diagonal through `c`, counted from the north-western corner. -/
def diagonal (a : Arrangement) (c : Ucoord) : ℕ :=
  if a = .cartesian then c.x + c.y
  else if isPointyTop a then fieldDiagonal (hexOffset a) c.x c.y
  else fieldDiagonal (hexOffset a) c.y c.x

variable {lyt : CoordinateLayout} {c e : Ucoord}

theorem diagonal_near (hs : lyt.arrangement ≠ .cartesian → lyt.Small) (hc : lyt.Inside c)
    (h : e ∈ lyt.adjacentCoordinates c) :
    diagonal lyt.arrangement c ≤ diagonal lyt.arrangement e + 1 ∧
      diagonal lyt.arrangement e ≤ diagonal lyt.arrangement c + 1 := by
  unfold diagonal
  by_cases ha : lyt.arrangement = .cartesian
  · obtain ⟨-, -, h'⟩ := (mem_adjacentCoordinates_cartesian ha hc).mp h
    rw [if_pos ha, if_pos ha]
    omega
  · have hoff := hexOffset_eq lyt.arrangement
    obtain ⟨⟨hx, hy⟩, ⟨hex, hey⟩, dir, hdir, rfl⟩ :=
      exists_step_of_mem_adjacentCoordinates ha (hs ha) hc h
    obtain ⟨h₁, h₂⟩ := mem_hexSteps_of_mem_cubeDirections hdir
    rw [if_neg ha, if_neg ha]
    cases hp : isPointyTop lyt.arrangement with
    | true =>
      rw [hexNeighbour_pointy hp] at hex hey ⊢
      exact field_diagonal hoff hx hy h₁ hex hey
    | false =>
      rw [hexNeighbour_flat hp] at hex hey ⊢
      exact field_diagonal hoff hy hx h₂ hey hex

end Fiction.CoordinateLayout

namespace Fiction.NamedScheme

open CoordinateLayout

/-- The rank of a tile under a linear scheme. -/
def flowRank (s : NamedScheme) (a : Arrangement) (c : Ucoord) : ℕ :=
  match s.name with
  | .columnar => c.x
  | .row => c.y
  | .twoddwaveHex => diagonal a c
  | _ => c.x + c.y

/-- Not the exception: 2DDWave clocking has four phases or the layout is Cartesian. -/
def Ranked (s : NamedScheme) (a : Arrangement) : Prop :=
  s.name = .twoddwave → s.clocking.numClocks = 4 ∨ a = .cartesian
  deriving Decidable

theorem cutoutEntry_diagonal {cutout : List (List ℕ)} {n k : ℕ} (hn : n = 3 ∨ n = 4)
    (h : ∀ a ∈ List.range n, ∀ b ∈ List.range (2 * n),
      cutoutEntry cutout a b = (a + (b + k) / 2) % n) (a b : ℕ) :
    cutoutEntry cutout (a % n) (b % (2 * n)) = (a + (b + k) / 2) % n := by
  have hpos : 0 < n := by omega
  rw [h _ (List.mem_range.mpr (Nat.mod_lt a hpos)) _
    (List.mem_range.mpr (Nat.mod_lt b (by omega)))]
  rcases hn with rfl | rfl <;> omega

theorem clockNumber_twoddwaveHex {a : Arrangement} (ha : a ≠ .cartesian) (n : NumClks)
    (c : Ucoord) : (twoddwaveHexClocking a n).clocking.clockNumber c =
      diagonal a c % (twoddwaveHexClocking a n).clocking.numClocks := by
  have hodd3 := @cutoutEntry_diagonal oddCutout3 3 1 (.inl rfl) (by decide)
  have hodd4 := @cutoutEntry_diagonal oddCutout4 4 1 (.inr rfl) (by decide)
  have heven3 := @cutoutEntry_diagonal evenCutout3 3 0 (.inl rfl) (by decide)
  have heven4 := @cutoutEntry_diagonal evenCutout4 4 0 (.inr rfl) (by decide)
  cases a with
  | cartesian => exact absurd rfl ha
  | oddRowHex =>
    cases n with
    | three => exact hodd3 c.x c.y
    | four => exact hodd4 c.x c.y
  | evenRowHex =>
    cases n with
    | three => exact heven3 c.x c.y
    | four => exact heven4 c.x c.y
  | oddColumnHex =>
    cases n with
    | three => exact hodd3 c.y c.x
    | four => exact hodd4 c.y c.x
  | evenColumnHex =>
    cases n with
    | three => exact heven3 c.y c.x
    | four => exact heven4 c.y c.x

theorem Predefined.clockNumber_eq {a : Arrangement} {s : NamedScheme} (h : Predefined a s)
    (hl : s.isLinearScheme = true) (c : Ucoord) :
    s.clocking.clockNumber c = s.flowRank a c % s.clocking.numClocks := by
  have hwave : ∀ n c, (ClockingScheme.twoddwaveClocking n).clockNumber c = (c.x + c.y) % n := by
    intro n c
    change (c.y % n + c.x % n) % n = (c.x + c.y) % n
    rw [← Nat.add_mod, Nat.add_comm]
  cases h with
  | columnar n =>
    rw [clockNumber_columnar]
    cases n <;> rfl
  | row n =>
    rw [clockNumber_row]
    cases n <;> rfl
  | twoddwave n => cases n <;> exact hwave _ c
  | twoddwaveHex n =>
    by_cases ha : a = .cartesian
    · subst ha
      exact hwave 4 c
    · rw [clockNumber_twoddwaveHex ha]
      have hname : (twoddwaveHexClocking a n).name = .twoddwaveHex := by
        cases a
        case cartesian => exact absurd rfl ha
        all_goals cases n <;> rfl
      rw [flowRank, hname]
  | «open» n => cases n <;> exact absurd hl (by decide)
  | use | res | esr | cfe | bancs => exact absurd hl (by decide)

theorem Predefined.numClocks {a : Arrangement} {s : NamedScheme} (h : Predefined a s) :
    s.clocking.numClocks = 3 ∨ s.clocking.numClocks = 4 := by
  cases h with
  | «open» n => cases n <;> decide
  | columnar n => cases n <;> decide
  | row n => cases n <;> decide
  | twoddwave n => cases n <;> decide
  | twoddwaveHex n => cases a <;> cases n <;> decide
  | use | res | esr | cfe | bancs => decide

theorem Predefined.regular_of_isLinearScheme {a : Arrangement} {s : NamedScheme}
    (h : Predefined a s) (hl : s.isLinearScheme = true) : s.clocking.regular = true := by
  by_contra hr
  rw [h.isLinearScheme_eq_false (Bool.eq_false_iff.mpr hr)] at hl
  exact absurd hl Bool.false_ne_true

theorem cutoutEntry_lt {cutout : List (List ℕ)} {n : ℕ} (hn : 0 < n)
    (h : ∀ row ∈ cutout, ∀ k ∈ row, k < n) (a b : ℕ) : cutoutEntry cutout a b < n := by
  have hget : ∀ (l : List ℕ) (i : ℕ), (∀ k ∈ l, k < n) → l.getD i 0 < n := by
    intro l i hl
    rw [List.getD_eq_getElem?_getD]
    cases hi : l[i]? with
    | none => exact hn
    | some k => exact hl k (List.mem_of_getElem? hi)
  refine hget _ a ?_
  rw [List.getD_eq_getElem?_getD]
  cases hb : cutout[b]? with
  | none => exact fun k hk => absurd hk List.not_mem_nil
  | some row => exact h row (List.mem_of_getElem? hb)

theorem Predefined.clockNumber_lt {a : Arrangement} {s : NamedScheme} (h : Predefined a s)
    (c : Ucoord) : s.clocking.clockNumber c < s.clocking.numClocks := by
  have hwave : ∀ n c, 0 < n → (ClockingScheme.twoddwaveClocking n).clockNumber c < n :=
    fun n c hn => Nat.mod_lt _ hn
  cases h with
  | «open» n => cases n <;> exact Nat.zero_lt_succ _
  | columnar n => cases n <;> exact cutoutEntry_lt (by decide) (by decide) _ _
  | row n => cases n <;> exact cutoutEntry_lt (by decide) (by decide) _ _
  | twoddwave n => cases n <;> exact hwave _ c (by decide)
  | twoddwaveHex n =>
    cases a
    case cartesian => exact hwave 4 c (by decide)
    all_goals cases n <;> exact cutoutEntry_lt (by decide) (by decide) _ _
  | use | res | esr | cfe | bancs => exact cutoutEntry_lt (by decide) (by decide) _ _

theorem Predefined.flowRank_eq_succ_of_near {lyt : ClockedLayout} {s : NamedScheme}
    (h : Predefined lyt.arrangement s) (hl : s.isLinearScheme = true)
    (hclk : lyt.clocking = s.clocking) {c e : Ucoord} (he : e ∈ lyt.outgoingClockedZones c)
    (hnear : s.flowRank lyt.arrangement c ≤ s.flowRank lyt.arrangement e + 1 ∧
      s.flowRank lyt.arrangement e ≤ s.flowRank lyt.arrangement c + 1) :
    s.flowRank lyt.arrangement e = s.flowRank lyt.arrangement c + 1 := by
  have hnext := ClockedLayout.clockNumber_of_mem_outgoingClockedZones he
  unfold ClockedLayout.getClockNumber ClockedLayout.numClocks at hnext
  rw [hclk, h.clockNumber_eq hl, h.clockNumber_eq hl] at hnext
  exact eq_succ_of_mod h.numClocks hnear.1 hnear.2 hnext

theorem Predefined.flowRank_eq_succ {lyt : ClockedLayout} {s : NamedScheme}
    (h : Predefined lyt.arrangement s) (hl : s.isLinearScheme = true) (hr : s.Ranked lyt.arrangement)
    (hclk : lyt.clocking = s.clocking) (hs : lyt.arrangement ≠ .cartesian → lyt.Small)
    {c e : Ucoord} (hc : lyt.Inside c) (he : e ∈ lyt.outgoingClockedZones c) :
    s.flowRank lyt.arrangement e = s.flowRank lyt.arrangement c + 1 := by
  have hadj := (ClockedLayout.mem_outgoingClockedZones.mp he).1
  have hnear := near_of_mem_adjacentCoordinates hs hc hadj
  have hdiag := diagonal_near hs hc hadj
  have hmem := of_decide_eq_true hl
  simp only [List.mem_cons, List.not_mem_nil, or_false] at hmem
  rcases hmem with hn | hn | hn | hn
  · refine h.flowRank_eq_succ_of_near hl hclk he ?_
    rw [flowRank, flowRank, hn]
    exact ⟨hnear.1, hnear.2.1⟩
  · refine h.flowRank_eq_succ_of_near hl hclk he ?_
    rw [flowRank, flowRank, hn]
    exact hnear.2.2
  · have hrank : ∀ c, s.flowRank lyt.arrangement c = c.x + c.y := fun c => by rw [flowRank, hn]
    rcases hr hn with h4 | ha
    · have hnext := ClockedLayout.clockNumber_of_mem_outgoingClockedZones he
      unfold ClockedLayout.getClockNumber ClockedLayout.numClocks at hnext
      rw [hclk, h.clockNumber_eq hl, h.clockNumber_eq hl, h4, hrank, hrank] at hnext
      rw [hrank, hrank]
      omega
    · obtain ⟨-, -, hstep⟩ := (mem_adjacentCoordinates_cartesian ha hc).mp hadj
      refine h.flowRank_eq_succ_of_near hl hclk he ?_
      rw [hrank, hrank]
      omega
  · refine h.flowRank_eq_succ_of_near hl hclk he ?_
    rw [flowRank, flowRank, hn]
    exact hdiag

end Fiction.NamedScheme
