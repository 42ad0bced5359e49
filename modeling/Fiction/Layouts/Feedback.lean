import Fiction.Layouts.FlowRanks
import Mathlib.Logic.Relation

/-!
# Feedback

Under a linear clocking scheme, ranks grow from each clock zone to its outgoing zones, so that no
zone feeds itself. 2DDWave clocking with three phases is different on hexagonal layouts with room
for two neighbours that are two diagonals apart: information returns from one to the other.
-/

namespace Fiction

namespace ClockedLayout

/-- No zone can be reached from itself. -/
def FeedbackFree (lyt : ClockedLayout) : Prop :=
  ∀ c, lyt.Inside c → ¬ Relation.TransGen (fun c e => e ∈ lyt.outgoingClockedZones c) c c

variable {lyt : ClockedLayout} {c e : Ucoord}

theorem inside_of_mem_outgoingClockedZones (hc : lyt.Inside c)
    (he : e ∈ lyt.outgoingClockedZones c) : lyt.Inside e :=
  (CoordinateLayout.adjacentCoordinates_inside hc (mem_outgoingClockedZones.mp he).1).1

theorem feedbackFree_of_rank {rank : Ucoord → ℕ}
    (h : ∀ c, lyt.Inside c → ∀ e ∈ lyt.outgoingClockedZones c, rank c < rank e) :
    lyt.FeedbackFree := by
  intro c hc hcycle
  have hrun : ∀ e, Relation.TransGen (fun c e => e ∈ lyt.outgoingClockedZones c) c e →
      lyt.Inside e ∧ rank c < rank e := by
    intro e hpath
    induction hpath with
    | single he => exact ⟨inside_of_mem_outgoingClockedZones hc he, h c hc _ he⟩
    | tail _ he ih =>
      obtain ⟨hin, hlt⟩ := ih
      exact ⟨inside_of_mem_outgoingClockedZones hin he, hlt.trans (h _ hin _ he)⟩
  exact lt_irrefl _ (hrun c hcycle).2

end ClockedLayout

namespace CoordinateLayout

/-- No two neighbours are two diagonals apart, counted by the sum of the coordinates. -/
def Narrow (lyt : CoordinateLayout) : Prop :=
  match lyt.arrangement with
  | .cartesian => True
  | .oddRowHex => lyt.x = 0 ∨ lyt.y ≤ 1
  | .oddColumnHex => lyt.x ≤ 1 ∨ lyt.y = 0
  | .evenRowHex | .evenColumnHex => lyt.x = 0 ∨ lyt.y = 0

variable {lyt : CoordinateLayout} {c e : Ucoord}

theorem Narrow.pointy (hn : lyt.Narrow) (hp : isPointyTop lyt.arrangement = true) :
    lyt.x = 0 ∨ lyt.y = 0 ∨ hexOffset lyt.arrangement = -1 ∧ lyt.y ≤ 1 := by
  unfold Narrow at hn
  split at hn <;> simp_all [isPointyTop, hexOffset]
  omega

theorem Narrow.flat (hn : lyt.Narrow) (ha : lyt.arrangement ≠ .cartesian)
    (hp : isPointyTop lyt.arrangement = false) :
    lyt.x = 0 ∨ lyt.y = 0 ∨ hexOffset lyt.arrangement = -1 ∧ lyt.x ≤ 1 := by
  unfold Narrow at hn
  split at hn <;> simp_all [isPointyTop, hexOffset]
  omega

theorem field_sum_near {off : ℤ} (hoff : off = 1 ∨ off = -1) {a b : ℕ} (ha : a < 2 ^ 31 - 1)
    (hb : b < 2 ^ 31 - 1) {da db : ℤ} (hd : (da, db) ∈ hexSteps)
    (ha' : fieldAlong off a b da db < 2 ^ 31 - 1) (hb' : fieldAcross b db < 2 ^ 31 - 1)
    (h : a = 0 ∧ fieldAlong off a b da db = 0 ∨ b = 0 ∧ fieldAcross b db = 0 ∨
      off = -1 ∧ b ≤ 1 ∧ fieldAcross b db ≤ 1) :
    a + b ≤ fieldAlong off a b da db + fieldAcross b db + 1 ∧
      fieldAlong off a b da db + fieldAcross b db ≤ a + b + 1 := by
  have halong := (fieldAlong_near hoff ha hd).resolve_right ha'.ne
  have hacross := (fieldAcross_near hb hd).resolve_right hb'.ne
  generalize fieldAlong off a b da db = a' at halong h ⊢
  generalize fieldAcross b db = b' at hacross h ⊢
  simp only [hexSteps, List.mem_cons, List.not_mem_nil, or_false, Prod.mk.injEq] at hd
  clear ha' hb'
  rcases hoff with rfl | rfl <;>
    rcases hd with ⟨rfl, rfl⟩ | ⟨rfl, rfl⟩ | ⟨rfl, rfl⟩ | ⟨rfl, rfl⟩ | ⟨rfl, rfl⟩ | ⟨rfl, rfl⟩ <;>
    omega

theorem sum_near_of_narrow (hs : lyt.arrangement ≠ .cartesian → lyt.Small) (hn : lyt.Narrow)
    (hc : lyt.Inside c) (h : e ∈ lyt.adjacentCoordinates c) :
    c.x + c.y ≤ e.x + e.y + 1 ∧ e.x + e.y ≤ c.x + c.y + 1 := by
  by_cases ha : lyt.arrangement = .cartesian
  · obtain ⟨-, -, h'⟩ := (mem_adjacentCoordinates_cartesian ha hc).mp h
    omega
  · have hoff := hexOffset_eq lyt.arrangement
    have hcx := hc.x_le
    have hcy := hc.y_le
    have hx := hcx.trans_lt (hs ha).1
    have hy := hcy.trans_lt (hs ha).2
    have he := (adjacentCoordinates_inside hc h).1
    have hex := he.x_le
    have hey := he.y_le
    have hex' := hex.trans_lt (hs ha).1
    have hey' := hey.trans_lt (hs ha).2
    rw [adjacentCoordinates_hex ha, List.mem_filter, List.mem_map] at h
    obtain ⟨⟨dir, hdir, rfl⟩, -⟩ := h
    obtain ⟨h₁, h₂⟩ := mem_hexSteps_of_mem_cubeDirections hdir
    cases hp : isPointyTop lyt.arrangement with
    | true =>
      have hroom := hn.pointy hp
      rw [hexNeighbour_pointy hp] at hex hey hex' hey' ⊢
      have hax : fieldAlong (hexOffset lyt.arrangement) c.x c.y dir.x dir.z ≤ lyt.x := hex
      have hay : fieldAcross c.y dir.z ≤ lyt.y := hey
      exact field_sum_near hoff hx hy h₁ hex' hey' (by omega)
    | false =>
      have hroom := hn.flat ha hp
      rw [hexNeighbour_flat hp] at hex hey hex' hey' ⊢
      have hax : fieldAcross c.x dir.x ≤ lyt.x := hex
      have hay : fieldAlong (hexOffset lyt.arrangement) c.y c.x dir.z dir.x ≤ lyt.y := hey
      have hnear := field_sum_near hoff hy hx h₂ hey' hex' (by omega)
      change c.x + c.y ≤ fieldAcross _ _ + fieldAlong _ _ _ _ _ + 1 ∧
        fieldAcross _ _ + fieldAlong _ _ _ _ _ ≤ c.x + c.y + 1
      omega

theorem exists_diagonal_of_not_narrow (hn : ¬ lyt.Narrow) : ∃ x y, x + 1 ≤ lyt.x ∧ y + 1 ≤ lyt.y ∧
    Ucoord.at2 x y ∈ lyt.adjacentCoordinates (.at2 (x + 1) (y + 1)) := by
  have hmem : lyt.arrangement ≠ .cartesian → ∀ dir ∈ cubeDirections, ∀ x y,
      lyt.hexNeighbour (.at2 (x + 1) (y + 1)) dir = .at2 x y → x ≤ lyt.x → y ≤ lyt.y →
        Ucoord.at2 x y ∈ lyt.adjacentCoordinates (.at2 (x + 1) (y + 1)) := by
    intro ha dir hdir x y heq hx hy
    rw [adjacentCoordinates_hex ha, List.mem_filter, List.mem_map]
    exact ⟨⟨dir, hdir, heq⟩, decide_eq_true ⟨hx, hy, Nat.zero_le _⟩⟩
  unfold Narrow at hn
  split at hn
  case h_1 => exact absurd trivial hn
  case h_2 ha =>
    have heq : lyt.hexNeighbour (.at2 1 2) ⟨0, 1, -1⟩ = .at2 0 1 := by
      rw [hexNeighbour_pointy (by rw [ha]; rfl), ha]
      decide
    exact ⟨0, 1, by omega, by omega,
      hmem (by rw [ha]; decide) _ (by decide) 0 1 heq (Nat.zero_le _) (by omega)⟩
  case h_3 ha =>
    have heq : lyt.hexNeighbour (.at2 2 1) ⟨-1, 1, 0⟩ = .at2 1 0 := by
      rw [hexNeighbour_flat (by rw [ha]; rfl), ha]
      decide
    exact ⟨1, 0, by omega, by omega,
      hmem (by rw [ha]; decide) _ (by decide) 1 0 heq (by omega) (Nat.zero_le _)⟩
  case h_4 ha =>
    have heq : lyt.hexNeighbour (.at2 1 1) ⟨0, 1, -1⟩ = .at2 0 0 := by
      rw [hexNeighbour_pointy (by rw [ha]; rfl), ha]
      decide
    exact ⟨0, 0, by omega, by omega,
      hmem (by rw [ha]; decide) _ (by decide) 0 0 heq (Nat.zero_le _) (Nat.zero_le _)⟩
  case h_5 ha =>
    have heq : lyt.hexNeighbour (.at2 1 1) ⟨-1, 1, 0⟩ = .at2 0 0 := by
      rw [hexNeighbour_flat (by rw [ha]; rfl), ha]
      decide
    exact ⟨0, 0, by omega, by omega,
      hmem (by rw [ha]; decide) _ (by decide) 0 0 heq (Nat.zero_le _) (Nat.zero_le _)⟩

end CoordinateLayout

namespace ClockedLayout

open CoordinateLayout NamedScheme

variable {lyt : ClockedLayout} {s : NamedScheme}

theorem not_feedbackFree_of_not_narrow (hclk : lyt.clocking = (twoddwaveClocking .three).clocking)
    (hs : lyt.Small) (hn : ¬ lyt.Narrow) : ¬ lyt.FeedbackFree := by
  obtain ⟨x, y, hx, hy, hadj⟩ := exists_diagonal_of_not_narrow hn
  have hin : ∀ i j, i ≤ lyt.x → j ≤ lyt.y → lyt.Inside (.at2 i j) :=
    fun i j hi hj => ⟨rfl, hi, hj, Nat.zero_le _⟩
  have hfirst := hin x y (by omega) (by omega)
  have hsecond := hin (x + 1) y hx (by omega)
  have hthird := hin (x + 1) (y + 1) hx hy
  have hstep : ∀ c e : Ucoord, e ∈ lyt.adjacentCoordinates c →
      ((c.y % 3 + c.x % 3) % 3 + 1) % 3 = (e.y % 3 + e.x % 3) % 3 →
        e ∈ lyt.outgoingClockedZones c := by
    intro c e hadj hnext
    refine mem_outgoingClockedZones_of_ne (fun heq => ?_) hadj ?_
    · rw [heq] at hnext
      omega
    · unfold getClockNumber numClocks
      rw [hclk]
      exact hnext
  intro hfree
  refine hfree _ hthird ((Relation.TransGen.single (hstep _ _ hadj ?_)).tail (hstep _ (.at2 (x + 1) y)
    (mem_adjacentCoordinates_of_cardinal hs hfirst hsecond rfl (.inl ⟨rfl, .inl rfl⟩)) ?_) |>.tail
    (hstep _ _ (mem_adjacentCoordinates_of_cardinal hs hsecond hthird rfl
      (.inr ⟨rfl, .inl rfl⟩)) ?_))
  · simp only [Ucoord.at2]
    omega
  · simp only [Ucoord.at2]
    omega
  · simp only [Ucoord.at2]
    omega

/-- Linear schemes are free of feedback, except that 2DDWave clocking needs four phases on
hexagonal layouts that are not narrow. -/
theorem feedbackFree_iff (h : Predefined lyt.arrangement s) (hl : s.isLinearScheme = true)
    (hclk : lyt.clocking = s.clocking) (hs : lyt.arrangement ≠ .cartesian → lyt.Small) :
    lyt.FeedbackFree ↔ s.Ranked lyt.arrangement ∨ lyt.Narrow := by
  constructor
  · intro hfree
    by_contra hnot
    obtain ⟨hr, hn⟩ := not_or.mp hnot
    obtain ⟨hname, hphases⟩ := Classical.not_imp.mp hr
    obtain ⟨hthree, ha⟩ := not_or.mp hphases
    obtain ⟨n, rfl⟩ := h.eq_twoddwave hname
    cases n with
    | four => exact hthree rfl
    | three => exact not_feedbackFree_of_not_narrow hclk (hs ha) hn hfree
  · intro hor
    have hgrow : ∀ c, lyt.Inside c → ∀ e ∈ lyt.outgoingClockedZones c,
        s.flowRank lyt.arrangement e = s.flowRank lyt.arrangement c + 1 := by
      intro c hc e he
      by_cases hr : s.Ranked lyt.arrangement
      · exact h.flowRank_eq_succ hl hr hclk hs hc he
      · have hname : s.name = .twoddwave := by
          by_contra hname
          exact hr fun hn => absurd hn hname
        refine h.flowRank_eq_succ_of_near hl hclk he ?_
        rw [flowRank, flowRank, hname]
        exact sum_near_of_narrow hs (hor.resolve_left hr) hc (mem_outgoingClockedZones.mp he).1
    refine @feedbackFree_of_rank lyt (s.flowRank lyt.arrangement) fun c hc e he => ?_
    rw [hgrow c hc e he]
    exact Nat.lt_succ_self _

/-- Columnar clocking of a hexagonal layout with two layers. -/
theorem feedbackFree_columnar : FeedbackFree
    ⟨⟨.at3 9 9 1, .oddColumnHex⟩, (columnarClocking .three).clocking⟩ :=
  (@feedbackFree_iff ⟨⟨.at3 9 9 1, .oddColumnHex⟩, _⟩ _ (.columnar .three) (by decide) rfl
    fun _ => ⟨by decide, by decide⟩).mpr (.inl (by decide))

/-- With three phases, four tiles are enough for a cycle. -/
theorem twoddwave_feedback :
    ¬ ∀ (lyt : ClockedLayout) (s : NamedScheme), Predefined lyt.arrangement s →
      s.isLinearScheme = true → lyt.clocking = s.clocking → lyt.FeedbackFree := by
  intro h
  have hfree := h ⟨⟨.at3 1 1 0, .evenRowHex⟩, (twoddwaveClocking .three).clocking⟩ _
    (.twoddwave .three) (by decide) rfl
  refine not_feedbackFree_of_not_narrow rfl ⟨by decide, by decide⟩ ?_ hfree
  unfold Narrow
  decide

end ClockedLayout

end Fiction
