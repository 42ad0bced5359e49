import Fiction.PhysicalDesign.Vias

/-!
# Connectivity of cell-level layouts

Tiles with data flow between them should touch in the middle cells of their common side, by a via
where the layer changes, and distinct edges should not meet in one cell. Whether they do can be told
from the gate-level layout: from the sides that the gates reach, from the gates that the ends of
wires face in the crossing layer and from the tiles at which the edges of a tile end.
-/

namespace Fiction

namespace ApplyGateLibrary

open QcaOneLibrary CellLevelLayout

variable (lyt : GateLevelLayout)

/-- The data flow leads from `a` to `b`. -/
def Edge (a b : Tile) : Prop := lyt.clocked.Inside a ∧ b ∈ lyt.outgoingDataFlow a

/-- The side of `t` at which the adjacent tile `o` lies, in whatever layer. -/
def sideTowards (t o : Tile) : Side :=
  if o.y < t.y then .north else if t.x < o.x then .east else if t.y < o.y then .south else .west

/-- The edge `e` enters or leaves `t`; its other end is `o`. -/
def EndsAt (e : Tile × Tile) (t o : Tile) : Prop := e = (t, o) ∨ e = (o, t)

/-- The cell and the one below it are filled and form a via. -/
structure FormsVia (cellLyt : CellLevelLayout) (c : Cell) : Prop where
  mode : cellLyt.getCellMode c = .vertical
  filled_below : cellLyt.isEmptyCell (groundBelow c) = false
  mode_below : cellLyt.getCellMode (groundBelow c) = .vertical

/-- The border cells of each edge are filled and belong to this edge alone; at the end in the
crossing layer, an edge between layers has a via. -/
structure Connected (cellLyt : CellLevelLayout) : Prop where
  touching : ∀ a b, Edge lyt a b →
    cellLyt.isEmptyCell (borderCell a (sideTowards a b)) = false ∧
      cellLyt.isEmptyCell (borderCell b (sideTowards b a)) = false
  vias : ∀ a b, Edge lyt a b →
    (b.z < a.z → FormsVia cellLyt (borderCell a (sideTowards a b))) ∧
      (a.z < b.z → FormsVia cellLyt (borderCell b (sideTowards b a)))
  separate : ∀ t o o' e e', Edge lyt e.1 e.2 → Edge lyt e'.1 e'.2 → EndsAt e t o →
    EndsAt e' t o' → e ≠ e' → borderCell t (sideTowards t o) ≠ borderCell t (sideTowards t o')

/-- The gate on `t` reaches side `d`, or the gate above it ends there. -/
def covers (t : Tile) (d : Side) : Bool :=
  occupies lyt t d || endsInCrossingLayer lyt (lyt.clocked.above t) d

/-- Each edge is covered at both ends, ends in the crossing layer where it changes the layer, and is
the only one between its positions. -/
structure WellConnected : Prop where
  covered : ∀ a b, Edge lyt a b →
    covers lyt a (sideTowards a b) = true ∧ covers lyt b (sideTowards b a) = true
  ends : ∀ a b, Edge lyt a b →
    (b.z < a.z → endsInCrossingLayer lyt a (sideTowards a b) = true) ∧
      (a.z < b.z → endsInCrossingLayer lyt b (sideTowards b a) = true)
  apart : ∀ t o o' e e', Edge lyt e.1 e.2 → Edge lyt e'.1 e'.2 → EndsAt e t o → EndsAt e' t o' →
    e ≠ e' → (o.x, o.y) ≠ (o'.x, o'.y)

variable {lyt}

section Edges

def NextTo (a b : Tile) : Prop :=
  a.x = b.x ∧ (a.y = b.y + 1 ∨ b.y = a.y + 1) ∨ a.y = b.y ∧ (a.x = b.x + 1 ∨ b.x = a.x + 1)

theorem NextTo.symm {a b : Tile} (h : NextTo a b) : NextTo b a := by
  unfold NextTo at *
  omega

theorem inside_of_mem_layersAround {i s : Tile} (hi : lyt.clocked.Inside i)
    (hs : s ∈ lyt.layersAround i) : lyt.clocked.Inside s ∧ s.x = i.x ∧ s.y = i.y := by
  have hz := hi.z_le
  have hlive := GateLevelLayout.layersAround_live hi hs
  rw [GateLevelLayout.mem_layersAround_iff hi] at hs
  simp only [List.mem_cons, List.not_mem_nil, or_false] at hs
  rcases hs with rfl | rfl | rfl
  · exact ⟨hi, rfl, rfl⟩
  · unfold CoordinateLayout.above at *
    split_ifs with h₁ h₂
    · omega
    · exact ⟨⟨hi.live, hi.x_le, hi.y_le, h₂⟩, rfl, rfl⟩
    · exact ⟨hi, rfl, rfl⟩
  · unfold CoordinateLayout.below at *
    split_ifs with h
    · exact ⟨hi, rfl, rfl⟩
    · exact ⟨⟨hi.live, hi.x_le, hi.y_le, (Nat.sub_le _ _).trans hz⟩, rfl, rfl⟩

theorem Edge.spec (ha : lyt.clocked.arrangement = .cartesian) {a b : Tile} (h : Edge lyt a b) :
    lyt.clocked.Inside a ∧ lyt.clocked.Inside b ∧ NextTo a b := by
  obtain ⟨hin, hb⟩ := h
  obtain ⟨o, ho, hb⟩ := List.mem_flatMap.mp (OrderedSet.mem_of_mem_ofList hb)
  have hadj : o ∈ lyt.clocked.adjacentCoordinates a := (List.mem_filter.mp ho).1
  obtain ⟨hoi, -, hnext⟩ := (CoordinateLayout.mem_adjacentCoordinates_cartesian ha hin).mp hadj
  obtain ⟨hbi, hx, hy⟩ := inside_of_mem_layersAround hoi (List.mem_filter.mp hb).1
  refine ⟨hin, hbi, ?_⟩
  rwa [NextTo, hx, hy]

theorem sideTowards_eq_iff {t o o' : Tile} (h : NextTo t o) (h' : NextTo t o') :
    sideTowards t o = sideTowards t o' ↔ (o.x, o.y) = (o'.x, o'.y) := by
  unfold NextTo at h h'
  unfold sideTowards
  rw [Prod.mk.injEq]
  split_ifs <;> simp only [true_iff, false_iff] <;> omega

theorem EndsAt.nextTo (ha : lyt.clocked.arrangement = .cartesian) {e : Tile × Tile} {t o : Tile}
    (he : Edge lyt e.1 e.2) (h : EndsAt e t o) : NextTo t o := by
  rcases h with rfl | rfl
  · exact (he.spec ha).2.2
  · exact (he.spec ha).2.2.symm

theorem borderCell_injective {t : Tile} {d d' : Side} (h : borderCell t d = borderCell t d') :
    d = d' := by
  simp only [borderCell, cellAt, Cell.mk.injEq] at h
  revert h
  cases d <;> cases d' <;> simp [port]

theorem separate_iff (ha : lyt.clocked.arrangement = .cartesian) :
    (∀ t o o' e e', Edge lyt e.1 e.2 → Edge lyt e'.1 e'.2 → EndsAt e t o → EndsAt e' t o' →
      e ≠ e' → borderCell t (sideTowards t o) ≠ borderCell t (sideTowards t o')) ↔
    ∀ t o o' e e', Edge lyt e.1 e.2 → Edge lyt e'.1 e'.2 → EndsAt e t o → EndsAt e' t o' →
      e ≠ e' → (o.x, o.y) ≠ (o'.x, o'.y) := by
  have hcell : ∀ t o o', NextTo t o → NextTo t o' →
      (borderCell t (sideTowards t o) = borderCell t (sideTowards t o') ↔
        (o.x, o.y) = (o'.x, o'.y)) := by
    intro t o o' ho ho'
    rw [← sideTowards_eq_iff ho ho']
    exact ⟨borderCell_injective, fun h => by rw [h]⟩
  constructor
  · intro h t o o' e e' he he' ht ht' hne hxy
    exact h t o o' e e' he he' ht ht' hne
      ((hcell t o o' (ht.nextTo ha he) (ht'.nextTo ha he')).mpr hxy)
  · intro h t o o' e e' he he' ht ht' hne hb
    exact h t o o' e e' he he' ht ht' hne
      ((hcell t o o' (ht.nextTo ha he) (ht'.nextTo ha he')).mp hb)

theorem neighbour_sideTowards {t o : Tile} (ht : lyt.clocked.Inside t) (ho : lyt.clocked.Inside o)
    (h : NextTo t o) : lyt.clocked.neighbour t (sideTowards t o) = { o with z := t.z } := by
  obtain ⟨dt, zt, yt, xt⟩ := t
  obtain ⟨d, z, y, x⟩ := o
  obtain ⟨hlt, hxt, hyt, -⟩ := ht
  obtain ⟨hlo, hxo, hyo, -⟩ := ho
  have hd : dt = d := Eq.trans hlt hlo.symm
  simp only [NextTo] at h hxt hyt hxo hyo
  unfold sideTowards
  split_ifs with h₁ h₂ h₃ <;> simp only at h₁
  · have hy : ¬ yt = 0 := by omega
    simp only [CoordinateLayout.neighbour, CoordinateLayout.north, hy, if_false, Ucoord.mk.injEq]
    exact ⟨hd, trivial, by omega, by omega⟩
  · simp only at h₂
    have hlt : xt < lyt.clocked.x := by omega
    have hge : ¬ xt > lyt.clocked.x := by omega
    simp only [CoordinateLayout.neighbour, CoordinateLayout.east, hlt, hge, if_false, if_true,
      Ucoord.mk.injEq]
    exact ⟨hd, trivial, by omega, by omega⟩
  · simp only at h₂ h₃
    have hlt : yt < lyt.clocked.y := by omega
    have hge : ¬ yt > lyt.clocked.y := by omega
    simp only [CoordinateLayout.neighbour, CoordinateLayout.south, hlt, hge, if_false, if_true,
      Ucoord.mk.injEq]
    exact ⟨hd, trivial, by omega, by omega⟩
  · simp only at h₂ h₃
    have hx : ¬ xt = 0 := by omega
    simp only [CoordinateLayout.neighbour, CoordinateLayout.west, hx, if_false, Ucoord.mk.injEq]
    exact ⟨hd, trivial, by omega, by omega⟩

theorem eq_neighbour_or {t o : Tile} (hz : lyt.clocked.z ≤ 1) (ht : lyt.clocked.Inside t)
    (ho : lyt.clocked.Inside o) (h : NextTo t o) :
    o = lyt.clocked.neighbour t (sideTowards t o) ∨
      lyt.clocked.above o = lyt.clocked.neighbour t (sideTowards t o) ∨
        CoordinateLayout.below o = lyt.clocked.neighbour t (sideTowards t o) := by
  have htz := ht.z_le
  have hoz := ho.z_le
  rw [neighbour_sideTowards ht ho h]
  obtain ⟨d, z, y, x⟩ := o
  simp only at hoz ⊢
  rcases Nat.lt_trichotomy z t.z with hlt | heq | hgt
  · refine Or.inr (Or.inl ?_)
    unfold CoordinateLayout.above
    rw [if_neg (by simp only; omega), if_pos (by simp only; omega), Ucoord.mk.injEq]
    exact ⟨rfl, by simp only; omega, rfl, rfl⟩
  · exact Or.inl (by rw [heq])
  · refine Or.inr (Or.inr ?_)
    unfold CoordinateLayout.below
    rw [if_neg (by simp only; omega), Ucoord.mk.injEq]
    exact ⟨rfl, by simp only; omega, rfl, rfl⟩

theorem fills_of_hasSignal {t : Tile} {d : Side} (h : lyt.hasSignal t d = true) :
    fills lyt t d = true := by
  unfold fills
  simp only
  split_ifs <;> simp [h]

theorem Edge.covered (hc : lyt.clocked.arrangement = .cartesian) (hz : lyt.clocked.z ≤ 1)
    {a b : Tile} (he : Edge lyt a b) :
    (hostsLiving lyt a = true → covers lyt a (sideTowards a b) = true) ∧
      (hostsLiving lyt b = true → a ∈ lyt.incomingDataFlow b →
        covers lyt b (sideTowards b a) = true) := by
  obtain ⟨hain, hbin, hnext⟩ := he.spec hc
  constructor
  · intro hl
    have hout : lyt.hasOutgoingSignal a (sideTowards a b) = true := by
      rw [GateLevelLayout.hasOutgoingSignal, GateLevelLayout.isOutgoingSignal, List.any_eq_true]
      exact ⟨b, he.2, by simpa [or_assoc] using eq_neighbour_or hz hain hbin hnext⟩
    have hfills : fills lyt a (sideTowards a b) = true :=
      fills_of_hasSignal (by simp [GateLevelLayout.hasSignal, hout])
    simp [covers, occupies, hl, hfills]
  · intro hl hin
    have hinc : lyt.hasIncomingSignal b (sideTowards b a) = true := by
      rw [GateLevelLayout.hasIncomingSignal, GateLevelLayout.isIncomingSignal, List.any_eq_true]
      exact ⟨a, hin, by simpa [or_assoc] using eq_neighbour_or hz hbin hain hnext.symm⟩
    have hfills : fills lyt b (sideTowards b a) = true :=
      fills_of_hasSignal (by simp [GateLevelLayout.hasSignal, hinc])
    simp [covers, occupies, hl, hfills]

end Edges

section Cells

theorem above_eq {t : Tile} (htz : t.z = 0) (hz : lyt.clocked.z = 1) :
    lyt.clocked.above t = { t with z := 1 } := by
  unfold CoordinateLayout.above
  rw [if_neg (by omega), if_pos (by omega), htz]

variable {t : Tile} (ha : Assignable lyt) (hz : lyt.clocked.z ≤ 1) (ht : lyt.clocked.Inside t)
  (d : Side)
include ht

theorem borderCell_mem : borderCell t d ∈ (gatesAssigned lyt).foreachCellPosition := by
  obtain ⟨-, hx, hy, hz⟩ := ht
  obtain ⟨hpx, hpy⟩ := port_lt d
  rw [mem_foreachCellPosition, aspectRatio_gatesAssigned]
  simp only [borderCell, cellAt, gateSizeX, gateSizeY, Int.toNat_natCast] at *
  exact ⟨by omega, by omega, by omega, by omega⟩

theorem inside_above : lyt.clocked.Inside (lyt.clocked.above t) := by
  obtain ⟨hl, hx, hy, htz⟩ := ht
  unfold CoordinateLayout.above
  split_ifs with h₁ h₂
  · omega
  · exact ⟨hl, hx, hy, h₂⟩
  · exact ⟨hl, hx, hy, htz⟩

include ha

theorem formsVia_borderCell (htz : 0 < t.z) :
    FormsVia (postLayoutOptimization (gatesAssigned lyt)) (borderCell t d) ↔
      endsInCrossingLayer lyt t d = true := by
  rw [← isVia_borderCell ha ht]
  constructor
  · intro h
    rcases cellMode_postLayoutOptimization.mp h.mode with hmode | ⟨v, -, hvia, hc | hc⟩
    · rw [gatesAssigned_frame.2] at hmode
      contradiction
    · rwa [hc]
    · have hground := congrArg Cell.z hc
      simp only [borderCell, cellAt, groundBelow] at hground
      omega
  · intro hvia
    have hmem := borderCell_mem ht d
    refine ⟨cellMode_postLayoutOptimization.mpr (Or.inr ⟨_, hmem, hvia, Or.inl rfl⟩), ?_, ?_⟩
    · exact isEmptyCell_postLayoutOptimization.mpr (Or.inr ⟨_, hmem, hvia, rfl⟩)
    · exact cellMode_postLayoutOptimization.mpr (Or.inr ⟨_, hmem, hvia, Or.inr rfl⟩)

include hz

theorem isEmptyCell_borderCell_post :
    (postLayoutOptimization (gatesAssigned lyt)).isEmptyCell (borderCell t d) = false ↔
      covers lyt t d = true := by
  rw [isEmptyCell_postLayoutOptimization, isEmptyCell_borderCell ha ht.live, covers, Bool.or_eq_true,
    Bool.not_eq_false']
  apply or_congr_right'
  intro hno
  constructor
  · rintro ⟨v, hv, hvia, hc⟩
    have hvz : 0 < v.z := by
      simp only [isVia, isCrossingLayer, Bool.and_eq_true, decide_eq_true_eq] at hvia
      exact hvia.1.1
    have hvz' : v.z.toNat ≤ lyt.clocked.z := by
      have h := (mem_foreachCellPosition.mp hv).2.2.2
      rwa [aspectRatio_gatesAssigned, Int.toNat_natCast] at h
    have htz : t.z = 0 := by
      have h := congrArg Cell.z hc
      simpa [borderCell, cellAt, groundBelow] using h
    have habove : lyt.clocked.above t = { t with z := 1 } := above_eq htz (by omega)
    have hveq : v = borderCell (lyt.clocked.above t) d := by
      obtain ⟨vx, vy, vz⟩ := v
      simp only [borderCell, cellAt, groundBelow, Cell.mk.injEq] at hc
      simp only [habove, borderCell, cellAt, Cell.mk.injEq]
      simp only at hvz hvz'
      exact ⟨hc.1.symm, hc.2.1.symm, by omega⟩
    rw [← isVia_borderCell ha (inside_above ht), ← hveq]
    exact hvia
  · intro hends
    have hup : 0 < (lyt.clocked.above t).z := by
      simp only [endsInCrossingLayer, Bool.and_eq_true, decide_eq_true_eq] at hends
      exact hends.1.1
    have htz : t.z = 0 := by
      by_contra hpos
      have hle := ht.z_le
      have hself : lyt.clocked.above t = t := by
        unfold CoordinateLayout.above
        rw [if_neg (by omega), if_neg (by omega)]
      rw [hself, endsInCrossingLayer] at hends
      simp only [Bool.and_eq_true] at hends
      exact hno hends.1.2
    have hlz : lyt.clocked.z = 1 := by
      unfold CoordinateLayout.above at hup
      split_ifs at hup
      · omega
      · omega
      · omega
    have habove : lyt.clocked.above t = { t with z := 1 } := above_eq htz hlz
    refine ⟨borderCell (lyt.clocked.above t) d, borderCell_mem (inside_above ht) d, ?_, ?_⟩
    · rw [isVia_borderCell ha (inside_above ht), hends]
    · simp [habove, borderCell, cellAt, groundBelow, htz]

end Cells

theorem Assignable.connected_iff (ha : Assignable lyt) (hz : lyt.clocked.z ≤ 1)
    (hc : lyt.clocked.arrangement = .cartesian) :
    Connected lyt (postLayoutOptimization (gatesAssigned lyt)) ↔ WellConnected lyt := by
  constructor
  · intro h
    refine ⟨?_, ?_, (separate_iff hc).mp h.separate⟩
    · intro a b he
      obtain ⟨hain, hbin, -⟩ := he.spec hc
      exact ⟨(isEmptyCell_borderCell_post ha hz hain _).mp (h.touching a b he).1,
        (isEmptyCell_borderCell_post ha hz hbin _).mp (h.touching a b he).2⟩
    · intro a b he
      obtain ⟨hain, hbin, -⟩ := he.spec hc
      exact ⟨fun hlt => (formsVia_borderCell ha hain _ (by omega)).mp ((h.vias a b he).1 hlt),
        fun hlt => (formsVia_borderCell ha hbin _ (by omega)).mp ((h.vias a b he).2 hlt)⟩
  · intro h
    refine ⟨?_, ?_, (separate_iff hc).mpr h.apart⟩
    · intro a b he
      obtain ⟨hain, hbin, -⟩ := he.spec hc
      exact ⟨(isEmptyCell_borderCell_post ha hz hain _).mpr (h.covered a b he).1,
        (isEmptyCell_borderCell_post ha hz hbin _).mpr (h.covered a b he).2⟩
    · intro a b he
      obtain ⟨hain, hbin, -⟩ := he.spec hc
      exact ⟨fun hlt => (formsVia_borderCell ha hain _ (by omega)).mpr ((h.ends a b he).1 hlt),
        fun hlt => (formsVia_borderCell ha hbin _ (by omega)).mpr ((h.ends a b he).2 hlt)⟩

theorem assignable_of_drvs_eq_zero {clocked : ClockedLayout} {name : String}
    {ops : List GateLevelLayout.Op} (h : (GateLevelLayout.system clocked name).Legal ops)
    {clocked' : ClockedLayout} {cellLyt : CellLevelLayout} :
    let lyt : GateLevelLayout :=
      { (GateLevelLayout.system clocked name).run ops with clocked := clocked' }
    (lyt.gateLevelDrvs {}).drvs = 0 → applyGateLibrary lyt = .ok cellLyt → Assignable lyt := by
  intro lyt hd hok
  have hi : lyt.MapsInv := (GateLevelLayout.run_placementInv h).toMapsInv.reclock clocked'
  have hc : lyt.ConstantsInv :=
    ⟨(GateLevelLayout.run_constantsInv h).children, (GateLevelLayout.run_constantsInv h).inputs⟩
  have hmiss := (GateLevelLayout.checks_of_drvs_eq_zero hd).2.1
  exact ⟨hi, fun n hn => GateLevelLayout.isPlaced_of_missingConnectionsCheck hi hc hmiss hn,
    (applyGateLibrary_eq_ok hok).2⟩

theorem connected_layoutName (cellLyt : CellLevelLayout) (name : List Char) :
    Connected lyt { cellLyt with layoutName := name } ↔ Connected lyt cellLyt := by
  have hvia : ∀ c, FormsVia { cellLyt with layoutName := name } c ↔ FormsVia cellLyt c :=
    fun c => ⟨fun h => ⟨h.mode, h.filled_below, h.mode_below⟩,
      fun h => ⟨h.mode, h.filled_below, h.mode_below⟩⟩
  constructor
  · intro h
    refine ⟨h.touching, ?_, h.separate⟩
    simpa only [hvia] using h.vias
  · intro h
    refine ⟨h.touching, ?_, h.separate⟩
    simpa only [hvia] using h.vias

theorem Assignable.connected_applyGateLibrary_iff (ha : Assignable lyt) (hz : lyt.clocked.z ≤ 1)
    (hc : lyt.clocked.arrangement = .cartesian) {cellLyt : CellLevelLayout}
    (hok : applyGateLibrary lyt = .ok cellLyt) : Connected lyt cellLyt ↔ WellConnected lyt := by
  rw [(applyGateLibrary_eq_ok hok).1, connected_layoutName, ha.connected_iff hz hc]

/-- The cell-level layout of a Cartesian layout without violations connects the tiles of each
data-flow edge if and only if the gates say so. -/
theorem connected_iff_wellConnected {clocked : ClockedLayout} {name : String}
    {ops : List GateLevelLayout.Op} (h : (GateLevelLayout.system clocked name).Legal ops)
    {clocked' : ClockedLayout} (hc : clocked'.arrangement = .cartesian) (hz : clocked'.z ≤ 1) :
    let lyt : GateLevelLayout :=
      { (GateLevelLayout.system clocked name).run ops with clocked := clocked' }
    (lyt.gateLevelDrvs {}).drvs = 0 → ∀ cellLyt, applyGateLibrary lyt = .ok cellLyt →
      (Connected lyt cellLyt ↔ WellConnected lyt) := by
  intro lyt hd cellLyt hok
  exact (assignable_of_drvs_eq_zero h hd hok).connected_applyGateLibrary_iff hz hc hok

section Examples

/-- Four columns and three rows with a crossing layer. -/
def swapGrid : ClockedLayout := ⟨⟨.at3 3 2 1, .cartesian⟩, .twoddwaveClocking 4⟩

/-- Two parallel wires that exchange their layers between the same two tiles. -/
def layerSwap : List GateLevelLayout.Op :=
  [.createPi "" (.at2 0 1), .createPi "" (.at2 1 0),
    .createNode [.at2 0 1] .identity (.at2 1 1), .createNode [.at2 1 0] .identity (.at3 1 1 1),
    .createNode [.at3 1 1 1] .identity (.at2 2 1), .createNode [.at2 1 1] .identity (.at3 2 1 1),
    .createPo (.at2 2 1) "" (.at2 3 1), .createPo (.at3 2 1 1) "" (.at2 2 2)]

def layerSwapLayout : GateLevelLayout :=
  { (GateLevelLayout.system swapGrid "").run layerSwap with clocked := swapGrid }

theorem legal_layerSwap : (GateLevelLayout.system swapGrid "").Legal layerSwap := by
  decide +kernel

theorem layerSwapLayout_accepted : (layerSwapLayout.gateLevelDrvs {}).drvs = 0 ∧
    ∃ cellLyt, applyGateLibrary layerSwapLayout = .ok cellLyt := by
  have hok : (applyGateLibrary layerSwapLayout).toOption.isSome = true := by decide +kernel
  refine ⟨by decide +kernel, ?_⟩
  cases h : applyGateLibrary layerSwapLayout with
  | error e =>
    rw [h] at hok
    contradiction
  | ok cellLyt => exact ⟨cellLyt, rfl⟩

/-- The wire on tile `(1, 1)` of the crossing layer goes down to `(2, 1)`, but it faces the other
wire, so that its end becomes no via. -/
theorem layerSwap_not_connected :
    (GateLevelLayout.system swapGrid "").Legal layerSwap ∧
      (layerSwapLayout.gateLevelDrvs {}).drvs = 0 ∧
        ∃ cellLyt, applyGateLibrary layerSwapLayout = .ok cellLyt ∧
          ¬ Connected layerSwapLayout cellLyt := by
  obtain ⟨hd, cellLyt, hok⟩ := layerSwapLayout_accepted
  refine ⟨legal_layerSwap, hd, cellLyt, hok, fun hcon => ?_⟩
  have ha : Assignable layerSwapLayout := assignable_of_drvs_eq_zero legal_layerSwap hd hok
  have hwell := (ha.connected_applyGateLibrary_iff (by decide) rfl hok).mp hcon
  have hedge : Edge layerSwapLayout (.at3 1 1 1) (.at2 2 1) :=
    ⟨⟨rfl, by decide, by decide, by decide⟩, by decide +kernel⟩
  have hend := (hwell.ends _ _ hedge).1 (by decide)
  revert hend
  decide +kernel

theorem connected_iff_wellConnected_layerSwap :
    (GateLevelLayout.system swapGrid "").Legal layerSwap ∧
      swapGrid.arrangement = .cartesian ∧ swapGrid.z ≤ 1 ∧
        (layerSwapLayout.gateLevelDrvs {}).drvs = 0 ∧
          ∃ cellLyt, applyGateLibrary layerSwapLayout = .ok cellLyt ∧
            (Connected layerSwapLayout cellLyt ↔ WellConnected layerSwapLayout) := by
  obtain ⟨hd, cellLyt, hok⟩ := layerSwapLayout_accepted
  exact ⟨legal_layerSwap, rfl, by decide, hd, cellLyt, hok,
    connected_iff_wellConnected legal_layerSwap rfl (by decide) hd cellLyt hok⟩

end Examples

end ApplyGateLibrary
end Fiction
