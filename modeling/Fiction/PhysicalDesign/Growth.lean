import Fiction.PhysicalDesign.IncrementalSolver

/-!
# Constraints of smaller layouts

A model of the instance from scratch satisfies everything that any check point of a smaller layout
generates, as long as the literals of the borders that have moved since are off. Restrictions of
tiles with too few neighbours are the exception: the instance from scratch does not state them for
tiles away from the eastern and the southern border, so they have to follow from the others.
-/

namespace Fiction.Exact

/-- The check point of a solver that has not been used before. -/
def freshCheckPoint (ar : AspectRatio) : CheckPoint := ⟨ar, allTiles ar, []⟩

/-- `v` satisfies what a fresh solver receives for `ar`. -/
structure FreshModel (S : SpecificationNetwork) (p : ExactParams) (ar : AspectRatio)
    (v : Assignment) : Prop where
  generated : Generated S p (freshCheckPoint ar) v true true
  assumed : Assumed S p (freshCheckPoint ar) v

/-- What models from scratch share with models of a reused solver. -/
structure CoreModel (S : SpecificationNetwork) (p : ExactParams) (ar : AspectRatio)
    (v : Assignment) : Prop where
  generated : Generated S p (freshCheckPoint ar) v true true
  preventInsufficiencies : preventInsufficiencies S p (freshCheckPoint ar) v .assumptions

theorem FreshModel.core {S : SpecificationNetwork} {p : ExactParams} {ar : AspectRatio}
    {v : Assignment} (h : FreshModel S p ar v) : CoreModel S p ar v :=
  ⟨h.generated, h.assumed.preventInsufficiencies⟩

/-- Away from the eastern and the southern border, nothing is assigned to tiles that lack
neighbours. -/
structure Sufficient (S : SpecificationNetwork) (p : ExactParams) (ar : AspectRatio)
    (v : Assignment) : Prop where
  node : ∀ t ∈ allTiles ar, t.x ≠ ar.x → t.y ≠ ar.y → ∀ n ∈ placedNodes S p,
    insufficient S p (freshCheckPoint ar) t n → v.tn t n = false
  edge : p.isRegularlyClocked → ∀ t ∈ allTiles ar, t.x ≠ ar.x → t.y ≠ ar.y →
    ∀ ed ∈ placedEdges S p, ((p.layout ar).outgoingClockedZones t).length = 0 ∨
      ((p.layout ar).incomingClockedZones t).length = 0 → v.te t ed = false

/-- The check point belongs to a layout that is not larger than `ar`. -/
structure Within (cp : CheckPoint) (ar : AspectRatio) : Prop where
  x_le : cp.ar.x ≤ ar.x
  y_le : cp.ar.y ≤ ar.y
  added : ∀ t ∈ cp.addedTiles, t ∈ allTiles cp.ar
  updated : ∀ t ∈ cp.updatedTiles, t ∈ allTiles cp.ar

section Growth

variable {S : SpecificationNetwork} {p : ExactParams} {ar : AspectRatio} {v : Assignment}
  {cp : CheckPoint} {e s : Bool} {t : Tile}

theorem Within.mem_addedAndUpdatedTiles (h : Within cp ar) (ht : t ∈ addedAndUpdatedTiles cp) :
    t ∈ allTiles cp.ar :=
  (List.mem_append.mp ht).elim (h.added t) (h.updated t)

theorem Within.grows (h : Within cp ar) :
    CoordinateLayout.Grows (layout p cp).toCoordinateLayout (p.layout ar).toCoordinateLayout :=
  ⟨rfl, rfl, h.x_le, h.y_le⟩

theorem mem_allTiles : t ∈ allTiles ar ↔ t = .at2 t.x t.y ∧ t.x ≤ ar.x ∧ t.y ≤ ar.y :=
  @CoordinateLayout.mem_foreachGroundTile ⟨.at3 ar.x ar.y 0, .cartesian⟩ t

theorem inside_of_mem_allTiles (p : ExactParams) (ht : t ∈ allTiles ar) : (p.layout ar).Inside t :=
  CoordinateLayout.inside_of_mem_foreachGroundTile ht

theorem mem_allTiles_of_mem_adjacentCoordinates {u : Tile} (ht : t ∈ allTiles ar)
    (hu : u ∈ (p.layout ar).adjacentCoordinates t) : u ∈ allTiles ar := by
  obtain ⟨hin, hz⟩ :=
    CoordinateLayout.adjacentCoordinates_inside (inside_of_mem_allTiles p ht) hu
  refine CoordinateLayout.mem_foreachGroundTile_of_inside hin (hz.trans ?_)
  rw [(Exact.mem_allTiles.mp ht).1]
  rfl

theorem mem_allTiles_of_mem_outgoingClockedZones {u : Tile} (ht : t ∈ allTiles ar)
    (hu : u ∈ (p.layout ar).outgoingClockedZones t) : u ∈ allTiles ar :=
  mem_allTiles_of_mem_adjacentCoordinates ht (ClockedLayout.mem_outgoingClockedZones.mp hu).1

theorem mem_allTiles_of_mem_incomingClockedZones {u : Tile} (ht : t ∈ allTiles ar)
    (hu : u ∈ (p.layout ar).incomingClockedZones t) : u ∈ allTiles ar :=
  mem_allTiles_of_mem_adjacentCoordinates ht (List.mem_filter.mp hu).1

theorem Within.mem_allTiles (h : Within cp ar) (ht : t ∈ allTiles cp.ar) : t ∈ allTiles ar := by
  obtain ⟨heq, hx, hy⟩ := Exact.mem_allTiles.mp ht
  exact Exact.mem_allTiles.mpr ⟨heq, hx.trans h.x_le, hy.trans h.y_le⟩

theorem Within.settled (h : Within cp ar) (he : t.x = cp.ar.x → ar.x = cp.ar.x)
    (hs : t.y = cp.ar.y → ar.y = cp.ar.y) :
    CoordinateLayout.Settled (layout p cp).toCoordinateLayout (p.layout ar).toCoordinateLayout t :=
  ⟨h.grows, he, hs⟩

/-- What the literals say about the borders. -/
structure Tracks (cp : CheckPoint) (ar : AspectRatio) (e s : Bool) : Prop where
  east : e = true → ar.x = cp.ar.x
  south : s = true → ar.y = cp.ar.y

theorem Tracks.ar_eq (h : Tracks cp ar e s) (he : e = true ∧ s = true) : cp.ar = ar :=
  AspectRatio.ext (h.east he.1).symm (h.south he.2).symm

/-- A tracked constraint only needs to hold for tiles that lie at no border that moved. -/
theorem Within.mkAsIfSe (h : Within cp ar) (hl : Tracks cp ar e s) {C : Prop}
    (hC : CoordinateLayout.Settled (layout p cp).toCoordinateLayout
      (p.layout ar).toCoordinateLayout t → C) : mkAsIfSe p cp e s t C := fun he hs =>
  hC (h.settled (fun hx => hl.east (he (decide_eq_true hx)))
    fun hy => hl.south (hs (decide_eq_true hy)))

theorem of_mkAsIfSe_true {C : Prop} (h : mkAsIfSe p (freshCheckPoint ar) true true t C) : C :=
  h (fun _ => rfl) fun _ => rfl

theorem addedAndUpdatedTiles_fresh : addedAndUpdatedTiles (freshCheckPoint ar) = allTiles ar :=
  List.append_nil _

section Settled

variable (hw : Within cp ar) (hS : (p.layout ar).Small) (ht : t ∈ allTiles cp.ar)
  (hset : CoordinateLayout.Settled (layout p cp).toCoordinateLayout
    (p.layout ar).toCoordinateLayout t)

include hS ht hset

theorem fanoutTiles_eq_of_settled :
    fanoutTiles p (freshCheckPoint ar) t = fanoutTiles p cp t := by
  have hin : (layout p cp).Inside t := inside_of_mem_allTiles p ht
  unfold fanoutTiles
  split_ifs
  · exact ClockedLayout.outgoingClockedZones_eq_of_settled rfl hset hS hin
  · exact hset.adjacentCoordinates_eq hS hin

theorem faninTiles_eq_of_settled :
    faninTiles p (freshCheckPoint ar) t = faninTiles p cp t := by
  have hin : (layout p cp).Inside t := inside_of_mem_allTiles p ht
  unfold faninTiles
  split_ifs
  · exact ClockedLayout.incomingClockedZones_eq_of_settled rfl hset hS hin
  · exact hset.adjacentCoordinates_eq hS hin

theorem insufficient_iff_of_settled (n : ℕ) :
    insufficient S p (freshCheckPoint ar) t n ↔ insufficient S p cp t n := by
  have hin : (layout p cp).Inside t := inside_of_mem_allTiles p ht
  have ho : (layout p (freshCheckPoint ar)).outgoingClockedZones t =
      (layout p cp).outgoingClockedZones t :=
    ClockedLayout.outgoingClockedZones_eq_of_settled rfl hset hS hin
  have hi : (layout p (freshCheckPoint ar)).incomingClockedZones t =
      (layout p cp).incomingClockedZones t :=
    ClockedLayout.incomingClockedZones_eq_of_settled rfl hset hS hin
  have ha : (layout p (freshCheckPoint ar)).adjacentCoordinates t =
      (layout p cp).adjacentCoordinates t := hset.adjacentCoordinates_eq hS hin
  unfold insufficient
  rw [ho, hi, ha]

end Settled

section Generators

variable (hw : Within cp ar) (hl : Tracks cp ar e s) (hS : (p.layout ar).Small)

include hw

theorem Within.restrictTileElements (h : restrictTileElements S p (freshCheckPoint ar) v) :
    restrictTileElements S p cp v := fun t ht => h t (hw.mem_allTiles (hw.added t ht))

theorem Within.count_le (f : Tile → Bool) :
    ((layout p cp).foreachGroundTile.map f).count true ≤
      ((layout p (freshCheckPoint ar)).foreachGroundTile.map f).count true := by
  have hsub : (layout p cp).foreachGroundTile.Subperm
      (layout p (freshCheckPoint ar)).foreachGroundTile :=
    List.subperm_of_subset CoordinateLayout.foreachGroundTile_nodup fun t ht => hw.mem_allTiles ht
  rw [List.count_eq_countP, List.count_eq_countP, List.countP_map, List.countP_map]
  exact hsub.countP_le _

theorem Within.restrictVertices (hl : Tracks cp ar e s)
    (h : restrictVertices S p (freshCheckPoint ar) v true true) :
    restrictVertices S p cp v e s := fun n hn => by
  refine ⟨fun he => ?_, (hw.count_le _).trans (h n hn).2⟩
  have har := hl.ar_eq he
  subst har
  exact (h n hn).1 ⟨rfl, rfl⟩

theorem Within.restrictClocks (h : restrictClocks p (freshCheckPoint ar) v) :
    restrictClocks p cp v := fun t ht => h t (hw.mem_allTiles (hw.added t ht))

include hS

theorem Within.defineGateFanoutTiles (hl : Tracks cp ar e s)
    (h : defineGateFanoutTiles S p (freshCheckPoint ar) v true true) :
    defineGateFanoutTiles S p cp v e s := fun t ht n hn => hw.mkAsIfSe hl fun hset => by
  have ht' := hw.mem_addedAndUpdatedTiles ht
  have hfresh := of_mkAsIfSe_true (h t (addedAndUpdatedTiles_fresh ▸ hw.mem_allTiles ht') n hn)
  rwa [fanoutTiles_eq_of_settled hS ht' hset] at hfresh

theorem Within.defineGateFaninTiles (hl : Tracks cp ar e s)
    (h : defineGateFaninTiles S p (freshCheckPoint ar) v true true) :
    defineGateFaninTiles S p cp v e s := fun t ht n hn => hw.mkAsIfSe hl fun hset => by
  have ht' := hw.mem_addedAndUpdatedTiles ht
  have hfresh := of_mkAsIfSe_true (h t (addedAndUpdatedTiles_fresh ▸ hw.mem_allTiles ht') n hn)
  rwa [faninTiles_eq_of_settled hS ht' hset] at hfresh

theorem Within.defineWireFanoutTiles (hl : Tracks cp ar e s)
    (h : defineWireFanoutTiles S p (freshCheckPoint ar) v true true) :
    defineWireFanoutTiles S p cp v e s := fun t ht ed hed => hw.mkAsIfSe hl fun hset => by
  have ht' := hw.mem_addedAndUpdatedTiles ht
  have hfresh := of_mkAsIfSe_true (h t (addedAndUpdatedTiles_fresh ▸ hw.mem_allTiles ht') ed hed)
  rwa [fanoutTiles_eq_of_settled hS ht' hset] at hfresh

theorem Within.defineWireFaninTiles (hl : Tracks cp ar e s)
    (h : defineWireFaninTiles S p (freshCheckPoint ar) v true true) :
    defineWireFaninTiles S p cp v e s := fun t ht ed hed => hw.mkAsIfSe hl fun hset => by
  have ht' := hw.mem_addedAndUpdatedTiles ht
  have hfresh := of_mkAsIfSe_true (h t (addedAndUpdatedTiles_fresh ▸ hw.mem_allTiles ht') ed hed)
  rwa [faninTiles_eq_of_settled hS ht' hset] at hfresh

omit hS in
theorem Within.mem_outgoingClockedZones {at' : Tile} (ht : t ∈ allTiles cp.ar)
    (hat : at' ∈ (layout p cp).outgoingClockedZones t) :
    at' ∈ (layout p (freshCheckPoint ar)).outgoingClockedZones t :=
  ClockedLayout.mem_outgoingClockedZones_of_grows (by rfl) hw.grows
    (inside_of_mem_allTiles p ht) hat

omit hS in
theorem Within.mem_fanoutTiles {at' : Tile} (ht : t ∈ allTiles cp.ar)
    (hat : at' ∈ fanoutTiles p cp t) : at' ∈ fanoutTiles p (freshCheckPoint ar) t := by
  unfold fanoutTiles at hat ⊢
  split_ifs at hat ⊢
  · exact hw.mem_outgoingClockedZones ht hat
  · exact hw.grows.mem_adjacentCoordinates (inside_of_mem_allTiles p ht) hat

omit hS in
theorem Within.establishSubPaths (h : establishSubPaths p (freshCheckPoint ar) v) :
    establishSubPaths p cp v := fun t ht at' hat _ =>
  h t (hw.mem_allTiles ht) at' (hw.mem_fanoutTiles ht hat) (.inl (hw.mem_allTiles ht))

omit hS in
theorem Within.establishTransitivePaths (h : establishTransitivePaths p (freshCheckPoint ar) v) :
    establishTransitivePaths p cp v := fun t1 h1 t2 h2 hne t3 h3 hne' _ =>
  h t1 (hw.mem_allTiles h1) t2 (hw.mem_allTiles h2) hne t3 (hw.mem_allTiles h3) hne'
    (.inl (hw.mem_allTiles h1))

omit hS in
theorem Within.eliminateCycles (h : eliminateCycles (freshCheckPoint ar) v) :
    eliminateCycles cp v := fun t ht => h t (hw.mem_allTiles (hw.added t ht))

omit hS in
theorem Within.assignClocking {n : ℕ} (h : assignClocking p (freshCheckPoint ar) v n) :
    assignClocking p cp v n := fun t ht => h t (hw.mem_allTiles (hw.added t ht))

omit hS in
theorem Within.assignPiClockings (h : assignPiClockings S p (freshCheckPoint ar) v) :
    assignPiClockings S p cp v := fun hb => by
  refine ⟨(h hb).1, ?_⟩
  have h₂ := (h hb).2
  split_ifs at h₂ ⊢
  · exact fun pi hpi => hw.assignClocking (h₂ pi hpi)
  · exact fun pi hpi fn hfn hk => hw.assignClocking (h₂ pi hpi fn hfn hk)

omit hS in
theorem Within.restrict2ddwaveEntryTiles {n : ℕ}
    (h : restrict2ddwaveEntryTiles p (freshCheckPoint ar) v n) :
    restrict2ddwaveEntryTiles p cp v n := fun t ht => h t (hw.mem_allTiles (hw.added t ht))

omit hS hw in
theorem Tracks.defineLength (hl : Tracks cp ar e s) {n : ℕ}
    (h : defineLength S p (freshCheckPoint ar) v true true n) : defineLength S p cp v e s n :=
  fun he => by
    have har := hl.ar_eq he
    subst har
    exact h ⟨rfl, rfl⟩

omit hS in
theorem Within.globalSynchronization (hl : Tracks cp ar e s)
    (h : globalSynchronization S p (freshCheckPoint ar) v true true) :
    globalSynchronization S p cp v e s := by
  unfold Exact.globalSynchronization at h ⊢
  split_ifs at h ⊢
  · exact fun pi hpi => hw.restrict2ddwaveEntryTiles (h pi hpi)
  · exact fun pi hpi fn hfn => hw.restrict2ddwaveEntryTiles (h pi hpi fn hfn)
  · exact fun po hpo => hl.defineLength (h po hpo)
  · exact fun po hpo fi hfi => hl.defineLength (h po hpo fi hfi)

omit hS in
theorem Within.assignBorder {n : ℕ} (h : assignBorder p (freshCheckPoint ar) v n) :
    assignBorder p cp v n := fun t ht hb => by
  have ht' := hw.mem_addedAndUpdatedTiles ht
  refine h t (addedAndUpdatedTiles_fresh ▸ hw.mem_allTiles ht') ?_
  obtain ⟨-, hx, hy⟩ := Exact.mem_allTiles.mp ht'
  have hxle := hw.x_le
  have hyle := hw.y_le
  have hb' : ¬(t.y = 0 ∨ t.x = cp.ar.x ∨ t.y = cp.ar.y ∨ t.x = 0) := of_decide_eq_false hb
  exact decide_eq_false (show ¬(t.y = 0 ∨ t.x = ar.x ∨ t.y = ar.y ∨ t.x = 0) by omega)

omit hS in
theorem Within.assignNorth {n : ℕ} (h : assignNorth (freshCheckPoint ar) v n) :
    assignNorth cp v n := fun t ht => h t (hw.mem_allTiles (hw.added t ht))

omit hS in
theorem Within.assignWest {n : ℕ} (h : assignWest (freshCheckPoint ar) v n) :
    assignWest cp v n := fun t ht => h t (hw.mem_allTiles (hw.added t ht))

omit hS in
theorem Within.assignEast {n : ℕ} (h : assignEast p (freshCheckPoint ar) v n) :
    assignEast p cp v n := fun t ht hb => by
  have ht' := hw.mem_addedAndUpdatedTiles ht
  refine h t (addedAndUpdatedTiles_fresh ▸ hw.mem_allTiles ht') ?_
  obtain ⟨-, hx, -⟩ := Exact.mem_allTiles.mp ht'
  have hxle := hw.x_le
  have hb' : ¬ t.x = cp.ar.x := of_decide_eq_false hb
  exact decide_eq_false (show ¬ t.x = ar.x by omega)

omit hS in
theorem Within.assignSouth {n : ℕ} (h : assignSouth p (freshCheckPoint ar) v n) :
    assignSouth p cp v n := fun t ht hb => by
  have ht' := hw.mem_addedAndUpdatedTiles ht
  refine h t (addedAndUpdatedTiles_fresh ▸ hw.mem_allTiles ht') ?_
  obtain ⟨-, -, hy⟩ := Exact.mem_allTiles.mp ht'
  have hyle := hw.y_le
  have hb' : ¬ t.y = cp.ar.y := of_decide_eq_false hb
  exact decide_eq_false (show ¬ t.y = ar.y by omega)

omit hS in
theorem Within.assignInputBorder {n : ℕ} (h : assignInputBorder p (freshCheckPoint ar) v n) :
    assignInputBorder p cp v n := by
  unfold Exact.assignInputBorder at h ⊢
  split_ifs at h ⊢
  · exact hw.assignWest h
  · exact hw.assignNorth h
  · exact hw.assignBorder h

omit hS in
theorem Within.assignOutputBorder {n : ℕ} (h : assignOutputBorder p (freshCheckPoint ar) v n) :
    assignOutputBorder p cp v n := by
  unfold Exact.assignOutputBorder at h ⊢
  split_ifs at h ⊢
  · exact hw.assignEast h
  · exact hw.assignSouth h
  · exact hw.assignBorder h

omit hS in
theorem Within.enforceBorderIo (h : enforceBorderIo S p (freshCheckPoint ar) v) :
    enforceBorderIo S p cp v := by
  unfold Exact.enforceBorderIo at h ⊢
  split_ifs at h ⊢
  · exact ⟨fun pi hpi => hw.assignInputBorder (h.1 pi hpi),
      fun po hpo => hw.assignOutputBorder (h.2 po hpo)⟩
  · exact ⟨fun pi hpi fon hfon hk => hw.assignInputBorder (h.1 pi hpi fon hfon hk),
      fun po hpo fin hfin hk => hw.assignOutputBorder (h.2 po hpo fin hfin hk)⟩

theorem Within.enforceStraightInverters (hl : Tracks cp ar e s)
    (h : enforceStraightInverters S p (freshCheckPoint ar) v true true) :
    enforceStraightInverters S p cp v e s := fun t ht inv hinv hi hk =>
  hw.mkAsIfSe hl fun hset => by
    have ht' := hw.mem_addedAndUpdatedTiles ht
    have hfresh := of_mkAsIfSe_true
      (h t (addedAndUpdatedTiles_fresh ▸ hw.mem_allTiles ht') inv hinv hi hk)
    have hopp : (layout p (freshCheckPoint ar)).adjacentOppositeCoordinates t =
        (layout p cp).adjacentOppositeCoordinates t :=
      hset.adjacentOppositeCoordinates_eq hS (inside_of_mem_allTiles p ht')
    rwa [hopp] at hfresh

omit hS in
theorem Within.restrictSynchronizationElements
    (h : restrictSynchronizationElements S p (freshCheckPoint ar) v) :
    restrictSynchronizationElements S p cp v :=
  fun hp t ht => h hp t (hw.mem_allTiles (hw.added t ht))

omit hS in
theorem Within.prohibitSucceeding {n1 n2 : ℕ}
    (h : prohibitSucceeding p (freshCheckPoint ar) v n1 n2) : prohibitSucceeding p cp v n1 n2 :=
  fun t ht at' hat hadd => h t (hw.mem_allTiles ht) at' (hw.mem_outgoingClockedZones ht hat)
    (hw.mem_allTiles (hw.added at' hadd))

theorem Within.restrictFanout {fon : ℕ} (h : restrictFanout S p (freshCheckPoint ar) v fon) :
    restrictFanout S p cp v fon := by
  refine ⟨fun afon ha hf => hw.prohibitSucceeding (h.1 afon ha hf), fun hd t ht => ?_⟩
  have hfresh := h.2 hd t (hw.mem_allTiles (hw.added t ht))
  have hnw : (layout p (freshCheckPoint ar)).northWest t = (layout p cp).northWest t :=
    (hw.grows (p := p)).northWest_eq hS (inside_of_mem_allTiles p (hw.added t ht))
  rwa [hnw] at hfresh

omit hS in
theorem Within.restrictGate {n1 : ℕ} (h : restrictGate S p (freshCheckPoint ar) v n1) :
    restrictGate S p cp v n1 := by
  refine ⟨fun n2 hn2 hc => hw.prohibitSucceeding (h.1 n2 hn2 hc), fun t ht => ?_⟩
  have hin : (layout p cp).Inside t := inside_of_mem_allTiles p ht
  obtain ⟨h₁, h₂⟩ := h.2 t (hw.mem_allTiles ht)
  refine ⟨fun hne => ?_, fun hne hadd => ?_⟩
  · have heq : (layout p (freshCheckPoint ar)).northEast t = (layout p cp).northEast t :=
      hw.grows.northEast_eq hin hne
    rw [heq] at h₁
    exact h₁ hne
  · have heq : (layout p (freshCheckPoint ar)).southEast t = (layout p cp).southEast t :=
      hw.grows.southEast_eq hin hne
    rw [heq] at h₂
    exact h₂ hne (hw.mem_allTiles (hw.added _ hadd))

theorem Within.technologySpecificConstraints
    (h : technologySpecificConstraints S p (freshCheckPoint ar) v .solver) :
    technologySpecificConstraints S p cp v .solver := fun hp =>
  ⟨fun fon hfon hf => hw.restrictFanout hS ((h hp).1 fon hfon hf),
    fun n1 hn1 ha => hw.restrictGate ((h hp).2 n1 hn1 ha)⟩

theorem Within.preventInsufficiencies (h : Sufficient S p ar v) :
    preventInsufficiencies S p cp v .solver := fun t ht _ hsink => by
  have hborder : ¬ ((layout p cp).isAtEasternBorder t || (layout p cp).isAtSouthernBorder t) := by
    intro hb
    rw [if_pos hb] at hsink
    cases hsink
  have hx : t.x ≠ cp.ar.x := fun hx => hborder (by
    rw [show (layout p cp).isAtEasternBorder t = true from decide_eq_true hx]
    rfl)
  have hy : t.y ≠ cp.ar.y := fun hy => hborder (by
    rw [show (layout p cp).isAtSouthernBorder t = true from decide_eq_true hy, Bool.or_true])
  obtain ⟨-, hxle, hyle⟩ := Exact.mem_allTiles.mp (show t ∈ allTiles cp.ar from ht)
  have hx' : t.x ≠ ar.x := by have := hw.x_le; omega
  have hy' : t.y ≠ ar.y := by have := hw.y_le; omega
  have hset := hw.settled (p := p) (absurd · hx) (absurd · hy)
  have hin : (layout p cp).Inside t := inside_of_mem_allTiles p ht
  refine ⟨fun n hn hi => h.node t (hw.mem_allTiles ht) hx' hy' n hn
    ((insufficient_iff_of_settled hS ht hset n).mpr hi), fun hp ed hed hz => ?_⟩
  refine h.edge hp t (hw.mem_allTiles ht) hx' hy' ed hed ?_
  have ho : (p.layout ar).outgoingClockedZones t = (layout p cp).outgoingClockedZones t :=
    ClockedLayout.outgoingClockedZones_eq_of_settled rfl hset hS hin
  have hi : (p.layout ar).incomingClockedZones t = (layout p cp).incomingClockedZones t :=
    ClockedLayout.incomingClockedZones_eq_of_settled rfl hset hS hin
  rwa [ho, hi]

omit hS hw in
theorem acc_eq_of_settled (hS : (p.layout ar).Small) (ht : t ∈ allTiles cp.ar)
    (hset : CoordinateLayout.Settled (layout p cp).toCoordinateLayout
      (p.layout ar).toCoordinateLayout t) :
    acc p (freshCheckPoint ar) v t = acc p cp v t ∧
      iacc p (freshCheckPoint ar) v t = iacc p cp v t := by
  simp only [acc, iacc, fanoutTiles_eq_of_settled hS ht hset, faninTiles_eq_of_settled hS ht hset,
    and_self]

theorem Within.nodeConnections (hl : Tracks cp ar e s) (ht : t ∈ allTiles cp.ar)
    (h : nodeConnections S p (freshCheckPoint ar) v true true t) :
    nodeConnections S p cp v e s t := fun n hn => by
  refine ⟨fun hne => hw.mkAsIfSe hl fun hset => ?_, fun hne => hw.mkAsIfSe hl fun hset => ?_⟩
  · have heq := (acc_eq_of_settled (v := v) hS ht hset).1
    have hfresh := of_mkAsIfSe_true ((h n hn).1 (heq ▸ hne))
    rwa [heq] at hfresh
  · have heq := (acc_eq_of_settled (v := v) hS ht hset).2
    have hfresh := of_mkAsIfSe_true ((h n hn).2 (heq ▸ hne))
    rwa [heq] at hfresh

theorem Within.crossingConnections (hl : Tracks cp ar e s) (ht : t ∈ allTiles cp.ar)
    (h : crossingConnections S p (freshCheckPoint ar) v true true t) :
    crossingConnections S p cp v e s t := by
  unfold Exact.crossingConnections at h ⊢
  split_ifs with hc
  · refine hw.mkAsIfSe hl fun hset => ?_
    obtain ⟨ha, hi⟩ := acc_eq_of_settled (v := v) hS ht hset
    rw [ha, hi, if_pos hc] at h
    exact of_mkAsIfSe_true h
  · refine fun htes => ⟨hw.mkAsIfSe hl fun hset => ?_, hw.mkAsIfSe hl fun hset => ?_⟩
    · obtain ⟨ha, hi⟩ := acc_eq_of_settled (v := v) hS ht hset
      rw [ha, hi, if_neg hc] at h
      exact of_mkAsIfSe_true (h htes).1
    · obtain ⟨ha, hi⟩ := acc_eq_of_settled (v := v) hS ht hset
      rw [ha, hi, if_neg hc] at h
      exact of_mkAsIfSe_true (h htes).2

theorem Within.edgeConnections (hl : Tracks cp ar e s) (ht : t ∈ allTiles cp.ar)
    (h : edgeConnections S p (freshCheckPoint ar) v true true t) :
    edgeConnections S p cp v e s t := fun htes => by
  obtain ⟨h₁, h₂, h₃⟩ := h htes
  refine ⟨fun hne => hw.mkAsIfSe hl fun hset => ?_, fun hne => hw.mkAsIfSe hl fun hset => ?_,
    fun hp => hw.crossingConnections hS hl ht (h₃ hp)⟩
  · have heq := (acc_eq_of_settled (v := v) hS ht hset).1
    have hfresh := of_mkAsIfSe_true (h₁ (heq ▸ hne))
    rwa [heq] at hfresh
  · have heq := (acc_eq_of_settled (v := v) hS ht hset).2
    have hfresh := of_mkAsIfSe_true (h₂ (heq ▸ hne))
    rwa [heq] at hfresh

theorem Within.emptyConnections (hl : Tracks cp ar e s) (ht : t ∈ allTiles cp.ar)
    (h : emptyConnections S p (freshCheckPoint ar) v true true t) :
    emptyConnections S p cp v e s t := fun hlen hne => hw.mkAsIfSe hl fun hset => by
  obtain ⟨ha, hi⟩ := acc_eq_of_settled (v := v) hS ht hset
  have hfresh := of_mkAsIfSe_true (h hlen (by rwa [ha, hi]))
  rwa [ha, hi] at hfresh

theorem Within.defineNumberOfConnections (hl : Tracks cp ar e s)
    (h : defineNumberOfConnections S p (freshCheckPoint ar) v true true) :
    defineNumberOfConnections S p cp v e s := by
  refine ⟨fun t ht => ?_, fun hp t ht => h.2 hp t (hw.mem_allTiles (hw.added t ht))⟩
  have ht' := hw.mem_addedAndUpdatedTiles ht
  obtain ⟨h₁, h₂, h₃⟩ := h.1 t (addedAndUpdatedTiles_fresh ▸ hw.mem_allTiles ht')
  exact ⟨hw.nodeConnections hS hl ht' h₁, hw.edgeConnections hS hl ht' h₂,
    hw.emptyConnections hS hl ht' h₃⟩

omit hS in
theorem Within.keepDistance {along across along' across' : ℕ} {tile : ℕ → ℕ → Tile}
    (h₁ : along ≤ along') (h₂ : across ≤ across')
    (h : keepDistance S p (freshCheckPoint ar) v along' across' tile .solver) :
    keepDistance S p cp v along across tile .solver := fun hi hb n hn i hir j hjr ht => by
  rw [List.mem_range] at hir hjr
  exact h hi hb n hn i (List.mem_range.mpr (by omega)) j (List.mem_range.mpr (by omega))
    (hw.mem_allTiles (hw.added _ ht))

omit hS in
theorem Within.utilizeHierarchicalInformation
    (h : utilizeHierarchicalInformation S p (freshCheckPoint ar) v .solver) :
    utilizeHierarchicalInformation S p cp v .solver :=
  ⟨fun hc => hw.keepDistance hw.x_le hw.y_le (h.1 hc),
    fun hc => hw.keepDistance hw.y_le hw.x_le (h.2.1 hc),
    fun hc hi hb n hn t ht => h.2.2 hc hi hb n hn t (hw.mem_allTiles (hw.added t ht))⟩

/-- Whatever a check point of a smaller layout generates holds in a model from scratch. -/
theorem Within.generated (hl : Tracks cp ar e s) (hsuf : Sufficient S p ar v)
    (h : Generated S p (freshCheckPoint ar) v true true) : Generated S p cp v e s where
  restrictTileElements := hw.restrictTileElements h.restrictTileElements
  restrictVertices := hw.restrictVertices hl h.restrictVertices
  defineGateFanoutTiles := hw.defineGateFanoutTiles hS hl h.defineGateFanoutTiles
  defineGateFaninTiles := hw.defineGateFaninTiles hS hl h.defineGateFaninTiles
  defineWireFanoutTiles := hw.defineWireFanoutTiles hS hl h.defineWireFanoutTiles
  defineWireFaninTiles := hw.defineWireFaninTiles hS hl h.defineWireFaninTiles
  assignPiClockings hd := hw.assignPiClockings (h.assignPiClockings hd)
  globalSynchronization hd := hw.globalSynchronization hl (h.globalSynchronization hd)
  restrictClocks hr := hw.restrictClocks (h.restrictClocks hr)
  establishSubPaths hn := hw.establishSubPaths (h.establishSubPaths hn)
  establishTransitivePaths hn := hw.establishTransitivePaths (h.establishTransitivePaths hn)
  eliminateCycles hn := hw.eliminateCycles (h.eliminateCycles hn)
  enforceBorderIo hb := hw.enforceBorderIo (h.enforceBorderIo hb)
  enforceStraightInverters hb := hw.enforceStraightInverters hS hl (h.enforceStraightInverters hb)
  restrictSynchronizationElements hb hd :=
    hw.restrictSynchronizationElements (h.restrictSynchronizationElements hb hd)
  technologySpecificConstraints :=
    hw.technologySpecificConstraints hS h.technologySpecificConstraints
  preventInsufficiencies := hw.preventInsufficiencies hS hsuf
  defineNumberOfConnections := hw.defineNumberOfConnections hS hl h.defineNumberOfConnections
  utilizeHierarchicalInformation :=
    hw.utilizeHierarchicalInformation h.utilizeHierarchicalInformation

end Generators

end Growth
end Fiction.Exact
