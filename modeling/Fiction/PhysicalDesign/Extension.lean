import Fiction.PhysicalDesign.Growth

/-!
# Constraints of extended layouts

A check point that extends a smaller layout only states constraints for the tiles that it names.
Together with what has been stated for the smaller layout, with the literals of the borders that
move switched off, they make up the whole instance for the extended layout.
-/

namespace Fiction.Exact

/-- `t` belonged to the layout of size `old` and lies at no border that has moved since. The
literals of the other borders have not been replaced. -/
structure Untouched (old ar : AspectRatio) (eo so e s : Bool) (t : Tile) : Prop where
  mem : t ∈ allTiles old
  east : t.x = old.x → ar.x = old.x ∧ (e = true → eo = true)
  south : t.y = old.y → ar.y = old.y ∧ (s = true → so = true)

/-- The check point extends a layout of size `old` that is tracked by the literals `eo` and `so`. -/
structure Extends (old : AspectRatio) (cp : CheckPoint) (eo so e s : Bool) : Prop where
  x_le : old.x ≤ cp.ar.x
  y_le : old.y ≤ cp.ar.y
  added : ∀ t ∈ allTiles cp.ar, t ∈ cp.addedTiles ∨ t ∈ allTiles old
  touched : ∀ t ∈ allTiles cp.ar,
    t ∈ addedAndUpdatedTiles cp ∨ Untouched old cp.ar eo so e s t

variable {S : SpecificationNetwork} {p : ExactParams} {v : Assignment} {old : AspectRatio}
  {cp : CheckPoint} {eo so e s : Bool} {t : Tile}

theorem Extends.grows (h : Extends old cp eo so e s) :
    CoordinateLayout.Grows (p.layout old).toCoordinateLayout (p.layout cp.ar).toCoordinateLayout :=
  ⟨rfl, rfl, h.x_le, h.y_le⟩

theorem Untouched.settled (h : Extends old cp eo so e s) (ht : Untouched old cp.ar eo so e s t) :
    CoordinateLayout.Settled (layout p (freshCheckPoint old)).toCoordinateLayout
      (p.layout cp.ar).toCoordinateLayout t :=
  ⟨h.grows, fun hx => (ht.east hx).1, fun hy => (ht.south hy).1⟩

/-- A tracked constraint of an untouched tile is still tracked. -/
theorem Untouched.mkAsIfSe (ht : Untouched old cp.ar eo so e s t) {C : Prop}
    (h : mkAsIfSe p (freshCheckPoint old) eo so t C) :
    mkAsIfSe p (freshCheckPoint cp.ar) e s t C := fun he hs =>
  h (fun hx => (ht.east (of_decide_eq_true hx)).2
      (he (decide_eq_true ((of_decide_eq_true hx).trans (ht.east (of_decide_eq_true hx)).1.symm))))
    fun hy => (ht.south (of_decide_eq_true hy)).2
      (hs (decide_eq_true ((of_decide_eq_true hy).trans (ht.south (of_decide_eq_true hy)).1.symm)))

theorem Extends.forall_mem (h : Extends old cp eo so e s) {C : Tile → Prop}
    (hO : ∀ t ∈ allTiles old, C t) (hC : ∀ t ∈ cp.addedTiles, C t) : ∀ t ∈ allTiles cp.ar, C t :=
  fun t ht => (h.added t ht).elim (hC t) (hO t)

section Generators

variable (h : Extends old cp eo so e s)
include h

theorem Extends.restrictTileElements (hO : restrictTileElements S p (freshCheckPoint old) v)
    (hC : restrictTileElements S p cp v) : restrictTileElements S p (freshCheckPoint cp.ar) v :=
  h.forall_mem hO hC

theorem Extends.restrictClocks (hO : restrictClocks p (freshCheckPoint old) v)
    (hC : restrictClocks p cp v) : restrictClocks p (freshCheckPoint cp.ar) v :=
  h.forall_mem hO hC

theorem Extends.eliminateCycles (hO : eliminateCycles (freshCheckPoint old) v)
    (hC : eliminateCycles cp v) : eliminateCycles (freshCheckPoint cp.ar) v :=
  h.forall_mem hO hC

theorem Extends.restrictSynchronizationElements
    (hO : restrictSynchronizationElements S p (freshCheckPoint old) v)
    (hC : restrictSynchronizationElements S p cp v) :
    restrictSynchronizationElements S p (freshCheckPoint cp.ar) v := fun hp =>
  h.forall_mem (hO hp) (hC hp)

theorem Extends.assignClocking {n : ℕ} (hO : assignClocking p (freshCheckPoint old) v n)
    (hC : assignClocking p cp v n) : assignClocking p (freshCheckPoint cp.ar) v n :=
  h.forall_mem hO hC

theorem Extends.assignPiClockings (hO : assignPiClockings S p (freshCheckPoint old) v)
    (hC : assignPiClockings S p cp v) : assignPiClockings S p (freshCheckPoint cp.ar) v :=
  fun hb => by
    refine ⟨(hC hb).1, ?_⟩
    have hO := (hO hb).2
    have hC := (hC hb).2
    split_ifs at hO hC ⊢
    · exact fun pi hpi => h.assignClocking (hO pi hpi) (hC pi hpi)
    · exact fun pi hpi fn hfn hk => h.assignClocking (hO pi hpi fn hfn hk) (hC pi hpi fn hfn hk)

theorem Extends.globalSynchronization
    (hO : globalSynchronization S p (freshCheckPoint old) v eo so)
    (hC : globalSynchronization S p cp v e s) :
    globalSynchronization S p (freshCheckPoint cp.ar) v e s := by
  unfold Exact.globalSynchronization at hO hC ⊢
  split_ifs at hO hC ⊢
  · exact fun pi hpi => h.forall_mem (hO pi hpi) (hC pi hpi)
  · exact fun pi hpi fn hfn => h.forall_mem (hO pi hpi fn hfn) (hC pi hpi fn hfn)
  · exact hC
  · exact hC

/-- A constraint of added and updated tiles has to carry over for untouched tiles. -/
theorem Extends.forall_touched {C : Tile → Prop}
    (hO : ∀ t, Untouched old cp.ar eo so e s t → C t)
    (hC : ∀ t ∈ addedAndUpdatedTiles cp, C t) :
    ∀ t ∈ addedAndUpdatedTiles (freshCheckPoint cp.ar), C t := fun t ht =>
  (h.touched t (addedAndUpdatedTiles_fresh ▸ ht)).elim (hC t) (hO t)

omit h in
theorem mem_addedAndUpdatedTiles_fresh (ht : t ∈ allTiles old) :
    t ∈ addedAndUpdatedTiles (freshCheckPoint old) := addedAndUpdatedTiles_fresh ▸ ht

theorem Extends.assignBorder {n : ℕ} (hO : assignBorder p (freshCheckPoint old) v n)
    (hC : assignBorder p cp v n) : assignBorder p (freshCheckPoint cp.ar) v n := by
  refine h.forall_touched (fun t ht hb => hO t (mem_addedAndUpdatedTiles_fresh ht.mem) ?_) hC
  have hb' : ¬(t.y = 0 ∨ t.x = cp.ar.x ∨ t.y = cp.ar.y ∨ t.x = 0) := of_decide_eq_false hb
  have hx := fun hx => (ht.east hx).1
  have hy := fun hy => (ht.south hy).1
  exact decide_eq_false (show ¬(t.y = 0 ∨ t.x = old.x ∨ t.y = old.y ∨ t.x = 0) by omega)

theorem Extends.assignEast {n : ℕ} (hO : assignEast p (freshCheckPoint old) v n)
    (hC : assignEast p cp v n) : assignEast p (freshCheckPoint cp.ar) v n := by
  refine h.forall_touched (fun t ht hb => hO t (mem_addedAndUpdatedTiles_fresh ht.mem) ?_) hC
  have hb' : ¬ t.x = cp.ar.x := of_decide_eq_false hb
  exact decide_eq_false fun hx => hb' (hx.trans (ht.east hx).1.symm)

theorem Extends.assignSouth {n : ℕ} (hO : assignSouth p (freshCheckPoint old) v n)
    (hC : assignSouth p cp v n) : assignSouth p (freshCheckPoint cp.ar) v n := by
  refine h.forall_touched (fun t ht hb => hO t (mem_addedAndUpdatedTiles_fresh ht.mem) ?_) hC
  have hb' : ¬ t.y = cp.ar.y := of_decide_eq_false hb
  exact decide_eq_false fun hy => hb' (hy.trans (ht.south hy).1.symm)

theorem Extends.assignInputBorder {n : ℕ} (hO : assignInputBorder p (freshCheckPoint old) v n)
    (hC : assignInputBorder p cp v n) : assignInputBorder p (freshCheckPoint cp.ar) v n := by
  unfold Exact.assignInputBorder at hO hC ⊢
  split_ifs at hO hC ⊢
  · exact h.forall_mem hO hC
  · exact h.forall_mem hO hC
  · exact h.assignBorder hO hC

theorem Extends.assignOutputBorder {n : ℕ} (hO : assignOutputBorder p (freshCheckPoint old) v n)
    (hC : assignOutputBorder p cp v n) : assignOutputBorder p (freshCheckPoint cp.ar) v n := by
  unfold Exact.assignOutputBorder at hO hC ⊢
  split_ifs at hO hC ⊢
  · exact h.assignEast hO hC
  · exact h.assignSouth hO hC
  · exact h.assignBorder hO hC

theorem Extends.enforceBorderIo (hO : enforceBorderIo S p (freshCheckPoint old) v)
    (hC : enforceBorderIo S p cp v) : enforceBorderIo S p (freshCheckPoint cp.ar) v := by
  unfold Exact.enforceBorderIo at hO hC ⊢
  split_ifs at hO hC ⊢
  · exact ⟨fun pi hpi => h.assignInputBorder (hO.1 pi hpi) (hC.1 pi hpi),
      fun po hpo => h.assignOutputBorder (hO.2 po hpo) (hC.2 po hpo)⟩
  · exact ⟨fun pi hpi fon hfon hk =>
        h.assignInputBorder (hO.1 pi hpi fon hfon hk) (hC.1 pi hpi fon hfon hk),
      fun po hpo fin hfin hk =>
        h.assignOutputBorder (hO.2 po hpo fin hfin hk) (hC.2 po hpo fin hfin hk)⟩

section Neighbours

variable (hS : (p.layout cp.ar).Small)
include hS

theorem Extends.defineGateFanoutTiles
    (hO : defineGateFanoutTiles S p (freshCheckPoint old) v eo so)
    (hC : defineGateFanoutTiles S p cp v e s) :
    defineGateFanoutTiles S p (freshCheckPoint cp.ar) v e s := by
  refine h.forall_touched (fun t ht n hn => ht.mkAsIfSe ?_) hC
  rw [fanoutTiles_eq_of_settled hS ht.mem (ht.settled h)]
  exact hO t (mem_addedAndUpdatedTiles_fresh ht.mem) n hn

theorem Extends.defineGateFaninTiles
    (hO : defineGateFaninTiles S p (freshCheckPoint old) v eo so)
    (hC : defineGateFaninTiles S p cp v e s) :
    defineGateFaninTiles S p (freshCheckPoint cp.ar) v e s := by
  refine h.forall_touched (fun t ht n hn => ht.mkAsIfSe ?_) hC
  rw [faninTiles_eq_of_settled hS ht.mem (ht.settled h)]
  exact hO t (mem_addedAndUpdatedTiles_fresh ht.mem) n hn

theorem Extends.defineWireFanoutTiles
    (hO : defineWireFanoutTiles S p (freshCheckPoint old) v eo so)
    (hC : defineWireFanoutTiles S p cp v e s) :
    defineWireFanoutTiles S p (freshCheckPoint cp.ar) v e s := by
  refine h.forall_touched (fun t ht ed hed => ht.mkAsIfSe ?_) hC
  rw [fanoutTiles_eq_of_settled hS ht.mem (ht.settled h)]
  exact hO t (mem_addedAndUpdatedTiles_fresh ht.mem) ed hed

theorem Extends.defineWireFaninTiles
    (hO : defineWireFaninTiles S p (freshCheckPoint old) v eo so)
    (hC : defineWireFaninTiles S p cp v e s) :
    defineWireFaninTiles S p (freshCheckPoint cp.ar) v e s := by
  refine h.forall_touched (fun t ht ed hed => ht.mkAsIfSe ?_) hC
  rw [faninTiles_eq_of_settled hS ht.mem (ht.settled h)]
  exact hO t (mem_addedAndUpdatedTiles_fresh ht.mem) ed hed

theorem Extends.enforceStraightInverters
    (hO : enforceStraightInverters S p (freshCheckPoint old) v eo so)
    (hC : enforceStraightInverters S p cp v e s) :
    enforceStraightInverters S p (freshCheckPoint cp.ar) v e s := by
  refine h.forall_touched (fun t ht inv hinv hi hk => ht.mkAsIfSe ?_) hC
  have hopp : (layout p (freshCheckPoint cp.ar)).adjacentOppositeCoordinates t =
      (layout p (freshCheckPoint old)).adjacentOppositeCoordinates t :=
    (ht.settled h).adjacentOppositeCoordinates_eq hS (inside_of_mem_allTiles p ht.mem)
  rw [hopp]
  exact hO t (mem_addedAndUpdatedTiles_fresh ht.mem) inv hinv hi hk

theorem Extends.defineNumberOfConnections
    (hO : defineNumberOfConnections S p (freshCheckPoint old) v eo so)
    (hC : defineNumberOfConnections S p cp v e s) :
    defineNumberOfConnections S p (freshCheckPoint cp.ar) v e s := by
  refine ⟨h.forall_touched (fun t ht => ?_) hC.1, fun hp => h.forall_mem (hO.2 hp) (hC.2 hp)⟩
  obtain ⟨hnode, hedge, hempty⟩ := hO.1 t (mem_addedAndUpdatedTiles_fresh ht.mem)
  obtain ⟨ha, hi⟩ := acc_eq_of_settled (v := v) hS ht.mem (ht.settled h)
  refine ⟨fun n hn => ?_, fun htes => ?_, fun hlen hne => ?_⟩
  · rw [ha, hi]
    exact ⟨fun hne => ht.mkAsIfSe ((hnode n hn).1 hne), fun hne => ht.mkAsIfSe ((hnode n hn).2 hne)⟩
  · obtain ⟨hout, hin, hcross⟩ := hedge htes
    refine ⟨fun hne => ?_, fun hne => ?_, fun hp => ?_⟩
    · rw [ha] at hne ⊢
      exact ht.mkAsIfSe (hout hne)
    · rw [hi] at hne ⊢
      exact ht.mkAsIfSe (hin hne)
    · have hcross := hcross hp
      unfold crossingConnections at hcross ⊢
      rw [ha, hi]
      split_ifs at hcross ⊢
      · exact ht.mkAsIfSe hcross
      · exact fun h2 => ⟨ht.mkAsIfSe (hcross h2).1, ht.mkAsIfSe (hcross h2).2⟩
  · rw [ha, hi] at hne ⊢
    exact ht.mkAsIfSe (hempty hlen hne)

end Neighbours

section Paths

theorem Extends.mem_fanoutTiles {u : Tile} (ht : t ∈ allTiles old) (hu : u ∈ allTiles old)
    (hadj : u ∈ fanoutTiles p (freshCheckPoint cp.ar) t) :
    u ∈ fanoutTiles p (freshCheckPoint old) t := by
  have hin := inside_of_mem_allTiles p ht
  have hinu := inside_of_mem_allTiles p hu
  unfold fanoutTiles at hadj ⊢
  split_ifs at hadj ⊢
  · obtain ⟨hadj, hout⟩ := ClockedLayout.mem_outgoingClockedZones.mp hadj
    exact ClockedLayout.mem_outgoingClockedZones.mpr
      ⟨h.grows.mem_adjacentCoordinates_of_inside hin hinu hadj, hout⟩
  · exact h.grows.mem_adjacentCoordinates_of_inside hin hinu hadj

omit h in
theorem mem_allTiles_of_mem_fanoutTiles {ar : AspectRatio} {u : Tile} (ht : t ∈ allTiles ar)
    (hu : u ∈ fanoutTiles p (freshCheckPoint ar) t) : u ∈ allTiles ar := by
  unfold fanoutTiles at hu
  split_ifs at hu
  · exact mem_allTiles_of_mem_outgoingClockedZones ht hu
  · exact mem_allTiles_of_mem_adjacentCoordinates ht hu

theorem Extends.establishSubPaths (hO : establishSubPaths p (freshCheckPoint old) v)
    (hC : establishSubPaths p cp v) : establishSubPaths p (freshCheckPoint cp.ar) v :=
  fun t ht u hu _ => by
    rcases h.added t ht with hta | hto
    · exact hC t ht u hu (.inl hta)
    · rcases h.added u (mem_allTiles_of_mem_fanoutTiles ht hu) with hua | huo
      · exact hC t ht u hu (.inr hua)
      · exact hO t hto u (h.mem_fanoutTiles hto huo hu) (.inl hto)

theorem Extends.establishTransitivePaths
    (hO : establishTransitivePaths p (freshCheckPoint old) v)
    (hC : establishTransitivePaths p cp v) :
    establishTransitivePaths p (freshCheckPoint cp.ar) v :=
  fun t₁ h₁ t₂ h₂ hne t₃ h₃ hne' _ => by
    rcases h.added t₁ h₁ with ha₁ | ho₁
    · exact hC t₁ h₁ t₂ h₂ hne t₃ h₃ hne' (.inl ha₁)
    · rcases h.added t₂ h₂ with ha₂ | ho₂
      · exact hC t₁ h₁ t₂ h₂ hne t₃ h₃ hne' (.inr (.inl ha₂))
      · rcases h.added t₃ h₃ with ha₃ | ho₃
        · exact hC t₁ h₁ t₂ h₂ hne t₃ h₃ hne' (.inr (.inr ha₃))
        · exact hO t₁ ho₁ t₂ ho₂ hne t₃ ho₃ hne' (.inl ho₁)

end Paths

end Generators

/-- Information never flows back to the west or to the north. -/
def NeverReturns (p : ExactParams) : Prop :=
  ∀ (ar : AspectRatio) (t u : Tile), t ∈ allTiles ar →
    u ∈ (p.layout ar).outgoingClockedZones t → t.x ≤ u.x ∧ t.y ≤ u.y

/-- `n2` must not be placed directly after `n1`. -/
def mayNotSucceed (S : SpecificationNetwork) (p : ExactParams) (n1 n2 : ℕ) : Bool :=
  S.ntk.isFanout n1 && S.ntk.isFanout n2 ||
    isAndOrMaj S n1 &&
      (isAndOrMaj S n2 || S.ntk.isFanout n2 || S.ntk.isInv n2 && p.straightInverters)

/-- No gate is to be kept away from one that reads it, unless information never flows back. -/
def Forward (S : SpecificationNetwork) (p : ExactParams) : Prop :=
  NeverReturns p ∨ ∀ n1 ∈ S.foreachGate, ∀ n2 ∈ S.fanouts n1, mayNotSucceed S p n1 n2 = false

section Technology

variable (h : Extends old cp eo so e s)
include h

omit h in
theorem mem_allTiles_of_le {u : Tile} {ar : AspectRatio} (ht : t ∈ allTiles ar)
    (hu : u ∈ allTiles old) (hle : t.x ≤ u.x ∧ t.y ≤ u.y) : t ∈ allTiles old := by
  obtain ⟨heq, -, -⟩ := mem_allTiles.mp ht
  obtain ⟨-, hx, hy⟩ := mem_allTiles.mp hu
  exact mem_allTiles.mpr ⟨heq, hle.1.trans hx, hle.2.trans hy⟩

theorem Extends.prohibitSucceeding (hret : Forward S p) {n1 n2 : ℕ} (hn1 : n1 ∈ S.foreachGate)
    (hn2 : n2 ∈ S.fanouts n1) (hpair : mayNotSucceed S p n1 n2 = true)
    (hO : prohibitSucceeding p (freshCheckPoint old) v n1 n2)
    (hC : prohibitSucceeding p cp v n1 n2) :
    prohibitSucceeding p (freshCheckPoint cp.ar) v n1 n2 := fun t ht u hu hadd => by
  rcases h.added u hadd with hua | huo
  · exact hC t ht u hu hua
  · have hret : NeverReturns p := hret.resolve_right fun hfree => by
      rw [hfree n1 hn1 n2 hn2] at hpair
      exact absurd hpair Bool.false_ne_true
    have hto := mem_allTiles_of_le ht huo (hret cp.ar t u ht hu)
    obtain ⟨hadj, hout⟩ := ClockedLayout.mem_outgoingClockedZones.mp hu
    refine hO t hto u (ClockedLayout.mem_outgoingClockedZones.mpr ⟨?_, hout⟩) huo
    exact h.grows.mem_adjacentCoordinates_of_inside (inside_of_mem_allTiles p hto)
      (inside_of_mem_allTiles p huo) hadj

variable (hS : (p.layout cp.ar).Small)
include hS

theorem Extends.restrictFanout (hret : Forward S p) {fon : ℕ} (hfon : fon ∈ S.foreachGate)
    (hfan : S.ntk.isFanout fon = true)
    (hO : restrictFanout S p (freshCheckPoint old) v fon) (hC : restrictFanout S p cp v fon) :
    restrictFanout S p (freshCheckPoint cp.ar) v fon := by
  have hpair : ∀ afon, S.ntk.isFanout afon = true → mayNotSucceed S p fon afon = true :=
    fun afon hf => by rw [mayNotSucceed, hfan, hf]; rfl
  refine ⟨fun afon ha hf =>
      h.prohibitSucceeding hret hfon ha (hpair afon hf) (hO.1 afon ha hf) (hC.1 afon ha hf),
    fun hd => h.forall_mem (fun t ht => ?_) (hC.2 hd)⟩
  have hnw : (layout p (freshCheckPoint cp.ar)).northWest t =
      (layout p (freshCheckPoint old)).northWest t :=
    h.grows.northWest_eq hS (inside_of_mem_allTiles p ht)
  rw [hnw]
  exact hO.2 hd t ht

theorem Extends.restrictGate (hret : Forward S p) {n1 : ℕ} (hn1 : n1 ∈ S.foreachGate)
    (hand : isAndOrMaj S n1 = true)
    (hO : restrictGate S p (freshCheckPoint old) v n1) (hC : restrictGate S p cp v n1) :
    restrictGate S p (freshCheckPoint cp.ar) v n1 := by
  have hpair : ∀ n2, (isAndOrMaj S n2 || S.ntk.isFanout n2 || S.ntk.isInv n2 && p.straightInverters) =
      true → mayNotSucceed S p n1 n2 = true :=
    fun n2 hc => by rw [mayNotSucceed, hand, hc, Bool.true_and, Bool.or_true]
  refine ⟨fun n2 hn2 hc =>
      h.prohibitSucceeding hret hn1 hn2 (hpair n2 hc) (hO.1 n2 hn2 hc) (hC.1 n2 hn2 hc),
    fun t ht => ⟨(hC.2 t ht).1, fun hne hmem => ?_⟩⟩
  rcases h.added _ hmem with hadd | hold
  · exact (hC.2 t ht).2 hne hadd
  · have hto := mem_allTiles_of_le ht hold
      (CoordinateLayout.le_southEast hS (inside_of_mem_allTiles p ht))
    have hse : (layout p (freshCheckPoint old)).southEast t =
        (layout p (freshCheckPoint cp.ar)).southEast t :=
      h.grows.southEast_eq_of_inside (inside_of_mem_allTiles p hto) hne
        (inside_of_mem_allTiles p hold)
    have hgate := (hO.2 t hto).2
    rw [hse] at hgate
    exact hgate hne hold

theorem Extends.technologySpecificConstraints
    (hret : p.technologySpecifics = .topolinano → Forward S p)
    (hO : technologySpecificConstraints S p (freshCheckPoint old) v .solver)
    (hC : technologySpecificConstraints S p cp v .solver) :
    technologySpecificConstraints S p (freshCheckPoint cp.ar) v .solver := fun hp =>
  ⟨fun fon hfon hf =>
      h.restrictFanout hS (hret hp) hfon hf ((hO hp).1 fon hfon hf) ((hC hp).1 fon hfon hf),
    fun n1 hn1 ha => h.restrictGate hS (hret hp) hn1 ha ((hO hp).2 n1 hn1 ha) ((hC hp).2 n1 hn1 ha)⟩

end Technology

/-- A layout is at least as long as the highest level, where levels are laid out along one
direction. -/
def Deep (S : SpecificationNetwork) (p : ExactParams) (ar : AspectRatio) : Prop :=
  ∀ n ∈ placedNodes S p, (p.isClockingScheme .columnar = true → S.level n ≤ ar.x) ∧
    (p.isClockingScheme .row = true → S.level n ≤ ar.y)

section Hierarchy

variable (h : Extends old cp eo so e s)
include h

/-- The distance to the side that does not move has been kept for all columns that count. -/
theorem Extends.keepDistance {along across along' across' : ℕ} {tile : ℕ → ℕ → Tile}
    (hacross : ∀ i j, tile i j ∈ allTiles old → j ≤ across)
    (hdeep : ∀ n ∈ placedNodes S p, S.level n ≤ along)
    (hO : keepDistance S p (freshCheckPoint old) v along across tile .solver)
    (hC : keepDistance S p cp v along' across' tile .solver) :
    keepDistance S p (freshCheckPoint cp.ar) v along' across' tile .solver :=
  fun hio hb n hn i hi j hj ht => by
    rcases h.added _ ht with hadd | hold
    · exact hC hio hb n hn i hi j hj hadd
    · have hd := hdeep n hn
      rw [List.mem_range] at hi
      exact hO hio hb n hn i (List.mem_range.mpr (by omega)) j
        (List.mem_range.mpr (Nat.lt_succ_of_le (hacross i j hold))) hold

theorem Extends.utilizeHierarchicalInformation (hdeep : Deep S p old)
    (hO : utilizeHierarchicalInformation S p (freshCheckPoint old) v .solver)
    (hC : utilizeHierarchicalInformation S p cp v .solver) :
    utilizeHierarchicalInformation S p (freshCheckPoint cp.ar) v .solver := by
  refine ⟨fun hc => ?_, fun hc => ?_, fun hc hio hb n hn => ?_⟩
  · exact h.keepDistance (fun i j hij => (mem_allTiles.mp hij).2.2)
      (fun n hn => (hdeep n hn).1 hc) (hO.1 hc) (hC.1 hc)
  · exact h.keepDistance (fun i j hij => (mem_allTiles.mp hij).2.1)
      (fun n hn => (hdeep n hn).2 hc) (hO.2.1 hc) (hC.2.1 hc)
  · exact h.forall_mem (hO.2.2 hc hio hb n hn) (hC.2.2 hc hio hb n hn)

omit h in
/-- The instance from scratch only assumes what it demands of tiles that lack neighbours. -/
theorem preventInsufficiencies_fresh (ar : AspectRatio) :
    preventInsufficiencies S p (freshCheckPoint ar) v .solver := fun t _ hb hsink => by
  have hborder : ((layout p (freshCheckPoint ar)).isAtEasternBorder t ||
      (layout p (freshCheckPoint ar)).isAtSouthernBorder t) = true := by
    simpa [freshCheckPoint] using hb
  rw [if_pos hborder] at hsink
  cases hsink

theorem Extends.generated (hS : (p.layout cp.ar).Small)
    (hret : p.technologySpecifics = .topolinano → Forward S p) (hdeep : Deep S p old)
    (hO : Generated S p (freshCheckPoint old) v eo so) (hC : Generated S p cp v e s) :
    Generated S p (freshCheckPoint cp.ar) v e s where
  restrictTileElements := h.restrictTileElements hO.restrictTileElements hC.restrictTileElements
  restrictVertices := hC.restrictVertices
  defineGateFanoutTiles :=
    h.defineGateFanoutTiles hS hO.defineGateFanoutTiles hC.defineGateFanoutTiles
  defineGateFaninTiles := h.defineGateFaninTiles hS hO.defineGateFaninTiles hC.defineGateFaninTiles
  defineWireFanoutTiles :=
    h.defineWireFanoutTiles hS hO.defineWireFanoutTiles hC.defineWireFanoutTiles
  defineWireFaninTiles := h.defineWireFaninTiles hS hO.defineWireFaninTiles hC.defineWireFaninTiles
  assignPiClockings hd := h.assignPiClockings (hO.assignPiClockings hd) (hC.assignPiClockings hd)
  globalSynchronization hd :=
    h.globalSynchronization (hO.globalSynchronization hd) (hC.globalSynchronization hd)
  restrictClocks hr := h.restrictClocks (hO.restrictClocks hr) (hC.restrictClocks hr)
  establishSubPaths hn := h.establishSubPaths (hO.establishSubPaths hn) (hC.establishSubPaths hn)
  establishTransitivePaths hn :=
    h.establishTransitivePaths (hO.establishTransitivePaths hn) (hC.establishTransitivePaths hn)
  eliminateCycles hn := h.eliminateCycles (hO.eliminateCycles hn) (hC.eliminateCycles hn)
  enforceBorderIo hb := h.enforceBorderIo (hO.enforceBorderIo hb) (hC.enforceBorderIo hb)
  enforceStraightInverters hb :=
    h.enforceStraightInverters hS (hO.enforceStraightInverters hb) (hC.enforceStraightInverters hb)
  restrictSynchronizationElements hb hd :=
    h.restrictSynchronizationElements (hO.restrictSynchronizationElements hb hd)
      (hC.restrictSynchronizationElements hb hd)
  technologySpecificConstraints := h.technologySpecificConstraints hS hret
    hO.technologySpecificConstraints hC.technologySpecificConstraints
  preventInsufficiencies := preventInsufficiencies_fresh cp.ar
  defineNumberOfConnections :=
    h.defineNumberOfConnections hS hO.defineNumberOfConnections hC.defineNumberOfConnections
  utilizeHierarchicalInformation := h.utilizeHierarchicalInformation hdeep
    hO.utilizeHierarchicalInformation hC.utilizeHierarchicalInformation

end Hierarchy

end Fiction.Exact
