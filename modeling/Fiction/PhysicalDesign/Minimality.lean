import Fiction.PhysicalDesign.DirectedFlow
import Fiction.PhysicalDesign.Exploration
import Fiction.PhysicalDesign.Rotation

/-!
# Minimality of the synchronous exploration

The lower bound, the skip rules and the constraints that remain in reused solver states must not
exclude a layout. They do not if they count what is placed: see `NotOverlyRestrictive`.
-/

namespace Fiction.Exact

variable {S : SpecificationNetwork} {p : ExactParams}

/-- Rotation is a symmetry, or the placed network needs more space than `ar` has. -/
structure SkipsFairly (S : SpecificationNetwork) (p : ExactParams) (ar : AspectRatio) : Prop where
  rotation : p.isRegularlyClocked = false →
    p.arrangement = .cartesian ∧ p.technologySpecifics ≠ .topolinano
  columnar : p.isClockingScheme .columnar = true → Exceeds S p ar.x ar.y
  row : p.isClockingScheme .row = true → Exceeds S p ar.y ar.x

/-- The lower bound counts placed nodes, and no step of the exploration skips or refutes an aspect
ratio without need. -/
structure NotOverlyRestrictive (S : SpecificationNetwork) (p : ExactParams) : Prop where
  lowerBound : lowerBound S ≤ (placedNodes S p).length
  skips : ∀ it h, Explored S p it h → it.num ≤ p.upperBound →
    skippable S p h.ar it.deref = true → SkipsFairly S p it.deref
  reuses : ∀ it h, Explored S p it h → it.num ≤ p.upperBound →
    skippable S p h.ar it.deref = false → Reuses h it.deref → p.isRegularlyClocked = true →
      DistinctFanins S ∨ FedIn p it.deref

section Minimality

variable (hp : NamedScheme.Predefined p.arrangement p.scheme)
include hp

theorem linear_of_isClockingScheme {name : ClockName}
    (hn : name ∈ [ClockName.columnar, .row, .twoddwave, .twoddwaveHex])
    (h : p.isClockingScheme name = true) : p.isRegularlyClocked = true := by
  by_contra hr
  rw [Bool.not_eq_true] at hr
  rw [isClockingScheme_eq_false (hp.isLinearScheme_eq_false hr) name hn] at h
  exact absurd h Bool.false_ne_true

theorem notOverlyRestrictive_of_figures (hio : p.ioPins = true)
    (hrot : p.isRegularlyClocked = false →
      p.arrangement = .cartesian ∧ p.technologySpecifics ≠ .topolinano)
    (hfig : p.isClockingScheme .columnar = true ∨ p.isClockingScheme .row = true →
      FiguresFit S p)
    (hfan : p.isRegularlyClocked = true → DistinctFanins S ∨ Fed p) :
    NotOverlyRestrictive S p where
  lowerBound := lowerBound_le_length_placedNodes hio
  skips it h _ _ hskip := by
    refine ⟨hrot, fun hcol => (hfig (.inl hcol)).exceeds ?_,
      fun hrow => (hfig (.inr hrow)).exceeds ?_⟩
    · have hr := linear_of_isClockingScheme hp (by decide) hcol
      rw [skippable, hr, hcol] at hskip
      exact of_decide_eq_true hskip
    · have hr := linear_of_isClockingScheme hp (by decide) hrow
      have hcol : p.isClockingScheme .columnar = false := Bool.eq_false_iff.mpr fun hcol =>
        absurd ((of_decide_eq_true hcol).symm.trans (of_decide_eq_true hrow)) (by decide)
      rw [skippable, hr, hcol, hrow] at hskip
      exact of_decide_eq_true hskip
  reuses it h _ _ _ _ hr := (hfan hr).imp id fun hfed => hfed it.deref

variable (h : NotOverlyRestrictive S p)
include h

omit hp in
theorem not_satisfiable_of_lt_lowerBound {ar : AspectRatio} (hlt : ar.area < lowerBound S) :
    ¬ Satisfiable (scratch S p ar) := by
  intro hsat
  obtain ⟨v, hv⟩ := satisfiable_scratch_iff.mp hsat
  exact absurd (h.lowerBound.trans hv.core.length_placedNodes_le) (Nat.not_le.mpr hlt)

section Step

variable {it : AspectRatioIterator} {hd : SmtHandler} (he : Explored S p it hd)
include he

theorem not_satisfiable_of_refuted (hb : it.num ≤ p.upperBound)
    (hskip : skippable S p hd.ar it.deref = false)
    (hunsat : ¬ Satisfiable (query S p (fetchSolver hd it.deref).1)) :
    ¬ Satisfiable (scratch S p it.deref) := by
  intro hsat
  obtain ⟨v, hv⟩ := satisfiable_scratch_iff.mp hsat
  have hS := small_layout (p := p) (it.area_deref.trans_le hb)
  by_cases hr : Reuses hd it.deref
  · have hx : it.deref.x < 2 ^ 31 - 1 := hS.1
    have hy : it.deref.y < 2 ^ 31 - 1 := hS.2
    have hf := @SoundTree.fetchSolver _ _ _ it.deref he.soundTree (by omega) (by omega)
    exact hunsat (hf.satisfiable hS hv (hv.core.sufficient hp (h.reuses it hd he hb hskip hr) hS))
  · exact hunsat (satisfiable_query_of_not_reuses hr hv)

theorem not_satisfiable_last : hd.ar.x ≠ hd.ar.y → ¬ Satisfiable (scratch S p hd.ar) := by
  induction he with
  | start => exact fun hne => absurd rfl hne
  | skip _ _ _ ih => exact ih
  | refute he hb hskip hunsat _ =>
    exact fun _ => not_satisfiable_of_refuted hp h he hb hskip hunsat

theorem not_satisfiable_of_skipped (hb : it.num ≤ p.upperBound)
    (hskip : skippable S p hd.ar it.deref = true) : ¬ Satisfiable (scratch S p it.deref) := by
  intro hsat
  obtain ⟨v, hv⟩ := satisfiable_scratch_iff.mp hsat
  have hS := small_layout (p := p) (it.area_deref.trans_le hb)
  have hfair := h.skips it hd he hb hskip
  unfold skippable at hskip
  split_ifs at hskip with hr hcol hrow
  · rw [Bool.not_eq_true'] at hr
    obtain ⟨hne, hx, hy⟩ := of_decide_eq_true hskip
    obtain ⟨ha, htech⟩ := hfair.rotation hr
    have heq : hd.ar = it.deref.rotate := AspectRatio.ext hy.symm hx.symm
    refine not_satisfiable_last hp h he (fun heq => hne ?_) (satisfiable_scratch_iff.mpr
      ⟨v.mirror, heq ▸ hv.rotate ha hr (hp.isLinearScheme_eq_false hr) htech⟩)
    rw [hx, hy, heq]
  · exact hv.core.not_exceeds_columnar hS hp hcol (hfair.columnar hcol)
  · exact hv.core.not_exceeds_row hS hp hrow (hfair.row hrow)

end Step

theorem minimal_runSynchronously {check : (Valuation → Prop) → Bool}
    (hcheck : ∀ φ, check φ = true ↔ Satisfiable φ) :
    Minimal S p (runSynchronously S p check) := by
  refine explore_minimal hcheck (fun it hd he hb => not_satisfiable_of_skipped hp h he hb)
    (fun it hd he hb => not_satisfiable_of_refuted hp h he hb) _ _ .start fun ar har => ?_
  exact not_satisfiable_of_lt_lowerBound h (AspectRatioIterator.passed_start.mp har)

/-- The result is minimal, and neither the lower bound nor a skip rule excludes an aspect ratio
that has a layout. -/
theorem minimal_of_notOverlyRestrictive {check : (Valuation → Prop) → Bool}
    (hcheck : ∀ φ, check φ = true ↔ Satisfiable φ) :
    Minimal S p (runSynchronously S p check) ∧
      (∀ ar : AspectRatio, ar.area < lowerBound S → ¬ Satisfiable (scratch S p ar)) ∧
      ∀ it hd, Explored S p it hd → it.num ≤ p.upperBound →
        skippable S p hd.ar it.deref = true → ¬ Satisfiable (scratch S p it.deref) :=
  ⟨minimal_runSynchronously hp h hcheck, fun _ => not_satisfiable_of_lt_lowerBound h,
    fun _ _ he => not_satisfiable_of_skipped hp h he⟩

end Minimality

section SharedOutput

/-- Two outputs share the buffer of an input. -/
def sharedOutput : TechnologyNetwork :=
  let (ntk, a) := TechnologyNetwork.empty.createPi
  let (ntk, f) := ntk.createBuf a
  (ntk.createPo f).createPo f

theorem sharedOutput_wellFormed : sharedOutput.WellFormed :=
  TechnologyNetwork.wellFormed_of_forall_lt (by decide) (by decide) (by decide) (by decide)
    (by decide) (by decide) (by decide)

theorem sharedOutput_placeable : SpecificationNetwork.Placeable sharedOutput :=
  ⟨by decide, by decide, SpecificationNetwork.children_eq_nil_of_isSource (by decide), by decide,
    by decide⟩

def sharedOutputSpecification : SpecificationNetwork :=
  .ofView sharedOutput
    (TechnologyNetwork.creationView sharedOutput_placeable.children_lt
      sharedOutput_placeable.outputs_lt)
    sharedOutput_wellFormed sharedOutput_placeable.children_source
    sharedOutput_placeable.outputs_substituted sharedOutput_placeable.cone

/-- Columnar clocking on a Cartesian layout. -/
def columnarParams (borderIo : Bool) : ExactParams where
  arrangement := .cartesian
  hasSynchronizationElements := false
  scheme := .columnarClocking .four
  upperBound := 100
  upperBound_lt := ExactParams.hundred_lt
  crossings := false
  ioPins := true
  borderIo := borderIo
  synchronizationElements := false
  straightInverters := false
  desynchronize := false
  technologySpecifics := .none

/-- The buffer next to the input. -/
def sideBySide : Assignment where
  tn t n := t = .at2 0 0 ∧ n = 2 ∨ t = .at2 1 0 ∧ n = 3
  te _ _ := false
  tc t u := t = .at2 0 0 ∧ u = .at2 1 0
  tp _ _ := false
  ncl _ _ := false
  tcl _ _ := false
  tse _ := 0

theorem freshModel_sideBySide :
    FreshModel sharedOutputSpecification (columnarParams true) ⟨1, 0⟩ sideBySide where
  generated := {
    restrictTileElements := by decide
    restrictVertices := by decide
    defineGateFanoutTiles := by decide
    defineGateFaninTiles := by decide
    defineWireFanoutTiles := by decide
    defineWireFaninTiles := by decide
    assignPiClockings := by decide
    globalSynchronization := by decide
    restrictClocks := by decide
    establishSubPaths := by decide
    establishTransitivePaths := by decide
    eliminateCycles := by decide
    enforceBorderIo := by decide
    enforceStraightInverters := by decide
    restrictSynchronizationElements := by decide
    technologySpecificConstraints := fun h => absurd h (by decide)
    preventInsufficiencies := by decide
    defineNumberOfConnections := by decide
    utilizeHierarchicalInformation := by
      refine ⟨fun _ _ _ => ?_, fun h => absurd h (by decide), fun h => absurd h (by decide)⟩
      unfold prohibit
      decide }
  assumed := {
    technologySpecificConstraints := fun h => absurd h (by decide)
    preventInsufficiencies := by decide
    utilizeHierarchicalInformation := by
      refine ⟨fun _ _ _ => ?_, fun h => absurd h (by decide), fun h => absurd h (by decide)⟩
      unfold prohibit
      decide }

theorem satisfiable_sideBySide :
    Satisfiable (scratch sharedOutputSpecification (columnarParams true) ⟨1, 0⟩) :=
  satisfiable_scratch_iff.mpr ⟨sideBySide, freshModel_sideBySide⟩

theorem notOverlyRestrictive_sharedOutput :
    NotOverlyRestrictive sharedOutputSpecification (columnarParams false) :=
  have hinput : 2 ∈ placedNodes sharedOutputSpecification (columnarParams false) := by decide
  notOverlyRestrictive_of_figures (.columnar .four) rfl (fun h => absurd h (by decide))
    (fun _ => ⟨.inr ⟨3, ⟨2, 3⟩, by decide, rfl, hinput⟩, fun h => absurd h (by decide)⟩)
    fun _ => .inl (by decide)

/-- Without border I/Os, the smallest layout is found. -/
theorem minimal_sharedOutput : ∃ check : (Valuation → Prop) → Bool,
    (∀ φ, check φ = true ↔ Satisfiable φ) ∧
      Minimal sharedOutputSpecification (columnarParams false)
        (runSynchronously sharedOutputSpecification (columnarParams false) check) := by
  classical
  have hcheck : ∀ φ : Valuation → Prop, decide (Satisfiable φ) = true ↔ Satisfiable φ :=
    fun φ => decide_eq_true_iff
  exact ⟨_, hcheck, (minimal_of_notOverlyRestrictive (.columnar .four)
    notOverlyRestrictive_sharedOutput hcheck).1⟩

theorem sharedOutput_skipped (check : (Valuation → Prop) → Bool) :
    ¬ Minimal sharedOutputSpecification (columnarParams true)
      (runSynchronously sharedOutputSpecification (columnarParams true) check) := by
  intro hmin
  cases hrun : runSynchronously sharedOutputSpecification (columnarParams true) check with
  | none =>
    rw [hrun] at hmin
    exact hmin ⟨1, 0⟩ (by decide) satisfiable_sideBySide
  | some ar =>
    rw [hrun] at hmin
    obtain ⟨hnum, -, lyt, hskip⟩ := of_explore_eq_some hrun
    refine hmin ⟨1, 0⟩ ?_ satisfiable_sideBySide
    have hbound : lowerBound sharedOutputSpecification = 2 := by decide
    rw [AspectRatioIterator.num_start, hbound] at hnum
    -- both aspect ratios with two tiles are skipped
    have hfalse : ¬ (ar.x < sharedOutputSpecification.depth ∨ true = true ∧
        ar.y < pred32 (max sharedOutputSpecification.numPis sharedOutputSpecification.numPos)) :=
      of_decide_eq_false hskip
    rw [show sharedOutputSpecification.depth = 1 by decide,
      show pred32 (max sharedOutputSpecification.numPis sharedOutputSpecification.numPos) = 1 by
        decide] at hfalse
    have hx : 2 ≤ ar.x + 1 := Nat.succ_le_succ (Nat.not_lt.mp fun hx => hfalse (.inl hx))
    have hy : 2 ≤ ar.y + 1 := Nat.succ_le_succ (Nat.not_lt.mp fun hy => hfalse (.inr ⟨rfl, hy⟩))
    exact (by decide : (⟨1, 0⟩ : AspectRatio).area < 2 * 2).trans_le (Nat.mul_le_mul hx hy)

theorem sharedOutput_not_minimal :
    ¬ ∀ (S : SpecificationNetwork) (p : ExactParams) (check : (Valuation → Prop) → Bool),
      NamedScheme.Predefined p.arrangement p.scheme → (∀ φ, check φ = true ↔ Satisfiable φ) →
        Minimal S p (runSynchronously S p check) := by
  classical
  intro h
  exact sharedOutput_skipped _ (h sharedOutputSpecification (columnarParams true)
    (fun φ => decide (Satisfiable φ)) (.columnar .four) fun φ => decide_eq_true_iff)

end SharedOutput

end Fiction.Exact
