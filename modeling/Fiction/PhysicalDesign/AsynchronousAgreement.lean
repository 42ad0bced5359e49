import Fiction.PhysicalDesign.AsynchronousInvariant
import Fiction.PhysicalDesign.Minimality
import Fiction.PhysicalDesign.Agreement
import Mathlib.Algebra.Order.BigOperators.Group.Finset

/-!
# Asynchronous and synchronous exploration

All runs of the threads end. The result is a smallest candidate behind the first aspect ratio, since
the first thread advances the iterator before it takes an aspect ratio. The synchronous exploration
finds a smallest candidate at all.
-/

namespace Fiction.Exact

open ParallelSearch (Beaten Cheapest)

section Termination

variable (p : ExactParams) (numThreads : ℕ)

/-- Steps that a thread can still make before it takes the next aspect ratio. -/
def ProgramPoint.rank : ProgramPoint → ℕ
  | .create => 3
  | .fetch => 2
  | .examine ar => if p.upperBound < ar.area then 1 else numThreads + 6
  | .compare _ => numThreads + 5
  | .record _ => numThreads + 4
  | .solve _ _ => numThreads + 3
  | .publish _ => numThreads + 2
  | .interrupt _ k => numThreads - k + 1
  | .returned _ => 0

/-- How far the upper bound is. -/
def remaining (it : AspectRatioIterator) : ℕ × ℕ :=
  if it.num ≤ p.upperBound then (p.upperBound + 1 - it.num, it.factors.length) else (0, 0)

def measure (s : ExplorationState) : (ℕ × ℕ) × ℕ :=
  (remaining p s.ari, ∑ i ∈ Finset.range numThreads, (s.workers i).point.rank p numThreads)

/-- The lexicographic order of the measure. -/
def Less : (ℕ × ℕ) × ℕ → (ℕ × ℕ) × ℕ → Prop := Prod.Lex (Prod.Lex (· < ·) (· < ·)) (· < ·)

theorem less_wellFounded : WellFounded Less :=
  (Nat.lt_wfRel.wf.prod_lex Nat.lt_wfRel.wf).prod_lex Nat.lt_wfRel.wf

variable {p numThreads} {s s' : ExplorationState} {i : ℕ}

theorem measure_less_of_rank (hi : i < numThreads) (hari : s'.ari = s.ari)
    (hothers : ∀ j, j ≠ i → (s'.workers j).point = (s.workers j).point)
    (hrank : (s'.workers i).point.rank p numThreads < (s.workers i).point.rank p numThreads) :
    Less (measure p numThreads s') (measure p numThreads s) := by
  unfold measure
  rw [hari]
  refine .right _ (Finset.sum_lt_sum (fun j _ => ?_) ⟨i, Finset.mem_range.mpr hi, hrank⟩)
  by_cases heq : j = i
  · exact heq ▸ hrank.le
  · rw [hothers j heq]

theorem remaining_advance {it : AspectRatioIterator} (hle : it.num ≤ p.upperBound) :
    Prod.Lex (· < ·) (· < ·) (remaining p it.advance) (remaining p it) := by
  unfold remaining
  rw [if_pos hle]
  split_ifs with hadv
  · exact it.advance_lt hle
  · exact .left _ _ (by omega)

theorem measure_goto (hi : i < numThreads) {pt : ProgramPoint}
    (hrank : pt.rank p numThreads < (s.workers i).point.rank p numThreads) :
    Less (measure p numThreads (s.goto i pt)) (measure p numThreads s) := by
  refine measure_less_of_rank hi rfl (fun j hne => ?_) ?_
  · simp only [ExplorationState.goto, ExplorationState.setWorker, Function.update_of_ne hne]
  · simpa only [ExplorationState.goto, ExplorationState.setWorker, Function.update_self] using hrank

theorem rank_refuteRatio {S : SpecificationNetwork} {ar : AspectRatio} {c : SolverCheckPoint}
    (hi : i < numThreads) (hpt : (s.workers i).point = .solve ar c) :
    Less (measure p numThreads (refuteRatio S p s i ar c)) (measure p numThreads s) := by
  refine measure_less_of_rank hi rfl (fun j hne => ?_) ?_
  · simp only [refuteRatio, ExplorationState.setWorker, Function.update_of_ne hne]
  · simp only [refuteRatio, ExplorationState.setWorker, Function.update_self, hpt,
      ProgramPoint.rank]
    omega

/-- Every step of a thread that has not returned lowers the measure. -/
theorem measure_exploreAsynchronously (S : SpecificationNetwork)
    (check : (Valuation → Prop) → Bool) (hi : i < numThreads)
    (hrun : (s.workers i).point.isReturned = false) (outcome : SolverOutcome) :
    Less (measure p numThreads (exploreAsynchronously S p check numThreads s i outcome))
      (measure p numThreads s) := by
  unfold exploreAsynchronously
  cases hpt : (s.workers i).point with
  | create =>
    refine measure_goto hi ?_
    simp only [hpt, ProgramPoint.rank]
    omega
  | fetch =>
    simp only [fetchRatio]
    by_cases hle : s.ari.num ≤ p.upperBound
    · exact .left _ _ (remaining_advance hle)
    · have hadv : ¬ s.ari.advance.num ≤ p.upperBound := fun h =>
        hle (s.ari.num_le_num_advance.trans h)
      have hrem : remaining p s.ari.advance = remaining p s.ari := by
        rw [remaining, remaining, if_neg hle, if_neg hadv]
      have hgoto := @measure_goto p numThreads s i hi (.examine s.ari.advance.deref) (by
        simp only [hpt, ProgramPoint.rank, AspectRatioIterator.area_deref]
        rw [if_pos (Nat.not_le.mp hadv)]
        omega)
      unfold measure at hgoto ⊢
      change Less (remaining p s.ari.advance, _) _
      rw [hrem]
      exact hgoto
  | examine ar =>
    simp only [examineRatio]
    split_ifs with hlt hskip <;> refine measure_goto hi ?_ <;>
      simp only [hpt, ProgramPoint.rank, hlt, if_true, if_false] <;> omega
  | compare ar =>
    simp only [compareRatio]
    cases s.resultAspectRatio with
    | none =>
      refine measure_goto hi ?_
      simp only [hpt, ProgramPoint.rank]
      omega
    | some r =>
      dsimp only
      split_ifs <;> refine measure_goto hi ?_ <;> simp only [hpt, ProgramPoint.rank] <;> omega
  | record ar =>
    refine measure_less_of_rank hi rfl (fun j hne => ?_) ?_
    · simp only [recordRatio, ExplorationState.setWorker, Function.update_of_ne hne]
    · simp only [recordRatio, ExplorationState.setWorker, Function.update_self, hpt,
        ProgramPoint.rank]
      omega
  | solve ar c =>
    cases outcome with
    | exception =>
      refine measure_goto hi ?_
      simp only [hpt, ProgramPoint.rank]
      omega
    | unknown => exact rank_refuteRatio hi hpt
    | answer =>
      simp only [solveRatio]
      split_ifs
      · refine measure_goto hi ?_
        simp only [hpt, ProgramPoint.rank]
        omega
      · exact rank_refuteRatio hi hpt
  | publish ar =>
    have hpub : Less (measure p numThreads
        ({ s with resultAspectRatio := some ar }.goto i (.interrupt ar 0)))
        (measure p numThreads s) := by
      refine @measure_goto p numThreads { s with resultAspectRatio := some ar } i hi _ ?_
      simp only [hpt, ProgramPoint.rank]
      omega
    simp only [publishRatio]
    cases s.resultAspectRatio with
    | none => exact hpub
    | some r =>
      dsimp only
      split_ifs
      · exact hpub
      · refine measure_goto hi ?_
        simp only [hpt, ProgramPoint.rank]
        omega
  | interrupt ar k =>
    simp only [interruptNext]
    split_ifs with hk
    · have hsame := interruptWorker_eq s ar k
      refine measure_less_of_rank hi (hsame i).2.2.1 (fun j hne => ?_) ?_
      · simp only [ExplorationState.goto, ExplorationState.setWorker, Function.update_of_ne hne]
        exact (hsame j).1
      · simp only [ExplorationState.goto, ExplorationState.setWorker, Function.update_self, hpt,
          ProgramPoint.rank]
        omega
    · refine measure_goto hi ?_
      simp only [hpt, ProgramPoint.rank]
      omega
  | returned l =>
    rw [hpt] at hrun
    cases hrun

end Termination

section Runs

variable (S : SpecificationNetwork) (p : ExactParams) (check : (Valuation → Prop) → Bool)
  (numThreads fixedSize : ℕ)

theorem exploration_ends (f : ℕ → ThreadStep) :
    ∃ k, ¬ (explorationSystem S p check numThreads fixedSize).Legal ((List.range k).map f) :=
  (explorationSystem S p check numThreads fixedSize).exists_not_legal less_wellFounded
    (measure p numThreads)
    (fun _ l hl => measure_exploreAsynchronously S check hl.1 hl.2.1 l.outcome) f

variable {numThreads} in
/-- A thread that has not returned can make a step. -/
theorem complete_of_final {s : ExplorationState}
    (hs : ∀ l, ¬ (explorationSystem S p check numThreads fixedSize).enabled s l) :
    Complete numThreads s := by
  intro i hi
  by_contra hrun
  exact hs ⟨i, .answer⟩ ⟨hi, Bool.eq_false_iff.mpr hrun, fun h => absurd rfl h⟩

theorem exists_complete_run : ∃ ls,
    (explorationSystem S p check numThreads fixedSize).Legal ls ∧
      Complete numThreads ((explorationSystem S p check numThreads fixedSize).run ls) := by
  have hnil : (explorationSystem S p check numThreads fixedSize).Legal [] := trivial
  obtain ⟨ls, hl, hfinal⟩ := (explorationSystem S p check numThreads fixedSize).exists_final
    less_wellFounded (measure p numThreads)
    (fun _ l hl => measure_exploreAsynchronously S check hl.1 hl.2.1 l.outcome) hnil
  exact ⟨ls, hl, complete_of_final S p check fixedSize hfinal⟩

end Runs

section Results

variable {S : SpecificationNetwork} {p : ExactParams} {check : (Valuation → Prop) → Bool}
  {sat : AspectRatio → Bool} {n numThreads fixedSize : ℕ} {s : ExplorationState}

theorem LaterCandidate.not_passed {ar : AspectRatio} (h : LaterCandidate S p sat n ar) :
    ¬ (AspectRatioIterator.start n).advance.Passed ar := by
  intro hp
  rcases AspectRatioIterator.passed_of_passed_advance hp with hp | heq
  · exact absurd (AspectRatioIterator.passed_start.mp hp) (Nat.not_lt.mpr h.1.le_area)
  · exact h.2 heq

theorem Inv.beaten (h : Inv S p check sat n numThreads s) (hn : 0 < numThreads)
    (hcomplete : Complete numThreads s) {ar : AspectRatio} (hlater : LaterCandidate S p sat n ar) :
    Beaten AspectRatio.area s.resultAspectRatio ar.area := by
  have hreturned : ∀ i < numThreads, ∃ l, (s.workers i).point = .returned l := by
    intro i hi
    have hr := hcomplete i hi
    cases hpt : (s.workers i).point with
    | returned l => exact ⟨l, rfl⟩
    | _ => rw [hpt] at hr; cases hr
  by_cases hp : s.ari.advance.Passed ar
  · refine h.covered.beaten_of_free (fun i => ?_) ⟨hp, hlater.not_passed⟩ hlater
    obtain ⟨l, hl⟩ := hreturned i i.isLt
    exact congrArg ProgramPoint.held hl
  · -- the first thread has come to an aspect ratio that is not larger
    have hle : s.ari.num ≤ ar.area :=
      s.ari.num_le_num_advance.trans (Nat.not_lt.mp fun hlt => hp (.inl hlt))
    obtain ⟨l, hl⟩ := hreturned 0 hn
    have hpoint := h.points 0 hn
    unfold PointOk at hpoint
    simp only [hl] at hpoint
    cases l with
    | some l => exact hpoint.1.mono (hpoint.2.trans hle)
    | none =>
      rcases hpoint with hub | hb
      · exact absurd hlater.1.area_le (Nat.not_le.mpr (hub.trans_le hle))
      · exact hb.mono hle

theorem foldl_extract {r : AspectRatio} {l : List ℕ} {layout : AspectRatio}
    (h : layout = r ∨ ∃ i ∈ l, (s.workers i).point = .returned (some r)) :
    l.foldl (fun layout i => match (s.workers i).point with
      | .returned (some l) => if l.x = r.x ∧ l.y = r.y then l else layout
      | _ => layout) layout = r := by
  induction l generalizing layout with
  | nil => exact h.resolve_right fun ⟨_, hmem, _⟩ => List.not_mem_nil hmem
  | cons i l ih =>
    rw [List.foldl_cons]
    have hmatch : ∀ l' : AspectRatio, (l'.x = r.x ∧ l'.y = r.y) → l' = r := fun l' he =>
      AspectRatio.ext he.1 he.2
    refine ih ?_
    rcases h with rfl | ⟨j, hj, hpt⟩
    · left
      split
      · split_ifs with he
        · exact hmatch _ he
        · rfl
      · rfl
    · rcases List.mem_cons.mp hj with rfl | hj
      · left
        simp only [hpt, and_self, if_true]
      · exact .inr ⟨j, hj, hpt⟩

theorem Inv.extractResult (h : Inv S p check sat n numThreads s)
    (hcomplete : Complete numThreads s) : extractResult numThreads s = s.resultAspectRatio := by
  unfold Exact.extractResult
  cases hres : s.resultAspectRatio with
  | none => rfl
  | some r =>
    refine congrArg some (foldl_extract (.inr ?_))
    obtain ⟨i, hi, hwin⟩ := h.winner r hres
    refine ⟨i, List.mem_range.mpr hi, ?_⟩
    have hr := hcomplete i hi
    cases hpt : (s.workers i).point with
    | returned l =>
      rw [hpt] at hwin
      cases l with
      | none => exact hwin.elim
      | some l => rw [show l = r from hwin]
    | _ => rw [hpt] at hr; cases hr

/-- The asynchronous exploration returns a smallest later candidate. -/
theorem cheapest_extractResult (hans : AnswersBy S p check sat) (hrot : RotationKeeps p sat)
    (hn : 0 < numThreads) {ls : List ThreadStep}
    (hl : (explorationSystem S p check numThreads fixedSize).Legal ls)
    (hcomplete : Complete numThreads
      ((explorationSystem S p check numThreads fixedSize).run ls)) :
    Cheapest AspectRatio.area (LaterCandidate S p sat (firstSize S fixedSize))
      (extractResult numThreads ((explorationSystem S p check numThreads fixedSize).run ls)) := by
  have hinv := inv_run hans hrot hl
  rw [hinv.extractResult hcomplete]
  exact hinv.covered.cheapest fun ar har => hinv.beaten hn hcomplete har

theorem cheapest_explore (hans : AnswersBy S p check sat) (hrot : RotationKeeps p sat)
    (it : AspectRatioIterator) (h : SmtHandler) (hr : Refuting S p check it h)
    (hstart : n ≤ it.num) (hpassed : ∀ ar, Candidate S p sat n ar → ¬ it.Passed ar) :
    Cheapest AspectRatio.area (Candidate S p sat n) (explore S p check it h) := by
  have hadvance : ∀ it : AspectRatioIterator, (∀ ar, Candidate S p sat n ar → ¬ it.Passed ar) →
      ¬ Candidate S p sat n it.deref → ∀ ar, Candidate S p sat n ar → ¬ it.advance.Passed ar := by
    intro it hpassed hderef ar hc hp
    rcases AspectRatioIterator.passed_of_passed_advance hp with hp | rfl
    · exact hpassed ar hc hp
    · exact hderef hc
  induction it, h using explore.induct S p check with
  | case1 it h hb hs ih =>
    rw [explore, if_pos hb, if_pos hs]
    refine ih (.pass hr) (hstart.trans it.num_le_num_advance) (hadvance it hpassed fun hc => ?_)
    obtain ⟨-, hne, hsat⟩ := hc.rotate_of_skippable hrot hs
    rw [hr.refuted hans hne] at hsat
    cases hsat
  | case2 it h hb hs c hc =>
    simp only [c] at hc
    have hskip := Bool.eq_false_iff.mpr hs
    rw [explore, if_pos hb, if_neg hs]
    simp only [hc, if_true]
    refine ⟨⟨?_, ?_, ?_, fun hreg => ?_⟩, fun ar har => ?_⟩
    · rw [it.area_deref]
      exact hstart
    · rw [it.area_deref]
      exact hb
    · exact (hans it h hr hb hskip).symm.trans hc
    · rw [skippable_regular hreg ⟨0, 0⟩ h.ar]
      exact hskip
    · rw [it.area_deref]
      exact Nat.not_lt.mp fun hlt => hpassed ar har (.inl hlt)
  | case3 it h hb hs c hc h' ih =>
    simp only [c] at hc
    have hskip := Bool.eq_false_iff.mpr hs
    have hno := Bool.eq_false_iff.mpr hc
    rw [explore, if_pos hb, if_neg hs]
    simp only [hc, if_false, Bool.false_eq_true]
    refine ih (.store hr hb hskip hno) (hstart.trans it.num_le_num_advance)
      (hadvance it hpassed fun hcand => ?_)
    have hsat := (hans it h hr hb hskip).symm.trans hno
    rw [hcand.sat] at hsat
    cases hsat
  | case4 it h hb =>
    rw [explore, if_neg hb]
    intro ar har
    exact hpassed ar har (.inl (har.area_le.trans_lt (Nat.not_le.mp hb)))

theorem cheapest_runSynchronouslyFrom (hans : AnswersBy S p check sat)
    (hrot : RotationKeeps p sat) (fixedSize : ℕ) :
    Cheapest AspectRatio.area (Candidate S p sat (firstSize S fixedSize))
      (runSynchronouslyFrom S p check fixedSize) := by
  refine cheapest_explore hans hrot _ _ (.start _) ?_ fun ar har hp => ?_
  · rw [AspectRatioIterator.num_start]
    exact le_max_left _ _
  · exact absurd (AspectRatioIterator.passed_start.mp hp) (Nat.not_lt.mpr har.le_area)

end Results

section Agreement

variable {S : SpecificationNetwork} {p : ExactParams} {check : (Valuation → Prop) → Bool}
  {sat : AspectRatio → Bool} {numThreads : ℕ}

/-- The first aspect ratio, which no thread takes, is no loss. -/
def FirstIsNoLoss (S : SpecificationNetwork) (p : ExactParams) (sat : AspectRatio → Bool)
    (fixedSize : ℕ) : Prop :=
  Candidate S p sat (firstSize S fixedSize)
      (AspectRatioIterator.start (firstSize S fixedSize)).deref →
    ∃ ar, ar ≠ (AspectRatioIterator.start (firstSize S fixedSize)).deref ∧
      ar.area = (AspectRatioIterator.start (firstSize S fixedSize)).deref.area ∧
      Candidate S p sat (firstSize S fixedSize) ar

theorem agrees_iff_of_complete (hans : AnswersBy S p check sat) (hrot : RotationKeeps p sat)
    (hn : 2 ≤ numThreads) {fixedSize : ℕ} {ls : List ThreadStep}
    (hl : (explorationSystem S p check numThreads fixedSize).Legal ls)
    (hcomplete : Complete numThreads
      ((explorationSystem S p check numThreads fixedSize).run ls)) :
    (extractResult numThreads
        ((explorationSystem S p check numThreads fixedSize).run ls)).map AspectRatio.area =
      (runSynchronouslyFrom S p check fixedSize).map AspectRatio.area ↔
        FirstIsNoLoss S p sat fixedSize := by
  refine Cheapest.map_cost_eq_iff (fun ar har => ?_)
    (cheapest_runSynchronouslyFrom hans hrot fixedSize)
    (cheapest_extractResult hans hrot (by omega) hl hcomplete)
  rw [AspectRatioIterator.area_deref, AspectRatioIterator.num_start]
  exact max_le har.le_area ar.area_pos

/-- All runs end, all threads have returned then, and the results agree exactly if the first aspect
ratio is no loss. -/
theorem asynchronous_agrees_iff (hans : AnswersBy S p check sat) (hrot : RotationKeeps p sat)
    (hn : 2 ≤ numThreads) (fixedSize : ℕ) :
    (∀ f : ℕ → ThreadStep,
      ∃ k, ¬ (explorationSystem S p check numThreads fixedSize).Legal ((List.range k).map f)) ∧
    ∀ ls, (explorationSystem S p check numThreads fixedSize).Legal ls →
      (∀ l, ¬ (explorationSystem S p check numThreads fixedSize).enabled
        ((explorationSystem S p check numThreads fixedSize).run ls) l) →
      Complete numThreads ((explorationSystem S p check numThreads fixedSize).run ls) ∧
      ((extractResult numThreads
          ((explorationSystem S p check numThreads fixedSize).run ls)).map AspectRatio.area =
        (runSynchronouslyFrom S p check fixedSize).map AspectRatio.area ↔
          FirstIsNoLoss S p sat fixedSize) := by
  refine ⟨exploration_ends S p check numThreads fixedSize, fun ls hl hfinal => ?_⟩
  have hcomplete := complete_of_final S p check fixedSize hfinal
  exact ⟨hcomplete, agrees_iff_of_complete hans hrot hn hl hcomplete⟩

theorem Refuting.visited (hcheck : ∀ φ, check φ = true ↔ Satisfiable φ)
    {it : AspectRatioIterator} {h : SmtHandler} (hr : Refuting S p check it h) :
    Visited S p it h := by
  induction hr with
  | start n => exact .start n
  | pass _ ih => exact ih.pass
  | store _ hb hs hc ih =>
    refine ih.store hb hs fun hsat => ?_
    rw [(hcheck _).mpr hsat] at hc
    cases hc

theorem answersBy_of_correct (hp : NamedScheme.Predefined p.arrangement p.scheme)
    (hgrow : StatesGrow S p) (hcheck : ∀ φ, check φ = true ↔ Satisfiable φ)
    (hsat : ∀ ar, sat ar = true ↔ Satisfiable (scratch S p ar)) : AnswersBy S p check sat := by
  intro it h hr hb _
  rw [Bool.eq_iff_iff, hcheck, hsat]
  exact satisfiable_query_iff hp hgrow (hr.visited hcheck) hb

/-- Rotation is a symmetry of Cartesian layouts without the constraints of ToPoliNano. -/
theorem rotationKeeps_of_correct (hp : NamedScheme.Predefined p.arrangement p.scheme)
    (hsym : p.isRegularlyClocked = false →
      p.arrangement = .cartesian ∧ p.technologySpecifics ≠ .topolinano)
    (hsat : ∀ ar, sat ar = true ↔ Satisfiable (scratch S p ar)) : RotationKeeps p sat := by
  intro hreg ar _
  obtain ⟨ha, htech⟩ := hsym hreg
  have hrotate : ∀ ar, Satisfiable (scratch S p ar) → Satisfiable (scratch S p ar.rotate) := by
    intro ar hs
    obtain ⟨v, hv⟩ := satisfiable_scratch_iff.mp hs
    exact satisfiable_scratch_iff.mpr
      ⟨v.mirror, hv.rotate ha hreg (hp.isLinearScheme_eq_false hreg) htech⟩
  rw [Bool.eq_iff_iff, hsat, hsat]
  exact ⟨hrotate ar.rotate, hrotate ar⟩

end Agreement

section Row

/-- Row clocking on a Cartesian layout. -/
def rowParams : ExactParams where
  arrangement := .cartesian
  hasSynchronizationElements := false
  scheme := .rowClocking .four
  upperBound := 100
  upperBound_lt := ExactParams.hundred_lt
  crossings := false
  ioPins := true
  borderIo := false
  synchronizationElements := false
  straightInverters := false
  desynchronize := false
  technologySpecifics := .none

/-- The buffer below the input. -/
def oneBelowTheOther : Assignment where
  tn t n := t = .at2 0 0 ∧ n = 2 ∨ t = .at2 0 1 ∧ n = 3
  te _ _ := false
  tc t u := t = .at2 0 0 ∧ u = .at2 0 1
  tp _ _ := false
  ncl _ k := k = 0
  tcl _ _ := false
  tse _ := 0

theorem freshModel_oneBelowTheOther :
    FreshModel sharedOutputSpecification rowParams ⟨0, 1⟩ oneBelowTheOther where
  generated := {
    restrictTileElements := by decide
    restrictVertices := by decide
    defineGateFanoutTiles := by decide
    defineGateFaninTiles := by decide
    defineWireFanoutTiles := by decide
    defineWireFaninTiles := by decide
    assignPiClockings := by decide
    globalSynchronization := by decide
    restrictClocks := by decide
    establishSubPaths := by decide
    establishTransitivePaths := by decide
    eliminateCycles := by decide
    enforceBorderIo := by decide
    enforceStraightInverters := by decide
    restrictSynchronizationElements := by decide
    technologySpecificConstraints := fun h => absurd h (by decide)
    preventInsufficiencies := by decide
    defineNumberOfConnections := by decide
    utilizeHierarchicalInformation := by
      refine ⟨fun h => absurd h (by decide), fun _ _ _ => ?_, fun h => absurd h (by decide)⟩
      unfold prohibit
      decide }
  assumed := {
    technologySpecificConstraints := fun h => absurd h (by decide)
    preventInsufficiencies := by decide
    utilizeHierarchicalInformation := by
      refine ⟨fun h => absurd h (by decide), fun _ _ _ => ?_, fun h => absurd h (by decide)⟩
      unfold prohibit
      decide }

theorem statesGrow_sharedOutput {p : ExactParams} (htech : p.technologySpecifics = .none)
    (hclock : p.isClockingScheme .twoddwave = false) :
    StatesGrow sharedOutputSpecification p where
  fanins _ := .inl (by decide)
  forward h := by
    rw [htech] at h
    cases h
  diagonals h := by
    rw [hclock] at h
    cases h

/-- Under columnar clocking, the synchronous exploration skips the first aspect ratio, too. -/
theorem columnar_agrees_iff : ∃ (check : (Valuation → Prop) → Bool) (sat : AspectRatio → Bool),
    (∀ φ, check φ = true ↔ Satisfiable φ) ∧
    (∀ ar, sat ar = true ↔
      Satisfiable (scratch sharedOutputSpecification (columnarParams true) ar)) ∧
    (∀ f : ℕ → ThreadStep, ∃ k, ¬ (explorationSystem sharedOutputSpecification
      (columnarParams true) check 2 0).Legal ((List.range k).map f)) ∧
    ∀ ls, (explorationSystem sharedOutputSpecification (columnarParams true) check 2 0).Legal ls →
      (∀ l, ¬ (explorationSystem sharedOutputSpecification (columnarParams true) check 2 0).enabled
        ((explorationSystem sharedOutputSpecification (columnarParams true) check 2 0).run ls) l) →
      Complete 2
        ((explorationSystem sharedOutputSpecification (columnarParams true) check 2 0).run ls) ∧
      ((extractResult 2 ((explorationSystem sharedOutputSpecification (columnarParams true)
          check 2 0).run ls)).map AspectRatio.area =
        (runSynchronouslyFrom sharedOutputSpecification (columnarParams true) check 0).map
          AspectRatio.area ↔
            FirstIsNoLoss sharedOutputSpecification (columnarParams true) sat 0) := by
  classical
  have hcheck : ∀ φ : Valuation → Prop, decide (Satisfiable φ) = true ↔ Satisfiable φ :=
    fun φ => decide_eq_true_iff
  have hsat : ∀ ar,
      decide (Satisfiable (scratch sharedOutputSpecification (columnarParams true) ar)) = true ↔
        Satisfiable (scratch sharedOutputSpecification (columnarParams true) ar) :=
    fun ar => decide_eq_true_iff
  exact ⟨_, _, hcheck, hsat, asynchronous_agrees_iff
    (answersBy_of_correct (.columnar .four) (statesGrow_sharedOutput rfl (by decide)) hcheck hsat)
    (rotationKeeps_of_correct (.columnar .four) (fun h => absurd h (by decide)) hsat)
    (by decide) 0⟩

theorem firstIsLoss_row {sat : AspectRatio → Bool}
    (hsat : ∀ ar, sat ar = true ↔ Satisfiable (scratch sharedOutputSpecification rowParams ar)) :
    ¬ FirstIsNoLoss sharedOutputSpecification rowParams sat 0 := by
  intro hloss
  have hsize : firstSize sharedOutputSpecification 0 = 2 := by decide
  have hfirst : (AspectRatioIterator.start 2).deref = ⟨0, 1⟩ := by decide +kernel
  unfold FirstIsNoLoss at hloss
  rw [hsize, hfirst] at hloss
  obtain ⟨ar, hne, harea, hc⟩ := hloss ⟨by decide, by decide,
    (hsat _).mpr (satisfiable_scratch_iff.mpr ⟨_, freshModel_oneBelowTheOther⟩),
    fun _ => by decide⟩
  have htwo : ∀ a ∈ factorize 2, a = ⟨0, 1⟩ ∨ a = ⟨1, 0⟩ := by decide +kernel
  rcases htwo ar (mem_factorize.mpr harea) with rfl | rfl
  · exact hne rfl
  · exact absurd (hc.not_skippable rfl) (by decide)

/-- Under row clocking, the only layout with two tiles is missed. -/
theorem row_not_agrees :
    ¬ ∀ (S : SpecificationNetwork) (p : ExactParams) (check : (Valuation → Prop) → Bool)
      (sat : AspectRatio → Bool) (numThreads fixedSize : ℕ) (ls : List ThreadStep),
      NamedScheme.Predefined p.arrangement p.scheme → (∀ φ, check φ = true ↔ Satisfiable φ) →
      AnswersBy S p check sat → RotationKeeps p sat → 2 ≤ numThreads →
      (explorationSystem S p check numThreads fixedSize).Legal ls →
      Complete numThreads ((explorationSystem S p check numThreads fixedSize).run ls) →
        (extractResult numThreads
          ((explorationSystem S p check numThreads fixedSize).run ls)).map AspectRatio.area =
            (runSynchronouslyFrom S p check fixedSize).map AspectRatio.area := by
  classical
  intro hall
  have hcheck : ∀ φ : Valuation → Prop, decide (Satisfiable φ) = true ↔ Satisfiable φ :=
    fun φ => decide_eq_true_iff
  have hsat : ∀ ar, decide (Satisfiable (scratch sharedOutputSpecification rowParams ar)) = true ↔
      Satisfiable (scratch sharedOutputSpecification rowParams ar) := fun ar => decide_eq_true_iff
  have hans := answersBy_of_correct (p := rowParams) (.row .four)
    (statesGrow_sharedOutput rfl (by decide)) hcheck hsat
  have hrot := rotationKeeps_of_correct (p := rowParams) (.row .four)
    (fun h => absurd h (by decide)) hsat
  obtain ⟨ls, hl, hcomplete⟩ := exists_complete_run sharedOutputSpecification rowParams
    (fun φ => decide (Satisfiable φ)) 2 0
  refine firstIsLoss_row hsat ((agrees_iff_of_complete hans hrot (by decide) hl hcomplete).mp ?_)
  exact hall _ _ _ _ 2 0 ls (.row .four) hcheck hans hrot (by decide) hl hcomplete

end Row

end Fiction.Exact
