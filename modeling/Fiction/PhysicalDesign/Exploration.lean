import Fiction.PhysicalDesign.SolverStates

/-!
# Minimality of the exploration

The exploration finds a smallest aspect ratio whose instance from scratch is satisfiable if the
aspect ratios that it skips, that it refutes with reused solvers or that are below the lower bound
have no model from scratch.
-/

namespace Fiction.Exact

/-- No smaller aspect ratio than the result has a satisfiable instance from scratch; without a
result, none has up to the upper bound. -/
def Minimal (S : SpecificationNetwork) (p : ExactParams) : Option AspectRatio → Prop
  | some ar => ∀ ar' : AspectRatio, ar'.area < ar.area → ¬ Satisfiable (scratch S p ar')
  | none => ∀ ar' : AspectRatio, ar'.area ≤ p.upperBound → ¬ Satisfiable (scratch S p ar')

/-- The iterators and handlers that the loop of `run_synchronously` goes through. -/
inductive Explored (S : SpecificationNetwork) (p : ExactParams) :
    AspectRatioIterator → SmtHandler → Prop
  | start : Explored S p (.start (lowerBound S)) .init
  | skip {it : AspectRatioIterator} {h : SmtHandler} : Explored S p it h →
      it.num ≤ p.upperBound → skippable S p h.ar it.deref = true → Explored S p it.advance h
  | refute {it : AspectRatioIterator} {h : SmtHandler} : Explored S p it h →
      it.num ≤ p.upperBound → skippable S p h.ar it.deref = false →
      ¬ Satisfiable (query S p (fetchSolver h it.deref).1) →
        Explored S p it.advance (examined S p h it.deref)

variable {S : SpecificationNetwork} {p : ExactParams} {check : (Valuation → Prop) → Bool}

theorem small_layout {ar : AspectRatio} (h : ar.area ≤ p.upperBound) : (p.layout ar).Small := by
  have hx := ar.x_lt_area
  have hy := ar.y_lt_area
  have hb := p.upperBound_lt
  exact ⟨show ar.x < 2 ^ 31 - 1 by omega, show ar.y < 2 ^ 31 - 1 by omega⟩

theorem Explored.soundTree {it : AspectRatioIterator} {h : SmtHandler} (he : Explored S p it h) :
    SoundTree S p h := by
  induction he with
  | start => exact soundTree_init
  | skip _ _ _ ih => exact ih
  | @refute it h _ hb _ _ ih =>
    have hS := small_layout (p := p) (it.area_deref.trans_le hb)
    exact ih.examined hS.1 hS.2

theorem explore_minimal (hcheck : ∀ φ, check φ = true ↔ Satisfiable φ)
    (hskip : ∀ it h, Explored S p it h → it.num ≤ p.upperBound →
      skippable S p h.ar it.deref = true → ¬ Satisfiable (scratch S p it.deref))
    (hrefute : ∀ it h, Explored S p it h → it.num ≤ p.upperBound →
      skippable S p h.ar it.deref = false →
      ¬ Satisfiable (query S p (fetchSolver h it.deref).1) →
        ¬ Satisfiable (scratch S p it.deref))
    (it : AspectRatioIterator) (h : SmtHandler) (he : Explored S p it h)
    (hpassed : ∀ ar, it.Passed ar → ¬ Satisfiable (scratch S p ar)) :
    Minimal S p (explore S p check it h) := by
  induction it, h using explore.induct S p check with
  | case1 it h hb hs ih =>
    rw [explore, if_pos hb, if_pos hs]
    refine ih (.skip he hb hs) fun ar har => ?_
    rcases AspectRatioIterator.passed_of_passed_advance har with hp | rfl
    · exact hpassed ar hp
    · exact hskip it h he hb hs
  | case2 it h hb hs c hc =>
    rw [explore, if_pos hb, if_neg hs]
    simp only [c] at hc
    simp only [hc, if_true]
    intro ar har
    rw [it.area_deref] at har
    exact hpassed ar (.inl har)
  | case3 it h hb hs c hc h' ih =>
    rw [explore, if_pos hb, if_neg hs]
    simp only [c] at hc
    have hs := Bool.eq_false_iff.mpr hs
    have hunsat : ¬ Satisfiable (query S p (fetchSolver h it.deref).1) :=
      fun hsat => hc ((hcheck _).mpr hsat)
    simp only [hc, if_false, Bool.false_eq_true]
    refine ih (.refute he hb hs hunsat) fun ar har => ?_
    rcases AspectRatioIterator.passed_of_passed_advance har with hp | rfl
    · exact hpassed ar hp
    · exact hrefute it h he hb hs hunsat
  | case4 it h hb =>
    rw [explore, if_neg hb]
    intro ar har
    exact hpassed ar (.inl (by omega))

theorem of_explore_eq_some {it : AspectRatioIterator} {h : SmtHandler} {ar : AspectRatio}
    (hrun : explore S p check it h = some ar) :
    it.num ≤ ar.area ∧ ar.area ≤ p.upperBound ∧ ∃ lyt, skippable S p lyt ar = false := by
  induction it, h using explore.induct S p check with
  | case1 it h hb hs ih =>
    rw [explore, if_pos hb, if_pos hs] at hrun
    obtain ⟨hnum, hrest⟩ := ih hrun
    exact ⟨it.num_le_num_advance.trans hnum, hrest⟩
  | case2 it h hb hs c hc =>
    rw [explore, if_pos hb, if_neg hs] at hrun
    simp only [c] at hc
    simp only [hc, if_true, Option.some.injEq] at hrun
    subst hrun
    exact ⟨it.area_deref.ge, it.area_deref.trans_le hb, h.ar, Bool.eq_false_iff.mpr hs⟩
  | case3 it h hb hs c hc h' ih =>
    rw [explore, if_pos hb, if_neg hs] at hrun
    simp only [c] at hc
    simp only [hc, if_false, Bool.false_eq_true] at hrun
    obtain ⟨hnum, hrest⟩ := ih hrun
    exact ⟨it.num_le_num_advance.trans hnum, hrest⟩
  | case4 it h hb =>
    rw [explore, if_neg hb] at hrun
    cases hrun

end Fiction.Exact
