import Fiction.PhysicalDesign.AsynchronousExploration
import Fiction.Library.ParallelSearch

/-!
# What holds while the threads explore

If the answers of the solver depend on the aspect ratio only, every thread drops an aspect ratio for
a good reason: it exceeds the upper bound, it is unsatisfiable, or a published result is not larger.
Interrupted threads are on aspect ratios that are not smaller than a published result.
-/

namespace Fiction.Exact

open ParallelSearch (Beaten Move Covered)

variable (S : SpecificationNetwork) (p : ExactParams) (check : (Valuation → Prop) → Bool)

/-- The handlers of a thread that has stored the states of refuted instances only. -/
inductive Refuting : AspectRatioIterator → SmtHandler → Prop
  | start (n : ℕ) : Refuting (.start n) .init
  | pass {it : AspectRatioIterator} {h : SmtHandler} : Refuting it h → Refuting it.advance h
  | store {it : AspectRatioIterator} {h : SmtHandler} : Refuting it h →
      it.num ≤ p.upperBound → skippable S p h.ar it.deref = false →
      check (query S p (fetchSolver h it.deref).1) = false →
        Refuting it.advance (examined S p h it.deref)

/-- The answers of the solver depend on the aspect ratio only. -/
def AnswersBy (sat : AspectRatio → Bool) : Prop :=
  ∀ it h, Refuting S p check it h → it.num ≤ p.upperBound →
    skippable S p h.ar it.deref = false →
      check (query S p (fetchSolver h it.deref).1) = sat it.deref

/-- Without a regular clocking, the rotation of an aspect ratio gets the same answer. -/
def RotationKeeps (sat : AspectRatio → Bool) : Prop :=
  p.isRegularlyClocked = false → ∀ ar : AspectRatio, ar.area ≤ p.upperBound →
    sat ar.rotate = sat ar

/-- An aspect ratio that a thread would not skip and for which there is a layout. -/
structure Candidate (sat : AspectRatio → Bool) (n : ℕ) (ar : AspectRatio) : Prop where
  le_area : n ≤ ar.area
  area_le : ar.area ≤ p.upperBound
  sat : sat ar = true
  not_skippable : p.isRegularlyClocked = true → skippable S p ⟨0, 0⟩ ar = false

/-- The candidates behind the first aspect ratio. -/
def LaterCandidate (sat : AspectRatio → Bool) (n : ℕ) (ar : AspectRatio) : Prop :=
  Candidate S p sat n ar ∧ ar ≠ (AspectRatioIterator.start n).deref

section Handlers

variable {S p check} {sat : AspectRatio → Bool} {n : ℕ} {it ari ari' : AspectRatioIterator}
  {h : SmtHandler} {ar lyt : AspectRatio}

theorem Refuting.reaches (hr : Refuting S p check it h) (hit : it.Reaches ari) :
    Refuting S p check ari h :=
  hit.induct (P := fun i => Refuting S p check i h) hr fun _ => .pass

theorem Refuting.refuted (hans : AnswersBy S p check sat) (hr : Refuting S p check it h) :
    h.ar.x ≠ h.ar.y → sat h.ar = false := by
  induction hr with
  | start n => exact fun hne => absurd rfl hne
  | pass hr ih => exact ih
  | store hr hb hs hc ih => exact fun _ => (hans _ _ hr hb hs).symm.trans hc

theorem skippable_regular (hreg : p.isRegularlyClocked = true) (lyt lyt' : AspectRatio) :
    skippable S p lyt ar = skippable S p lyt' ar := by
  unfold skippable
  rw [hreg, Bool.not_true, if_neg Bool.false_ne_true, if_neg Bool.false_ne_true]

theorem Candidate.rotate_of_skippable (hrot : RotationKeeps p sat) (hc : Candidate S p sat n ar)
    (hskip : skippable S p lyt ar = true) :
    lyt.area = ar.area ∧ lyt.x ≠ lyt.y ∧ sat lyt = true := by
  cases hreg : p.isRegularlyClocked with
  | true =>
    rw [skippable_regular hreg lyt ⟨0, 0⟩, hc.not_skippable hreg] at hskip
    cases hskip
  | false =>
    unfold skippable at hskip
    rw [hreg, Bool.not_false, if_pos rfl] at hskip
    obtain ⟨hne, hx, hy⟩ := of_decide_eq_true hskip
    have heq : lyt = ar.rotate := AspectRatio.ext hy.symm hx.symm
    subst heq
    exact ⟨AspectRatio.area_rotate ar, fun h => hne h.symm,
      (hrot hreg ar hc.area_le).trans hc.sat⟩

end Handlers

section Points

variable (sat : AspectRatio → Bool) (n : ℕ)

/-- The handler only has states of refuted instances, or it will not be used any more. -/
def Usable (it : AspectRatioIterator) (h : SmtHandler) (best : Option AspectRatio) : Prop :=
  Refuting S p check it h ∨ Beaten AspectRatio.area best h.ar.area

/-- `ar` has been taken at `it`. -/
structure TakenAt (ari it : AspectRatioIterator) (ar : AspectRatio) : Prop where
  deref : it.deref = ar
  start : (AspectRatioIterator.start n).advance.Reaches it
  reaches : it.Reaches ari

/-- What a thread has examined and recorded has no more than `a` tiles. -/
structure Below (h : SmtHandler) (recorded : AspectRatio) (a : ℕ) : Prop where
  handler : h.ar.area ≤ a
  recorded : recorded.area ≤ a

/-- What a thread knows at each point. -/
def PointOk (ari : AspectRatioIterator) (best : Option AspectRatio) (w : Worker) : Prop :=
  match w.point with
  | .create => Usable S p check ari.advance w.handler best ∧
      Below w.handler w.workerAspectRatio ari.advance.num ∧ w.workerAspectRatio = ⟨0, 0⟩
  | .fetch => Usable S p check ari.advance w.handler best ∧
      Below w.handler w.workerAspectRatio ari.advance.num
  | .examine ar => ∃ it, TakenAt n ari it ar ∧ Usable S p check it w.handler best ∧
      Below w.handler w.workerAspectRatio ar.area
  | .compare ar => ∃ it, TakenAt n ari it ar ∧ Usable S p check it w.handler best ∧
      Below w.handler w.workerAspectRatio ar.area ∧ ar.area ≤ p.upperBound ∧
      skippable S p w.handler.ar ar = false
  | .record ar => ∃ it, TakenAt n ari it ar ∧ Refuting S p check it w.handler ∧
      Below w.handler w.workerAspectRatio ar.area ∧ ar.area ≤ p.upperBound ∧
      skippable S p w.handler.ar ar = false
  | .solve ar c => ∃ it h, TakenAt n ari it ar ∧ Refuting S p check it h ∧
      ar.area ≤ p.upperBound ∧ skippable S p h.ar ar = false ∧ c = (fetchSolver h ar).1 ∧
      w.handler = update h ar ∧ w.workerAspectRatio = ar
  | .publish ar => (∃ it, TakenAt n ari it ar) ∧ LaterCandidate S p sat n ar ∧
      w.handler.ar = ar ∧ w.workerAspectRatio = ar
  | .interrupt ar _ => Beaten AspectRatio.area best ar.area ∧ ar.area ≤ ari.num ∧
      LaterCandidate S p sat n ar ∧ w.handler.ar = ar
  | .returned (some l) => Beaten AspectRatio.area best l.area ∧ l.area ≤ ari.num
  | .returned none => p.upperBound < ari.num ∨ Beaten AspectRatio.area best ari.num

def ProgramPoint.held : ProgramPoint → Option AspectRatio
  | .examine ar | .compare ar | .record ar | .solve ar _ | .publish ar => some ar
  | _ => none

/-- The thread has published `r`. -/
def ProgramPoint.HasPublished (r : AspectRatio) : ProgramPoint → Prop
  | .interrupt ar _ => ar = r
  | .returned (some l) => l = r
  | _ => False

variable (numThreads : ℕ)

/-- The threads as workers of a search. -/
def toSearch (s : ExplorationState) : ParallelSearch (Fin numThreads) AspectRatio where
  taken ar := s.ari.advance.Passed ar ∧ ¬ (AspectRatioIterator.start n).advance.Passed ar
  best := s.resultAspectRatio
  held i := (s.workers i).point.held

structure Inv (s : ExplorationState) : Prop where
  start : (AspectRatioIterator.start n).Reaches s.ari
  points : ∀ i < numThreads, PointOk S p check sat n s.ari s.resultAspectRatio (s.workers i)
  interrupted : ∀ i < numThreads, (s.workers i).interrupted = true →
    Beaten AspectRatio.area s.resultAspectRatio (s.workers i).workerAspectRatio.area
  winner : ∀ r, s.resultAspectRatio = some r →
    ∃ i < numThreads, (s.workers i).point.HasPublished r
  covered : Covered AspectRatio.area (LaterCandidate S p sat n) (toSearch n numThreads s)

end Points

section Steps

variable {S p check} {sat : AspectRatio → Bool} {n numThreads : ℕ} {s : ExplorationState}
  {ari ari' it : AspectRatioIterator} {best best' : Option AspectRatio} {w w' : Worker}
  {ar : AspectRatio} {i : ℕ}

theorem TakenAt.mono (h : TakenAt n ari it ar) (hari : ari.Reaches ari') : TakenAt n ari' it ar :=
  ⟨h.deref, h.start, h.reaches.trans hari⟩

theorem TakenAt.area_le (h : TakenAt n ari it ar) : ar.area ≤ ari.num := by
  rw [← h.deref, it.area_deref]
  exact h.reaches.num_le

theorem Usable.mono {h : SmtHandler} (hu : Usable S p check it h best)
    (hbest : ∀ a, Beaten AspectRatio.area best a → Beaten AspectRatio.area best' a) :
    Usable S p check it h best' := hu.imp_right (hbest _)

theorem Usable.reaches {h : SmtHandler} (hu : Usable S p check it h best)
    (hit : it.Reaches ari) : Usable S p check ari h best :=
  hu.imp_left fun hr => hr.reaches hit

theorem Below.mono {h : SmtHandler} {recorded : AspectRatio} {a b : ℕ} (hb : Below h recorded a)
    (hab : a ≤ b) : Below h recorded b :=
  ⟨hb.handler.trans hab, hb.recorded.trans hab⟩

theorem PointOk.mono (h : PointOk S p check sat n ari best w) (hari : ari.Reaches ari')
    (hbest : ∀ a, Beaten AspectRatio.area best a → Beaten AspectRatio.area best' a) :
    PointOk S p check sat n ari' best' w := by
  have hnum := hari.num_le
  have hadv : ari.advance.Reaches ari'.advance := hari.induct
    (P := fun i => ari.advance.Reaches i.advance) (.refl _) fun _ => .advance
  unfold PointOk at h ⊢
  cases hpt : w.point with
  | create =>
    simp only [hpt] at h ⊢
    exact ⟨(h.1.reaches hadv).mono hbest, h.2.1.mono hadv.num_le, h.2.2⟩
  | fetch =>
    simp only [hpt] at h ⊢
    exact ⟨(h.1.reaches hadv).mono hbest, h.2.mono hadv.num_le⟩
  | examine ar =>
    simp only [hpt] at h ⊢
    obtain ⟨it, ht, hu, hb⟩ := h
    exact ⟨it, ht.mono hari, hu.mono hbest, hb⟩
  | compare ar =>
    simp only [hpt] at h ⊢
    obtain ⟨it, ht, hu, hb⟩ := h
    exact ⟨it, ht.mono hari, hu.mono hbest, hb⟩
  | record ar =>
    simp only [hpt] at h ⊢
    obtain ⟨it, ht, hr⟩ := h
    exact ⟨it, ht.mono hari, hr⟩
  | solve ar c =>
    simp only [hpt] at h ⊢
    obtain ⟨it, h', ht, hr⟩ := h
    exact ⟨it, h', ht.mono hari, hr⟩
  | publish ar =>
    simp only [hpt] at h ⊢
    obtain ⟨⟨it, ht⟩, hr⟩ := h
    exact ⟨⟨it, ht.mono hari⟩, hr⟩
  | interrupt ar k =>
    simp only [hpt] at h ⊢
    exact ⟨hbest _ h.1, h.2.1.trans hnum, h.2.2⟩
  | returned l =>
    simp only [hpt] at h ⊢
    cases l with
    | some l => exact ⟨hbest _ h.1, h.2.trans hnum⟩
    | none => exact h.imp (fun hlt => hlt.trans_le hnum) fun hb => (hbest _ hb).mono hnum

/-- A step of thread `i` that changes its own data, the iterator and the result. -/
theorem Inv.update (h : Inv S p check sat n numThreads s) (hi : i < numThreads)
    (hari : s.ari.Reaches ari')
    (hmove : Move AspectRatio.area (LaterCandidate S p sat n) (toSearch n numThreads s)
      (toSearch n numThreads ⟨ari', best', Function.update s.workers i w'⟩) ⟨i, hi⟩)
    (hpoint : PointOk S p check sat n ari' best' w')
    (hint : w'.interrupted = true → Beaten AspectRatio.area best' w'.workerAspectRatio.area)
    (hwinner : ∀ r, best' = some r → w'.point.HasPublished r ∨
      s.resultAspectRatio = some r ∧ ¬ (s.workers i).point.HasPublished r) :
    Inv S p check sat n numThreads ⟨ari', best', Function.update s.workers i w'⟩ := by
  have hbest : ∀ a, Beaten AspectRatio.area s.resultAspectRatio a →
      Beaten AspectRatio.area best' a := fun a => hmove.beaten
  refine ⟨h.start.trans hari, fun j hj => ?_, fun j hj hint' => ?_, fun r hr => ?_,
    hmove.covered (fun j hne => ?_) h.covered⟩
  · by_cases heq : j = i
    · subst heq
      simpa only [Function.update_self] using hpoint
    · simpa only [Function.update_of_ne heq] using (h.points j hj).mono hari hbest
  · by_cases heq : j = i
    · subst heq
      simp only [Function.update_self] at hint' ⊢
      exact hint hint'
    · simp only [Function.update_of_ne heq] at hint' ⊢
      exact hbest _ (h.interrupted j hj hint')
  · rcases hwinner r hr with hw | ⟨hold, hnot⟩
    · refine ⟨i, hi, ?_⟩
      simpa only [Function.update_self] using hw
    · obtain ⟨j, hj, hw⟩ := h.winner r hold
      have hne : j ≠ i := by
        rintro rfl
        exact hnot hw
      refine ⟨j, hj, ?_⟩
      simpa only [Function.update_of_ne hne] using hw
  · have hne' : (j : ℕ) ≠ i := fun heq => hne (Fin.ext heq)
    change (Function.update s.workers i w' j).point.held = _
    rw [Function.update_of_ne hne']
    rfl

/-- A step that changes neither the iterator nor the result. -/
theorem Inv.setWorker (h : Inv S p check sat n numThreads s) (hi : i < numThreads)
    (hmove : w'.point.held = (s.workers i).point.held ∨
      ∃ ar, (s.workers i).point.held = some ar ∧
        (LaterCandidate S p sat n ar → Beaten AspectRatio.area s.resultAspectRatio ar.area))
    (hpoint : PointOk S p check sat n s.ari s.resultAspectRatio w')
    (hint : w'.interrupted = true →
      Beaten AspectRatio.area s.resultAspectRatio w'.workerAspectRatio.area)
    (hwinner : ∀ r, (s.workers i).point.HasPublished r → w'.point.HasPublished r) :
    Inv S p check sat n numThreads (s.setWorker i w') := by
  refine h.update hi (.refl _) ?_ hpoint hint fun r hr => ?_
  · rcases hmove with hheld | ⟨ar, hheld, hb⟩
    · refine .idle ?_ rfl rfl
      change (Function.update s.workers i w' i).point.held = _
      rw [Function.update_self]
      exact hheld
    · exact .drop ar hheld hb rfl rfl
  · by_cases hold : (s.workers i).point.HasPublished r
    · exact .inl (hwinner r hold)
    · exact .inr ⟨hr, hold⟩

theorem Inv.goto (h : Inv S p check sat n numThreads s) (hi : i < numThreads) {pt : ProgramPoint}
    (hmove : pt.held = (s.workers i).point.held ∨
      ∃ ar, (s.workers i).point.held = some ar ∧
        (LaterCandidate S p sat n ar → Beaten AspectRatio.area s.resultAspectRatio ar.area))
    (hpoint : PointOk S p check sat n s.ari s.resultAspectRatio { s.workers i with point := pt })
    (hwinner : ∀ r, (s.workers i).point.HasPublished r → pt.HasPublished r) :
    Inv S p check sat n numThreads (s.goto i pt) :=
  h.setWorker hi hmove hpoint (h.interrupted i hi) hwinner

theorem interruptWorker_eq (s : ExplorationState) (ar : AspectRatio) (k i : ℕ) :
    ((interruptWorker s ar k).workers i).point = (s.workers i).point ∧
      ((interruptWorker s ar k).workers i).handler = (s.workers i).handler ∧
      (interruptWorker s ar k).ari = s.ari ∧
      (interruptWorker s ar k).resultAspectRatio = s.resultAspectRatio := by
  unfold interruptWorker
  split_ifs
  · by_cases heq : i = k
    · subst heq
      simp only [ExplorationState.setWorker, Function.update_self, and_self]
    · simp only [ExplorationState.setWorker, Function.update_of_ne heq, and_self]
  · exact ⟨rfl, rfl, rfl, rfl⟩

theorem Inv.interruptWorker (h : Inv S p check sat n numThreads s) {k : ℕ}
    (hk : k < numThreads) (hb : Beaten AspectRatio.area s.resultAspectRatio ar.area) :
    Inv S p check sat n numThreads (interruptWorker s ar k) := by
  unfold Exact.interruptWorker
  split_ifs with hle
  · exact h.setWorker hk (.inl rfl) (h.points k hk) (fun _ => hb.mono hle) fun r hr => hr
  · exact h

section Rounds

variable (hans : AnswersBy S p check sat) (hrot : RotationKeeps p sat)
  (h : Inv S p check sat n numThreads s) (hi : i < numThreads)
include h hi

theorem Inv.fetch (hpt : (s.workers i).point = .fetch) :
    Inv S p check sat n numThreads (fetchRatio s i) := by
  have hpoint := h.points i hi
  unfold PointOk at hpoint
  simp only [hpt] at hpoint
  refine h.update hi (AspectRatioIterator.Reaches.refl s.ari).advance ?_ ?_ ?_ fun r hr => ?_
  · refine .take s.ari.advance.deref ?_ ?_ ?_ rfl
    · exact congrArg ProgramPoint.held hpt
    · change (Function.update s.workers i _ i).point.held = _
      rw [Function.update_self]
      rfl
    · rintro ar ⟨hp, hn⟩
      rcases AspectRatioIterator.passed_of_passed_advance hp with hp | heq
      · exact .inl ⟨hp, hn⟩
      · exact .inr heq
  · refine ⟨s.ari.advance, ⟨rfl, ?_, .refl _⟩, hpoint.1, ?_⟩
    · exact h.start.induct
        (P := fun i => (AspectRatioIterator.start n).advance.Reaches i.advance) (.refl _)
        fun _ => .advance
    · rw [AspectRatioIterator.area_deref]
      exact hpoint.2
  · exact fun hint => h.interrupted i hi hint
  · exact .inr ⟨hr, by rw [hpt]; exact id⟩

theorem Inv.examine (hrot : RotationKeeps p sat) (hans : AnswersBy S p check sat)
    (hpt : (s.workers i).point = .examine ar) :
    Inv S p check sat n numThreads (examineRatio S p s i ar) := by
  have hpoint := h.points i hi
  unfold PointOk at hpoint
  simp only [hpt] at hpoint
  obtain ⟨it, ht, hu, hb⟩ := hpoint
  have hheld : (s.workers i).point.held = some ar := congrArg ProgramPoint.held hpt
  have hnew : ∀ (r : AspectRatio) (P : Prop), (s.workers i).point.HasPublished r → P := by
    intro r P hp
    rw [hpt] at hp
    exact hp.elim
  unfold examineRatio
  split_ifs with hlt hskip
  · refine h.goto hi (.inr ⟨ar, hheld, fun hc => ?_⟩) (.inl (hlt.trans_le ht.area_le))
      fun r => hnew r _
    exact absurd hc.1.area_le (Nat.not_le.mpr hlt)
  · refine h.goto hi (.inr ⟨ar, hheld, fun hc => ?_⟩) ?_ fun r => hnew r _
    · obtain ⟨harea, hne, hsat⟩ := hc.1.rotate_of_skippable hrot hskip
      rcases hu with hr | hbeaten
      · rw [hr.refuted hans hne] at hsat
        cases hsat
      · exact harea ▸ hbeaten
    · exact ⟨hu.reaches ht.reaches.advance,
        hb.mono (ht.area_le.trans s.ari.num_le_num_advance)⟩
  · exact h.goto hi (.inl hheld.symm)
      ⟨it, ht, hu, hb, Nat.not_lt.mp hlt, Bool.eq_false_iff.mpr hskip⟩ fun r => hnew r _

theorem Inv.compare (hpt : (s.workers i).point = .compare ar) :
    Inv S p check sat n numThreads (compareRatio s i ar) := by
  have hpoint := h.points i hi
  unfold PointOk at hpoint
  simp only [hpt] at hpoint
  obtain ⟨it, ht, hu, hb, hub, hskip⟩ := hpoint
  have hheld : (s.workers i).point.held = some ar := congrArg ProgramPoint.held hpt
  have hnew : ∀ (r : AspectRatio) (P : Prop), (s.workers i).point.HasPublished r → P := by
    intro r P hp
    rw [hpt] at hp
    exact hp.elim
  unfold compareRatio
  by_cases hbeaten : Beaten AspectRatio.area s.resultAspectRatio ar.area
  · obtain ⟨r, hr, hle⟩ := id hbeaten
    simp only [hr, if_pos hle]
    exact h.goto hi (.inr ⟨ar, hheld, fun _ => hbeaten⟩) (.inr (hbeaten.mono ht.area_le))
      fun r => hnew r _
  · have hr : Refuting S p check it (s.workers i).handler :=
      hu.resolve_right fun hu => hbeaten (hu.mono hb.handler)
    have hrecord : Inv S p check sat n numThreads (s.goto i (.record ar)) :=
      h.goto hi (.inl hheld.symm) ⟨it, ht, hr, hb, hub, hskip⟩ fun r => hnew r _
    cases hres : s.resultAspectRatio with
    | none => exact hrecord
    | some r =>
      have hlt : ¬ r.area ≤ ar.area := fun hle => hbeaten ⟨r, hres, hle⟩
      simp only [if_neg hlt]
      exact hrecord

theorem Inv.record (hpt : (s.workers i).point = .record ar) :
    Inv S p check sat n numThreads (recordRatio s i ar) := by
  have hpoint := h.points i hi
  unfold PointOk at hpoint
  simp only [hpt] at hpoint
  obtain ⟨it, ht, hr, hb, hub, hskip⟩ := hpoint
  refine h.setWorker hi (.inl (congrArg ProgramPoint.held hpt).symm)
    ⟨it, _, ht, hr, hub, hskip, rfl, rfl, rfl⟩ (fun hint => ?_) fun r hp => ?_
  · exact (h.interrupted i hi hint).mono hb.recorded
  · rw [hpt] at hp
    exact hp.elim

/-- A thread that has not found a layout goes on. -/
theorem Inv.refute {c : SolverCheckPoint} (hpt : (s.workers i).point = .solve ar c)
    (hno : check (query S p c) = false ∨
      Beaten AspectRatio.area s.resultAspectRatio ar.area) (hans : AnswersBy S p check sat) :
    Inv S p check sat n numThreads (refuteRatio S p s i ar c) := by
  have hpoint := h.points i hi
  unfold PointOk at hpoint
  simp only [hpt] at hpoint
  obtain ⟨it, h₀, ht, hr, hub, hskip, rfl, hh, hrec⟩ := hpoint
  have hb : it.num ≤ p.upperBound := by
    rw [← it.area_deref, ht.deref]
    exact hub
  have hanswer := hans it h₀ hr hb (by rw [ht.deref]; exact hskip)
  rw [ht.deref] at hanswer
  refine h.setWorker hi (.inr ⟨ar, congrArg ProgramPoint.held hpt, fun hc => ?_⟩) ⟨?_, ?_, ?_⟩
    (fun hint => h.interrupted i hi hint) fun r hp => ?_
  · rcases hno with hno | hbeaten
    · rw [hanswer, hc.1.sat] at hno
      cases hno
    · exact hbeaten
  · rcases hno with hno | hbeaten
    · left
      have hstore : Refuting S p check it.advance (examined S p h₀ it.deref) :=
        .store hr hb (by rw [ht.deref]; exact hskip) (by rw [ht.deref]; exact hno)
      rw [ht.deref] at hstore
      change Refuting S p check _ (storeSolverState S p (s.workers i).handler ar _)
      rw [hh]
      refine hstore.reaches ?_
      exact ht.reaches.induct (P := fun j => it.advance.Reaches j.advance) (.refl _)
        fun _ => .advance
    · right
      change Beaten _ _ (s.workers i).handler.ar.area
      rw [hh]
      exact hbeaten
  · change (s.workers i).handler.ar.area ≤ _
    rw [hh]
    exact ht.area_le.trans s.ari.num_le_num_advance
  · change (s.workers i).workerAspectRatio.area ≤ _
    rw [hrec]
    exact ht.area_le.trans s.ari.num_le_num_advance
  · rw [hpt] at hp
    exact hp.elim

theorem Inv.solve {c : SolverCheckPoint} (hans : AnswersBy S p check sat)
    (hpt : (s.workers i).point = .solve ar c) {outcome : SolverOutcome}
    (hout : outcome ≠ .answer → (s.workers i).interrupted = true) :
    Inv S p check sat n numThreads (solveRatio S p check s i ar c outcome) := by
  have hpoint := h.points i hi
  unfold PointOk at hpoint
  simp only [hpt] at hpoint
  obtain ⟨it, h₀, ht, hr, hub, hskip, hc, hh, hrec⟩ := hpoint
  have hheld : (s.workers i).point.held = some ar := congrArg ProgramPoint.held hpt
  have hnew : ∀ (r : AspectRatio) (P : Prop), (s.workers i).point.HasPublished r → P := by
    intro r P hp
    rw [hpt] at hp
    exact hp.elim
  have hbeaten : outcome ≠ .answer → Beaten AspectRatio.area s.resultAspectRatio ar.area :=
    fun ho => hrec ▸ h.interrupted i hi (hout ho)
  cases outcome with
  | exception =>
    have hb := hbeaten (by decide)
    exact h.goto hi (.inr ⟨ar, hheld, fun _ => hb⟩) (.inr (hb.mono ht.area_le)) fun r => hnew r _
  | unknown => exact h.refute hi hpt (.inr (hbeaten (by decide))) hans
  | answer =>
    unfold solveRatio
    by_cases hsat : check (query S p c) = true
    · rw [if_pos hsat]
      have hb : it.num ≤ p.upperBound := by
        rw [← it.area_deref, ht.deref]
        exact hub
      have hanswer := hans it h₀ hr hb (by rw [ht.deref]; exact hskip)
      rw [ht.deref, ← hc, hsat] at hanswer
      have hlater : LaterCandidate S p sat n ar := by
        refine ⟨⟨?_, hub, hanswer.symm, fun hreg => ?_⟩, ?_⟩
        · have hnum := (AspectRatioIterator.Reaches.refl (AspectRatioIterator.start n)).advance
          have hle := (hnum.trans ht.start).num_le
          rw [AspectRatioIterator.num_start, ← it.area_deref, ht.deref] at hle
          exact (le_max_left n 1).trans hle
        · rw [skippable_regular hreg ⟨0, 0⟩ h₀.ar]
          exact hskip
        · rw [← ht.deref]
          exact AspectRatioIterator.deref_ne_of_reaches ht.start
      refine h.goto hi (.inl hheld.symm) ⟨⟨it, ht⟩, hlater, ?_, hrec⟩ fun r => hnew r _
      change (s.workers i).handler.ar = ar
      rw [hh]
      rfl
    · rw [if_neg hsat]
      exact h.refute hi hpt (.inl (Bool.eq_false_iff.mpr hsat)) hans

theorem Inv.publish (hpt : (s.workers i).point = .publish ar) :
    Inv S p check sat n numThreads (publishRatio s i ar) := by
  have hpoint := h.points i hi
  unfold PointOk at hpoint
  simp only [hpt] at hpoint
  obtain ⟨⟨it, ht⟩, hlater, hh, hrec⟩ := hpoint
  have hheld : (s.workers i).point.held = some ar := congrArg ProgramPoint.held hpt
  have hwins : (∀ r, s.resultAspectRatio = some r → ar.area < r.area) →
      Inv S p check sat n numThreads
        ({ s with resultAspectRatio := some ar }.goto i (.interrupt ar 0)) := by
    intro hlt
    have hmove : Move AspectRatio.area (LaterCandidate S p sat n) (toSearch n numThreads s)
        (toSearch n numThreads ({ s with resultAspectRatio := some ar }.goto i (.interrupt ar 0)))
        ⟨i, hi⟩ := .publish ar hheld hlater hlt rfl rfl
    refine h.update hi (.refl _) hmove ⟨⟨ar, rfl, le_rfl⟩, ht.area_le, hlater, hh⟩
      (fun hint => ?_) fun r hr => ?_
    · exact hmove.beaten (h.interrupted i hi hint)
    · exact .inl (Option.some.inj hr)
  unfold publishRatio
  cases hres : s.resultAspectRatio with
  | none => exact hwins fun r hr => absurd (hres.symm.trans hr) (by simp)
  | some r =>
    by_cases hlt : ar.area < r.area
    · simp only [if_pos hlt]
      refine hwins fun r' hr' => ?_
      cases hres.symm.trans hr'
      exact hlt
    · -- another thread was not slower
      simp only [if_neg hlt]
      have hb : Beaten AspectRatio.area s.resultAspectRatio ar.area :=
        ⟨r, hres, Nat.not_lt.mp hlt⟩
      refine h.goto hi (.inr ⟨ar, hheld, fun _ => hb⟩) (.inr (hb.mono ht.area_le)) fun r hp => ?_
      rw [hpt] at hp
      exact hp.elim

theorem Inv.interrupt {k : ℕ} (hpt : (s.workers i).point = .interrupt ar k) :
    Inv S p check sat n numThreads (interruptNext numThreads s i ar k) := by
  have hpoint := h.points i hi
  unfold PointOk at hpoint
  simp only [hpt] at hpoint
  obtain ⟨hb, hle, hlater, hh⟩ := hpoint
  unfold interruptNext
  split_ifs with hk
  · obtain ⟨hp, hw, ha, hr⟩ := interruptWorker_eq s ar k i
    refine (h.interruptWorker hk hb).goto hi (.inl ?_) ?_ fun r hpub => ?_
    · rw [hp, hpt]
      rfl
    · rw [ha, hr]
      exact ⟨hb, hle, hlater, (congrArg SmtHandler.ar hw).trans hh⟩
    · rw [hp, hpt] at hpub
      exact hpub
  · rw [hh]
    refine h.goto hi (.inl (congrArg ProgramPoint.held hpt).symm) ⟨hb, hle⟩ fun r hpub => ?_
    rw [hpt] at hpub
    exact hpub

end Rounds

theorem Inv.step (hans : AnswersBy S p check sat) (hrot : RotationKeeps p sat)
    (h : Inv S p check sat n numThreads s) (hi : i < numThreads) {outcome : SolverOutcome}
    (hout : outcome ≠ .answer → (s.workers i).interrupted = true) :
    Inv S p check sat n numThreads (exploreAsynchronously S p check numThreads s i outcome) := by
  unfold exploreAsynchronously
  cases hpt : (s.workers i).point with
  | create =>
    have hpoint := h.points i hi
    unfold PointOk at hpoint
    simp only [hpt] at hpoint
    refine h.goto hi (.inl (congrArg ProgramPoint.held hpt).symm) ⟨hpoint.1, hpoint.2.1⟩
      fun r hp => ?_
    rw [hpt] at hp
    exact hp.elim
  | fetch => exact h.fetch hi hpt
  | examine ar => exact h.examine hi hrot hans hpt
  | compare ar => exact h.compare hi hpt
  | record ar => exact h.record hi hpt
  | solve ar c => exact h.solve hi hans hpt hout
  | publish ar => exact h.publish hi hpt
  | interrupt ar k => exact h.interrupt hi hpt
  | returned l => exact h

theorem LaterCandidate.two_le_area (h : LaterCandidate S p sat n ar) : 2 ≤ ar.area := by
  by_contra hlt
  have hpos := ar.area_pos
  have harea : ar.area = 1 := by omega
  have hn : (AspectRatioIterator.start n).num = 1 := by
    rw [AspectRatioIterator.num_start]
    exact max_eq_right (harea ▸ h.1.le_area)
  have hone : ∀ ar' : AspectRatio, ar'.area = 1 → ar' = ⟨0, 0⟩ := by
    intro ar' h1
    have hall : ∀ a ∈ factorize 1, a = ⟨0, 0⟩ := by decide
    exact hall ar' (mem_factorize.mpr h1)
  exact h.2 ((hone ar harea).trans (hone _ ((AspectRatioIterator.area_deref _).trans hn)).symm)

theorem Inv.created {k : ℕ} (h : Inv S p check sat n numThreads s) (hi : i < numThreads)
    (hpt : (s.workers i).point = .interrupt ar k) (hk : k < numThreads)
    (hle : ar.area ≤ (s.workers k).workerAspectRatio.area) : (s.workers k).point ≠ .create := by
  intro hcreate
  have hpoint := h.points i hi
  have hnew := h.points k hk
  unfold PointOk at hpoint hnew
  simp only [hpt] at hpoint
  simp only [hcreate] at hnew
  rw [hnew.2.2] at hle
  have htwo := hpoint.2.2.1.two_le_area
  exact absurd (htwo.trans hle) (by decide)

theorem inv_init (fixedSize : ℕ) : Inv S p check sat (firstSize S fixedSize) numThreads
    (explorationSystem S p check numThreads fixedSize).init where
  start := .refl _
  points i _ := by
    refine ⟨.inl (.pass (.start _)), ⟨?_, ?_⟩, rfl⟩
    · exact AspectRatio.area_pos _ |>.trans_le ((AspectRatioIterator.area_deref _).le)
    · exact AspectRatio.area_pos _ |>.trans_le ((AspectRatioIterator.area_deref _).le)
  interrupted i _ hint := by cases hint
  winner r hr := by cases hr
  covered := {
    best := fun b hb => absurd hb (by simp [toSearch, explorationSystem])
    taken := fun ar har _ => absurd har.1 har.2 }

theorem inv_run (hans : AnswersBy S p check sat) (hrot : RotationKeeps p sat) {fixedSize : ℕ}
    {ls : List ThreadStep} (hl : (explorationSystem S p check numThreads fixedSize).Legal ls) :
    Inv S p check sat (firstSize S fixedSize) numThreads
      ((explorationSystem S p check numThreads fixedSize).run ls) :=
  TransitionSystem.invariant_run _ (inv_init fixedSize)
    (fun _ _ h hl => h.step hans hrot hl.1 hl.2.2) hl

end Steps

end Fiction.Exact
