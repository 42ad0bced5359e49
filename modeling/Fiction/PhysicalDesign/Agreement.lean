import Fiction.PhysicalDesign.CompleteStates
import Fiction.PhysicalDesign.ConstantEdges
import Fiction.PhysicalDesign.DirectedFlow
import Fiction.PhysicalDesign.Exploration

/-!
# Agreement of incremental solving with solving from scratch

Along every sequence of aspect ratios, the solver that is fetched for an aspect ratio finds a model
if and only if there is one from scratch. Three kinds of constraints have to be excluded, which are
only stated for some of the tiles that they concern; see `StatesGrow`.
-/

namespace Fiction.Exact

/-- The handlers of a thread while the iterator advances. The thread passes the aspect ratios that
it skips or that another thread examines. -/
inductive Visited (S : SpecificationNetwork) (p : ExactParams) :
    AspectRatioIterator → SmtHandler → Prop
  | start (n : ℕ) : Visited S p (.start n) .init
  | pass {it : AspectRatioIterator} {h : SmtHandler} : Visited S p it h → Visited S p it.advance h
  | store {it : AspectRatioIterator} {h : SmtHandler} : Visited S p it h →
      it.num ≤ p.upperBound → skippable S p h.ar it.deref = false →
      ¬ Satisfiable (query S p (fetchSolver h it.deref).1) →
        Visited S p it.advance (examined S p h it.deref)

/-- What has been stated for a smaller layout is extended to the whole instance for a larger one. -/
structure StatesGrow (S : SpecificationNetwork) (p : ExactParams) : Prop where
  fanins : p.isRegularlyClocked = true → DistinctFanins S ∨ Fed p
  forward : p.technologySpecifics = .topolinano → Forward S p
  diagonals : p.isClockingScheme .twoddwave = true → p.ioPins = true → p.borderIo = true →
    p.scheme.clocking.numClocks = 4 ∨ p.arrangement = .cartesian

variable {S : SpecificationNetwork} {p : ExactParams} {h : SmtHandler} {ar : AspectRatio}
  {v : Assignment}

section Models

variable (hp : NamedScheme.Predefined p.arrangement p.scheme)
include hp

theorem deep_of_not_skippable {lyt : AspectRatio} (hskip : skippable S p lyt ar = false) :
    Deep S p ar := by
  intro n hn
  have hle := S.level_le_depth_of_mem (mem_placedNodes.mp hn).1
  unfold skippable at hskip
  refine ⟨fun hcol => ?_, fun hrow => ?_⟩
  · obtain ⟨k, hk⟩ := hp.eq_columnar (of_decide_eq_true hcol)
    have hr : (!p.isRegularlyClocked) = false := by
      rw [ExactParams.isRegularlyClocked, hk]
      cases k <;> rfl
    rw [hr, if_neg Bool.false_ne_true, if_pos hcol] at hskip
    exact hle.trans (Nat.not_lt.mp fun hlt => of_decide_eq_false hskip (.inl hlt))
  · obtain ⟨k, hk⟩ := hp.eq_row (of_decide_eq_true hrow)
    have hr : (!p.isRegularlyClocked) = false := by
      rw [ExactParams.isRegularlyClocked, hk]
      cases k <;> rfl
    have hcol : p.isClockingScheme .columnar = false := by
      rw [ExactParams.isClockingScheme, hk]
      cases k <;> rfl
    rw [hr, hcol, if_neg Bool.false_ne_true, if_neg Bool.false_ne_true, if_pos hrow] at hskip
    exact hle.trans (Nat.not_lt.mp fun hlt => of_decide_eq_false hskip (.inl hlt))

theorem CoreModel.keepDistance2ddwave (hc : CoreModel S p ar v) (hS : (p.layout ar).Small)
    (hwave : p.isClockingScheme .twoddwave = true)
    (hdiag : p.ioPins = true → p.borderIo = true →
      p.scheme.clocking.numClocks = 4 ∨ p.arrangement = .cartesian) :
    keepDistance2ddwave S p (freshCheckPoint ar) v.withoutConstants .assumptions := by
  intro hio hb n hn t ht hlt
  have hdir := directed_twoddwave hp hS hwave (hdiag hio hb)
  have hfar : ∀ u ∈ allTiles ar, v.tn u n = true → u.x + u.y + S.invLevels n ≤ ar.x + ar.y :=
    fun u hu hv => hc.rank_add_le_of_hasFanoutPath hdir hS hio hn
      (SpecificationNetwork.hasFanoutPath_invLevels n) hu hv
  have hlt : ar.x - t.x + ar.y - t.y < S.invLevels n := hlt
  obtain ⟨-, hx, hy⟩ := (@mem_allTiles ar t).mp ht
  refine ⟨Bool.eq_false_iff.mpr fun hv => ?_, fun ed hed => ?_⟩
  · have hle := hfar t ht hv
    omega
  · obtain ⟨c, hfan, rfl⟩ := List.mem_map.mp hed
    by_cases hconst : TechnologyNetwork.isConstant c = true
    · exact te_withoutConstants_of_constant hconst
    · have hc2 : 2 ≤ c := by
        have := of_decide_eq_false (Bool.eq_false_iff.mpr hconst)
        omega
      have hed := mem_placedEdges_of_mem_foreachFanin hn hfan
        (skipConstOrIoNode_eq_false hio hc2)
      refine te_eq_false_of_withoutConstants (Bool.eq_false_iff.mpr fun hv => ?_)
      obtain ⟨u, hu, hrank, hvu⟩ := hc.exists_target hdir hS hed ht (.inr hv)
      have hle := hfar u hu hvu
      omega

theorem CoreModel.freshModel (hc : CoreModel S p ar v) (hS : (p.layout ar).Small)
    (hi : StatesGrow S p) {cp : CheckPoint} (har : cp.ar = ar) (ha : Assumed S p cp v) :
    FreshModel S p ar v.withoutConstants where
  generated := hc.generated.withoutConstants
  assumed := by
    obtain ⟨hcol, hrow, -⟩ := ha.utilizeHierarchicalInformation
    subst har
    refine ⟨ha.technologySpecificConstraints, ?_,
      fun h => keepDistance_withoutConstants (hcol h),
      fun h => keepDistance_withoutConstants (hrow h),
      fun hwave => hc.keepDistance2ddwave hp hS hwave (hi.diagonals hwave)⟩
    intro t ht hb hsink
    obtain ⟨hnode, hedge⟩ := hc.preventInsufficiencies t ht hb hsink
    exact ⟨hnode, fun hr ed hed hz => te_eq_false_of_withoutConstants (hedge hr ed hed hz)⟩

end Models

section Runs

variable (hp : NamedScheme.Predefined p.arrangement p.scheme) (hi : StatesGrow S p)
include hp hi

theorem Visited.trees {it : AspectRatioIterator} (hv : Visited S p it h) :
    SoundTree S p h ∧ CompleteTree S p h := by
  induction hv with
  | start n => exact ⟨soundTree_init, completeTree_init⟩
  | pass _ ih => exact ih
  | @store it h _ hb hskip _ ih =>
    obtain ⟨ht, hc⟩ := ih
    have hS := small_layout (p := p) (it.area_deref.trans_le hb)
    exact ⟨ht.examined hS.1 hS.2,
      hc.examined ht hS hi.forward (deep_of_not_skippable hp hskip)⟩

/-- Incremental solving agrees with solving from scratch. -/
theorem satisfiable_query_iff {it : AspectRatioIterator} (hv : Visited S p it h)
    (hb : it.num ≤ p.upperBound) :
    Satisfiable (query S p (fetchSolver h it.deref).1) ↔ Satisfiable (scratch S p it.deref) := by
  obtain ⟨ht, hc⟩ := hv.trees hp hi
  have hS := small_layout (p := p) (it.area_deref.trans_le hb)
  have hx : it.deref.x < 2 ^ 31 - 1 := hS.1
  have hy : it.deref.y < 2 ^ 31 - 1 := hS.2
  have hf := @SoundTree.fetchSolver _ _ _ it.deref ht (by omega) (by omega)
  constructor
  · rintro ⟨v, hq⟩
    obtain ⟨hcore, ha⟩ := hc.model ht hS hi.forward hq
    exact satisfiable_scratch_iff.mpr ⟨_, hcore.freshModel hp hS hi hf.ar_eq ha⟩
  · intro hsat
    obtain ⟨v, hv⟩ := satisfiable_scratch_iff.mp hsat
    exact hf.satisfiable hS hv (hv.core.sufficient hp
      (fun hr => (hi.fanins hr).imp id fun hfed => hfed it.deref) hS)

end Runs

/-- Under 2DDWave clocking, information only flows to the east and to the south between Cartesian
neighbours. -/
theorem neverReturns_twoddwave {n : NumClks} (ha : p.arrangement = .cartesian)
    (hn : p.scheme = .twoddwaveClocking n) : NeverReturns p := by
  intro ar t u ht hu
  obtain ⟨-, -, hstep⟩ := (CoordinateLayout.mem_adjacentCoordinates_cartesian ha
    (inside_of_mem_allTiles p ht)).mp (ClockedLayout.mem_outgoingClockedZones.mp hu).1
  have hnext := ClockedLayout.clockNumber_of_mem_outgoingClockedZones hu
  unfold ClockedLayout.getClockNumber ClockedLayout.numClocks ExactParams.layout at hnext
  rw [hn] at hnext
  cases n with
  | three =>
    have hnext : ((t.y % 3 + t.x % 3) % 3 + 1) % 3 = (u.y % 3 + u.x % 3) % 3 := hnext
    omega
  | four =>
    have hnext : ((t.y % 4 + t.x % 4) % 4 + 1) % 4 = (u.y % 4 + u.x % 4) % 4 := hnext
    omega

section Refutation

theorem ar_fetchSolver : (fetchSolver h ar).1.cp.ar = ar := by
  unfold fetchSolver
  dsimp only
  split
  · rfl
  · split <;> rfl

/-- The iterator and the handler after `k` aspect ratios, all of which have been refuted. -/
def refuting (S : SpecificationNetwork) (p : ExactParams) (n : ℕ) :
    ℕ → AspectRatioIterator × SmtHandler
  | 0 => (.start n, .init)
  | k + 1 =>
    let (it, h) := refuting S p n k
    (it.advance, examined S p h it.deref)

theorem visited_refuting {n k : ℕ}
    (hrun : ∀ i < k, (refuting S p n i).1.num ≤ p.upperBound ∧
      skippable S p (refuting S p n i).2.ar (refuting S p n i).1.deref = false ∧
        ¬ Satisfiable (query S p (fetchSolver (refuting S p n i).2 (refuting S p n i).1.deref).1)) :
    Visited S p (refuting S p n k).1 (refuting S p n k).2 := by
  induction k with
  | zero => exact .start n
  | succ k ih =>
    obtain ⟨hb, hskip, hunsat⟩ := hrun k (Nat.lt_succ_self k)
    exact .store (ih fun i hi => hrun i (Nat.lt_succ_of_lt hi)) hb hskip hunsat

variable (htech : p.technologySpecifics = .topolinano)
include htech

theorem exists_tile_of_query {n : ℕ} (hn : n ∈ placedNodes S p) (hg : n ∈ S.foreachGate)
    (ha : isAndOrMaj S n = true) {v : Valuation} (hv : query S p (fetchSolver h ar).1 v) :
    ∃ t ∈ allTiles ar, v.vars.tn t n = true ∧ (p.layout ar).northEast t ≠ t := by
  obtain ⟨⟨-, hgen⟩, hs, he, hass⟩ := hv
  have hlayout : layout p (fetchSolver h ar).1.cp = p.layout ar := by rw [layout, ar_fetchSolver]
  obtain ⟨t, ht, hvt⟩ := Counting.exists_of_count_pos ((hgen.restrictVertices n hn).1 ⟨he, hs⟩)
  have hgate := hass.technologySpecificConstraints htech n hg ha t ht
  rw [hlayout] at ht hgate
  refine ⟨t, ht, hvt, fun heq => ?_⟩
  rw [hgate heq] at hvt
  exact absurd hvt Bool.false_ne_true

theorem not_satisfiable_of_thin {n : ℕ} (hn : n ∈ placedNodes S p) (hg : n ∈ S.foreachGate)
    (ha : isAndOrMaj S n = true) (hthin : ∀ t ∈ allTiles ar, (p.layout ar).northEast t = t) :
    ¬ Satisfiable (query S p (fetchSolver h ar).1) := by
  rintro ⟨v, hv⟩
  obtain ⟨t, ht, -, hne⟩ := exists_tile_of_query htech hn hg ha hv
  exact hne (hthin t ht)

end Refutation

section AndChain

/-- A conjunction of constants, another one that reads it, and an output. -/
def andChain : TechnologyNetwork :=
  let (ntk, a) := TechnologyNetwork.empty.createAnd 0 1
  let (ntk, b) := ntk.createAnd a 1
  let (ntk, o) := ntk.createBuf b
  ntk.createPo o

theorem andChain_wellFormed : andChain.WellFormed :=
  TechnologyNetwork.wellFormed_of_forall_lt (by decide) (by decide) (by decide) (by decide)
    (by decide) (by decide) (by decide)

theorem andChain_placeable : SpecificationNetwork.Placeable andChain :=
  ⟨by decide, by decide, SpecificationNetwork.children_eq_nil_of_isSource (by decide), by decide,
    by decide⟩

def andChainSpecification : SpecificationNetwork :=
  .ofView andChain
    (TechnologyNetwork.creationView andChain_placeable.children_lt andChain_placeable.outputs_lt)
    andChain_wellFormed andChain_placeable.children_source andChain_placeable.outputs_substituted
    andChain_placeable.cone

def topolinanoParams (scheme : NamedScheme) : ExactParams where
  arrangement := .cartesian
  hasSynchronizationElements := false
  scheme := scheme
  upperBound := 100
  upperBound_lt := ExactParams.hundred_lt
  crossings := false
  ioPins := true
  borderIo := false
  synchronizationElements := false
  straightInverters := false
  desynchronize := true
  technologySpecifics := .topolinano

theorem statesGrow_andChain :
    StatesGrow andChainSpecification (topolinanoParams (.twoddwaveClocking .four)) where
  fanins _ := .inl (by decide)
  forward _ := .inl (neverReturns_twoddwave (n := .four) rfl rfl)
  diagonals _ _ _ := .inl rfl

/-- The instance for the first column with one more row reuses the state without it. -/
theorem satisfiable_andChain_iff :
    let run := refuting andChainSpecification (topolinanoParams (.twoddwaveClocking .four)) 3 2
    run.1.deref = ⟨0, 3⟩ ∧ (run.2.solverTree ⟨0, 2⟩).isSome = true ∧
      (Satisfiable (query andChainSpecification (topolinanoParams (.twoddwaveClocking .four))
          (fetchSolver run.2 run.1.deref).1) ↔
        Satisfiable (scratch andChainSpecification (topolinanoParams (.twoddwaveClocking .four))
          run.1.deref)) := by
  refine ⟨by decide +kernel, by decide +kernel,
    satisfiable_query_iff (.twoddwave .four) statesGrow_andChain (visited_refuting fun i hi => ?_)
      (by decide +kernel)⟩
  have hnum : ∀ i < 2, (refuting andChainSpecification
      (topolinanoParams (.twoddwaveClocking .four)) 3 i).1.num ≤ 100 := by decide +kernel
  have hthin : ∀ i < 2, ∀ t ∈ allTiles (refuting andChainSpecification
      (topolinanoParams (.twoddwaveClocking .four)) 3 i).1.deref,
        ((topolinanoParams (.twoddwaveClocking .four)).layout (refuting andChainSpecification
          (topolinanoParams (.twoddwaveClocking .four)) 3 i).1.deref).northEast t = t := by
    decide +kernel
  exact ⟨hnum i hi, rfl, not_satisfiable_of_thin (n := 2) rfl (by decide) (by decide) (by decide)
    (hthin i hi)⟩

/-- The first conjunction south of the second one, which is clocked right after it. -/
def conjunctionsInTurn : Valuation where
  vars := {
    tn t n := t = .at2 0 2 ∧ n = 2 ∨ t = .at2 0 1 ∧ n = 3 ∨ t = .at2 0 0 ∧ n = 4
    te _ _ := false
    tc t u := t = .at2 0 2 ∧ u = .at2 0 1 ∨ t = .at2 0 1 ∧ u = .at2 0 0
    tp t u := t = .at2 0 2 ∧ u = .at2 0 1 ∨ t = .at2 0 1 ∧ u = .at2 0 0 ∨
      t = .at2 0 2 ∧ u = .at2 0 0
    ncl _ _ := false
    tcl _ _ := false
    tse _ := 0 }
  litE _ := true
  litS k := k ≠ 4

theorem generated_conjunctionsInTurn {cp : CheckPoint} {s : Bool}
    (hcp : cp = freshCheckPoint ⟨1, 1⟩ ∧ s = false ∨
      cp = ⟨⟨1, 2⟩, row 1 2, row 1 1⟩ ∧ s = true) :
    Generated andChainSpecification (topolinanoParams .useClocking) cp conjunctionsInTurn.vars true
      s := by
  rcases hcp with ⟨rfl, rfl⟩ | ⟨rfl, rfl⟩
  all_goals exact {
    restrictTileElements := by decide
    restrictVertices := by decide
    defineGateFanoutTiles := by decide
    defineGateFaninTiles := by decide
    defineWireFanoutTiles := by decide
    defineWireFaninTiles := by decide
    assignPiClockings := fun h => absurd h (by decide)
    globalSynchronization := fun h => absurd h (by decide)
    restrictClocks := fun h => absurd h (by decide)
    establishSubPaths := by decide
    establishTransitivePaths := by decide
    eliminateCycles := by decide
    enforceBorderIo := fun h => absurd h (by decide)
    enforceStraightInverters := fun h => absurd h (by decide)
    restrictSynchronizationElements := fun h => absurd h (by decide)
    technologySpecificConstraints := fun _ => by decide
    preventInsufficiencies := by decide
    defineNumberOfConnections := by decide
    utilizeHierarchicalInformation := ⟨fun h => absurd h (by decide), fun h => absurd h (by decide),
      fun h => absurd h (by decide)⟩ }

/-- The state of the layout with two rows does not know that the conjunctions must not follow each
other from the third row to the second one, and the check point only asks for tiles added. -/
theorem query_conjunctionsInTurn {c : SolverCheckPoint}
    (hc : c = ⟨⟨fun v => (generateSmtInstance andChainSpecification (topolinanoParams .useClocking)
        ⟨⟨fun _ => True, ⟨4, 4⟩⟩, freshCheckPoint ⟨1, 1⟩⟩).assertions v ∧ v.litS 4 = false, ⟨4, 9⟩⟩,
      ⟨⟨1, 2⟩, row 1 2, row 1 1⟩⟩) :
    query andChainSpecification (topolinanoParams .useClocking) c conjunctionsInTurn := by
  subst hc
  refine ⟨⟨⟨⟨trivial, generated_conjunctionsInTurn (.inl ⟨rfl, rfl⟩)⟩, rfl⟩,
    generated_conjunctionsInTurn (.inr ⟨rfl, rfl⟩)⟩, rfl, rfl, fun _ => by decide, by decide, ?_⟩
  exact ⟨fun h => absurd h (by decide), fun h => absurd h (by decide),
    fun h => absurd h (by decide)⟩

theorem not_satisfiable_scratch_andChain :
    ¬ Satisfiable (scratch andChainSpecification (topolinanoParams .useClocking) ⟨1, 2⟩) := by
  intro hsat
  obtain ⟨v, hv⟩ := satisfiable_scratch_iff.mp hsat
  have hnorth : ∀ t ∈ allTiles ⟨1, 2⟩,
      ((topolinanoParams .useClocking).layout ⟨1, 2⟩).northEast t ≠ t →
        t = .at2 0 1 ∨ t = .at2 0 2 := by decide
  have htile : ∀ n ∈ [2, 3], ∃ t, (t = .at2 0 1 ∨ t = .at2 0 2) ∧ v.tn t n = true := by
    intro n hn
    have hplaced : ∀ n ∈ [2, 3], n ∈ placedNodes andChainSpecification
        (topolinanoParams .useClocking) ∧ n ∈ andChainSpecification.foreachGate ∧
          isAndOrMaj andChainSpecification n = true := by decide
    obtain ⟨hn, hg, ha⟩ := hplaced n hn
    obtain ⟨t, ht, hvt⟩ := hv.core.exists_tile hn
    refine ⟨t, hnorth t ht fun heq => ?_, hvt⟩
    rw [hv.assumed.technologySpecificConstraints rfl n hg ha t ht heq] at hvt
    exact absurd hvt Bool.false_ne_true
  obtain ⟨t₂, ht₂, hv₂⟩ := htile 2 (by decide)
  obtain ⟨t₃, ht₃, hv₃⟩ := htile 3 (by decide)
  have hdistinct : t₂ ≠ t₃ := fun heq => by
    subst heq
    have hmem : t₂ ∈ allTiles ⟨1, 2⟩ := by rcases ht₂ with rfl | rfl <;> decide
    exact absurd (hv.core.node_unique hmem (by decide) (by decide) hv₂ hv₃) (by decide)
  rcases ht₂ with rfl | rfl <;> rcases ht₃ with rfl | rfl
  · exact hdistinct rfl
  · -- no incoming zone remains for the second conjunction
    have hgate := (hv.assumed.preventInsufficiencies (.at2 0 2) (by decide) (by decide)
      (by decide)).1 3 (by decide) (by decide)
    rw [hgate] at hv₃
    exact absurd hv₃ Bool.false_ne_true
  · have hgate := ((hv.generated.technologySpecificConstraints rfl).2 2 (by decide) (by decide)).1 3
      (by decide) (by decide) (.at2 0 2) (by decide) (.at2 0 1) (by decide) (by decide) hv₂
    rw [hgate] at hv₃
    exact absurd hv₃ Bool.false_ne_true
  · exact hdistinct rfl

theorem not_satisfiable_query_square {h : SmtHandler}
    (hcp : (fetchSolver h ⟨1, 1⟩).1.cp = freshCheckPoint ⟨1, 1⟩) : ¬ Satisfiable (query
      andChainSpecification (topolinanoParams .useClocking) (fetchSolver h ⟨1, 1⟩).1) := by
  rintro ⟨v, hv⟩
  have hnorth : ∀ t ∈ allTiles ⟨1, 1⟩,
      ((topolinanoParams .useClocking).layout ⟨1, 1⟩).northEast t ≠ t → t = .at2 0 1 := by decide
  obtain ⟨t₂, ht₂, hv₂, hne₂⟩ := exists_tile_of_query (n := 2) rfl (by decide) (by decide)
    (by decide) hv
  obtain ⟨t₃, ht₃, hv₃, hne₃⟩ := exists_tile_of_query (n := 3) rfl (by decide) (by decide)
    (by decide) hv
  obtain rfl := hnorth t₂ ht₂ hne₂
  obtain rfl := hnorth t₃ ht₃ hne₃
  have hmost := hv.1.2.restrictTileElements (.at2 0 1) (by rw [hcp]; decide)
  rw [if_neg (by decide)] at hmost
  unfold atmost at hmost
  rw [List.count_append] at hmost
  have hle : (tns andChainSpecification (topolinanoParams .useClocking) v.vars (.at2 0 1)).count
      true ≤ 1 := by omega
  have heq : 2 = 3 := Counting.eq_of_count_le_one hle (by decide) (by decide) hv₂ hv₃
  exact absurd heq (by decide)

theorem visited_andChain : Visited andChainSpecification (topolinanoParams .useClocking)
    (refuting andChainSpecification (topolinanoParams .useClocking) 3 9).1
    (refuting andChainSpecification (topolinanoParams .useClocking) 3 9).2 := by
  refine visited_refuting fun i hi => ?_
  have hnum : ∀ i < 9, (refuting andChainSpecification
      (topolinanoParams .useClocking) 3 i).1.num ≤ 100 := by decide +kernel
  have hthin : ∀ i < 9, (refuting andChainSpecification (topolinanoParams .useClocking) 3
      i).1.deref = ⟨1, 1⟩ ∧ i = 4 ∨ ∀ t ∈ allTiles (refuting andChainSpecification
        (topolinanoParams .useClocking) 3 i).1.deref,
          ((topolinanoParams .useClocking).layout (refuting andChainSpecification
            (topolinanoParams .useClocking) 3 i).1.deref).northEast t = t := by
    decide +kernel
  refine ⟨hnum i hi, rfl, ?_⟩
  rcases hthin i hi with ⟨hsquare, rfl⟩ | hthin
  · rw [hsquare]
    exact not_satisfiable_query_square (by with_unfolding_all rfl)
  · exact not_satisfiable_of_thin (n := 2) rfl (by decide) (by decide) (by decide) hthin

theorem andChain_disagrees :
    ¬ ∀ (S : SpecificationNetwork) (p : ExactParams) (it : AspectRatioIterator) (h : SmtHandler),
      NamedScheme.Predefined p.arrangement p.scheme → Visited S p it h → it.num ≤ p.upperBound →
        (Satisfiable (query S p (fetchSolver h it.deref).1) ↔
          Satisfiable (scratch S p it.deref)) := by
  intro hall
  have hiff := hall _ _ _ _ .use visited_andChain (by decide +kernel)
  have hderef : (refuting andChainSpecification (topolinanoParams .useClocking) 3 9).1.deref =
      ⟨1, 2⟩ := by decide +kernel
  rw [hderef] at hiff
  exact not_satisfiable_scratch_andChain
    (hiff.mp ⟨_, query_conjunctionsInTurn (by with_unfolding_all rfl)⟩)

end AndChain

end Fiction.Exact
