import Fiction.Properties.CriticalPath
import Fiction.Verification.DesignRuleViolations

/-!
# Equivalence checking

Two networks or layouts are compared logically by a miter and a SAT solver, which belong to another
library and are parameters here. Layouts are checked for design rule violations first, and their
throughputs decide between strong and weak equivalence.
-/

namespace Fiction.EquivalenceChecking

open GateLevelLayout

/-- The different equivalence types. -/
inductive EqType
  | no
  | weak
  | strong
  deriving DecidableEq

/-- A specification or an implementation. -/
inductive Party (ν : Type*)
  | network (ntk : ν)
  | layout (lyt : GateLevelLayout)

/-- The functions of the network library that are called. The check returns nothing if it exceeds
its resource limit. -/
structure Mockturtle (ν μ : Type*) where
  numPis : ν → ℕ
  numPos : ν → ℕ
  miter : Party ν → Party ν → Option μ
  equivalenceChecking : μ → Option (Bool × List Bool)

structure EquivalenceCheckingStats where
  eq : EqType := .no
  tpSpec : ℤ := 1
  tpImpl : ℤ := 1
  tpDiff : ℤ := 0
  counterExample : List Bool := []
  specDrvStats : GateLevelDrvStats := ⟨0, 0⟩
  implDrvStats : GateLevelDrvStats := ⟨0, 0⟩

variable {ν μ : Type*} (M : Mockturtle ν μ)
  (sort : List CriticalPath.PathInfo → List CriticalPath.PathInfo)

def Mockturtle.pis : Party ν → ℕ
  | .network ntk => M.numPis ntk
  | .layout lyt => lyt.numPis

def Mockturtle.pos : Party ν → ℕ
  | .network ntk => M.numPos ntk
  | .layout lyt => lyt.numPos

/-- What is left unchanged for networks. -/
def drvStats : Party ν → GateLevelDrvStats
  | .network _ => ⟨0, 0⟩
  | .layout lyt => lyt.gateLevelDrvs {}

def hasDrvs (p : Party ν) : Bool := (drvStats p).drvs ≠ 0

def throughput (fuel : ℕ) : Party ν → Option ℤ
  | .network _ => some 1
  | .layout lyt => (CriticalPath.run sort lyt fuel).map fun st => (st.throughput : ℤ)

def run (fuel : ℕ) (spec impl : Party ν) : Option EquivalenceCheckingStats :=
  if hasDrvs spec then some { specDrvStats := drvStats spec }
  else if hasDrvs impl then
    some { specDrvStats := drvStats spec, implDrvStats := drvStats impl }
  else
    let pst : EquivalenceCheckingStats :=
      { specDrvStats := drvStats spec, implDrvStats := drvStats impl }
    match M.miter spec impl with
    | none => some pst
    | some miter =>
      match M.equivalenceChecking miter with
      | none => some pst
      | some (false, counterExample) => some { pst with counterExample := counterExample }
      | some (true, _) => do
        let tpSpec ← throughput sort fuel spec
        let tpImpl ← throughput sort fuel impl
        let tpDiff := |tpSpec - tpImpl|
        return { pst with
          eq := if tpDiff ≠ 0 then .weak else .strong
          tpSpec := tpSpec
          tpImpl := tpImpl
          tpDiff := tpDiff }

/-- The called functions decide logical equivalence wherever the interfaces agree. -/
def Decides (Equivalent : Party ν → Party ν → Prop) : Prop :=
  ∀ spec impl, M.pis spec = M.pis impl → M.pos spec = M.pos impl → ∃ miter eq counterExample,
    M.miter spec impl = some miter ∧ M.equivalenceChecking miter = some (eq, counterExample) ∧
      (eq = true ↔ Equivalent spec impl)

/-- The throughput that is computed for a layout is `1 / x`. -/
def HasThroughput (lyt : GateLevelLayout) (x : ℕ) : Prop :=
  ∃ fuel st, CriticalPath.run sort lyt fuel = some st ∧ st.throughput = x

def Passes (Equivalent : Party ν → Party ν → Prop) (spec impl : Party ν) : Prop :=
  hasDrvs spec = false ∧ hasDrvs impl = false ∧ Equivalent spec impl

def FullThroughput (spec impl : Party ν) : Prop :=
  ∀ lyt, spec = .layout lyt ∨ impl = .layout lyt → HasThroughput sort lyt 1

/-- The equivalence type is the documented one. -/
structure Classified (Equivalent : Party ν → Party ν → Prop) (spec impl : Party ν) (eq : EqType) :
    Prop where
  no : eq = .no ↔ ¬ Passes Equivalent spec impl
  strong : eq = .strong ↔ Passes Equivalent spec impl ∧ FullThroughput sort spec impl
  weak : eq = .weak ↔ Passes Equivalent spec impl ∧ ¬ FullThroughput sort spec impl

def Classifies (Equivalent : Party ν → Party ν → Prop) (spec impl : Party ν) : Prop :=
  ∃ n pst, (∀ fuel ≥ n, run M sort fuel spec impl = some pst) ∧
    Classified sort Equivalent spec impl pst.eq

def FlowEnds (spec impl : Party ν) : Prop :=
  ∀ lyt, spec = .layout lyt ∨ impl = .layout lyt →
    ∀ po ∈ lyt.foreachPo, Acc (CriticalPath.Feeds lyt) po

/-- Both are layouts of the same throughput, which is lower than `1 / 1`. -/
def EquallySlow (spec impl : Party ν) : Prop :=
  ∃ lyt lyt' x, spec = .layout lyt ∧ impl = .layout lyt' ∧ HasThroughput sort lyt x ∧
    HasThroughput sort lyt' x ∧ x ≠ 1

variable {M sort} {Equivalent : Party ν → Party ν → Prop} {spec impl : Party ν}

section Throughput

/-- With enough fuel the throughput of `p` is `1 / x`. -/
def Reaches (sort : List CriticalPath.PathInfo → List CriticalPath.PathInfo) (p : Party ν) (x : ℕ) :
    Prop := ∃ n, ∀ fuel ≥ n, throughput sort fuel p = some (x : ℤ)

theorem HasThroughput.unique {lyt : GateLevelLayout} {x y : ℕ} (hx : HasThroughput sort lyt x)
    (hy : HasThroughput sort lyt y) : x = y := by
  obtain ⟨fuel, st, h, rfl⟩ := hx
  obtain ⟨fuel', st', h', rfl⟩ := hy
  have h₁ := CriticalPath.run_mono (le_max_left fuel fuel') h
  have h₂ := CriticalPath.run_mono (le_max_right fuel fuel') h'
  rw [Option.some.inj (h₁.symm.trans h₂)]

theorem HasThroughput.reaches {lyt : GateLevelLayout} {x : ℕ} (h : HasThroughput sort lyt x) :
    Reaches sort (.layout lyt : Party ν) x := by
  obtain ⟨n, st, h, rfl⟩ := h
  refine ⟨n, fun fuel hfuel => ?_⟩
  rw [throughput, CriticalPath.run_mono hfuel h]
  rfl

theorem Reaches.network {ntk : ν} {x : ℕ} (h : Reaches sort (.network ntk) x) : x = 1 := by
  obtain ⟨n, h⟩ := h
  have h₁ : (1 : ℤ) = x := Option.some.inj (h n le_rfl)
  exact_mod_cast h₁.symm

theorem Reaches.hasThroughput {lyt : GateLevelLayout} {x : ℕ}
    (h : Reaches sort (.layout lyt : Party ν) x) : HasThroughput sort lyt x := by
  obtain ⟨n, h⟩ := h
  obtain ⟨st, hst, hx⟩ := Option.map_eq_some_iff.mp (h n le_rfl)
  exact ⟨n, st, hst, by exact_mod_cast hx⟩

theorem Reaches.hasThroughput_one_iff {p : Party ν} {x : ℕ} (h : Reaches sort p x) :
    (∀ lyt, p = .layout lyt → HasThroughput sort lyt 1) ↔ x = 1 := by
  cases p with
  | network ntk =>
    have hx := h.network
    simp [hx]
  | layout lyt =>
    constructor
    · intro hall
      exact h.hasThroughput.unique (hall lyt rfl)
    · rintro rfl lyt' he
      cases he
      exact h.hasThroughput

theorem exists_reaches {p : Party ν} (h : ∀ lyt, p = .layout lyt →
    ∀ po ∈ lyt.foreachPo, Acc (CriticalPath.Feeds lyt) po) : ∃ x, Reaches sort p x := by
  cases p with
  | network ntk => exact ⟨1, 0, fun fuel _ => rfl⟩
  | layout lyt =>
    obtain ⟨fuel, st, hst⟩ := (@CriticalPath.exists_run_iff sort lyt).mpr (h lyt rfl)
    exact ⟨st.throughput, HasThroughput.reaches ⟨fuel, st, hst, rfl⟩⟩

theorem flowEnds_of_throughput {p : Party ν} {fuel : ℕ} {a : ℤ}
    (h : throughput sort fuel p = some a) {lyt : GateLevelLayout} (hp : p = .layout lyt) :
    ∀ po ∈ lyt.foreachPo, Acc (CriticalPath.Feeds lyt) po := by
  subst hp
  obtain ⟨st, hst, -⟩ := Option.map_eq_some_iff.mp h
  exact CriticalPath.exists_run_iff.mp ⟨fuel, st, hst⟩

end Throughput

section Classification

theorem run_of_passes (hd : Decides M Equivalent) (hpis : M.pis spec = M.pis impl)
    (hpos : M.pos spec = M.pos impl) (hp : Passes Equivalent spec impl) (fuel : ℕ) :
    run M sort fuel spec impl = (throughput sort fuel spec).bind fun tpSpec =>
      (throughput sort fuel impl).bind fun tpImpl => some {
        eq := if |tpSpec - tpImpl| ≠ 0 then .weak else .strong
        tpSpec := tpSpec
        tpImpl := tpImpl
        tpDiff := |tpSpec - tpImpl|
        specDrvStats := drvStats spec
        implDrvStats := drvStats impl } := by
  obtain ⟨m, eq, counterExample, hm, hs, heq⟩ := hd spec impl hpis hpos
  rw [heq.mpr hp.2.2] at hs
  simp only [run, hp.1, hp.2.1, Bool.false_eq_true, if_false, hm, hs]
  rfl

theorem run_of_not_passes (hd : Decides M Equivalent) (hpis : M.pis spec = M.pis impl)
    (hpos : M.pos spec = M.pos impl) (hp : ¬ Passes Equivalent spec impl) :
    ∃ pst : EquivalenceCheckingStats, (∀ fuel, run M sort fuel spec impl = some pst) ∧
      pst.eq = .no := by
  cases hspec : hasDrvs spec with
  | true => exact ⟨_, fun fuel => by rw [run, if_pos hspec], rfl⟩
  | false =>
    cases himpl : hasDrvs impl with
    | true => exact ⟨_, fun fuel => by rw [run, hspec, if_neg Bool.false_ne_true, if_pos himpl], rfl⟩
    | false =>
      obtain ⟨m, eq, counterExample, hm, hs, heq⟩ := hd spec impl hpis hpos
      have hfalse : eq = false := by
        by_contra htrue
        exact hp ⟨hspec, himpl, heq.mp (by simpa using htrue)⟩
      rw [hfalse] at hs
      have hrun : ∀ fuel, run M sort fuel spec impl = some {
          counterExample := counterExample
          specDrvStats := drvStats spec
          implDrvStats := drvStats impl } := by
        intro fuel
        simp only [run, hspec, himpl, Bool.false_eq_true, if_false, hm, hs]
      exact ⟨_, hrun, rfl⟩

theorem run_reaches (hd : Decides M Equivalent) (hpis : M.pis spec = M.pis impl)
    (hpos : M.pos spec = M.pos impl) (hp : Passes Equivalent spec impl) {x y : ℕ}
    (hx : Reaches sort spec x) (hy : Reaches sort impl y) :
    ∃ n pst, (∀ fuel ≥ n, run M sort fuel spec impl = some pst) ∧
      pst.eq = if x = y then .strong else .weak := by
  obtain ⟨n, hn⟩ := hx
  obtain ⟨m, hm⟩ := hy
  have hrun : ∀ fuel ≥ max n m, run M sort fuel spec impl = some {
      eq := if |(x : ℤ) - y| ≠ 0 then .weak else .strong
      tpSpec := x
      tpImpl := y
      tpDiff := |(x : ℤ) - y|
      specDrvStats := drvStats spec
      implDrvStats := drvStats impl } := by
    intro fuel hfuel
    rw [run_of_passes hd hpis hpos hp, hn fuel ((le_max_left n m).trans hfuel),
      hm fuel ((le_max_right n m).trans hfuel), Option.bind_some, Option.bind_some]
  refine ⟨_, _, hrun, ?_⟩
  have hdiff : |(x : ℤ) - y| ≠ 0 ↔ x ≠ y := by
    rw [abs_ne_zero, sub_ne_zero]
    norm_cast
  simp only [hdiff]
  by_cases he : x = y <;> simp [he]

/-- The documented equivalence type is reported exactly if the data flow of layouts that pass the
checks ends and the two are not equally slow. -/
theorem classifies_iff (hd : Decides M Equivalent) (hpis : M.pis spec = M.pis impl)
    (hpos : M.pos spec = M.pos impl) : Classifies M sort Equivalent spec impl ↔
      (Passes Equivalent spec impl → FlowEnds spec impl ∧ ¬ EquallySlow sort spec impl) := by
  by_cases hp : Passes Equivalent spec impl
  swap
  · obtain ⟨pst, hrun, heq⟩ := @run_of_not_passes _ _ M sort _ _ _ hd hpis hpos hp
    refine iff_of_true ⟨0, pst, fun fuel _ => hrun fuel, ?_⟩ fun h => absurd h hp
    rw [heq]
    constructor <;> simp [hp]
  simp only [hp, true_imp_iff]
  constructor
  · rintro ⟨n, pst, hrun, hclass⟩
    have hn := hrun n le_rfl
    rw [run_of_passes hd hpis hpos hp] at hn
    obtain ⟨a, ha, hn⟩ := Option.bind_eq_some_iff.mp hn
    obtain ⟨b, hb, -⟩ := Option.bind_eq_some_iff.mp hn
    refine ⟨fun lyt hlyt => ?_, ?_⟩
    · rcases hlyt with hlyt | hlyt
      · exact flowEnds_of_throughput ha hlyt
      · exact flowEnds_of_throughput hb hlyt
    · rintro ⟨lyt, lyt', x, hspec, himpl, hx, hx', hne⟩
      have hreach : Reaches sort spec x := hspec ▸ hx.reaches
      have hreach' : Reaches sort impl x := himpl ▸ hx'.reaches
      obtain ⟨m, pst', hrun', heq⟩ := run_reaches hd hpis hpos hp hreach hreach'
      have hpst : pst = pst' := Option.some.inj
        ((hrun _ (le_max_left n m)).symm.trans (hrun' _ (le_max_right n m)))
      rw [if_pos rfl, ← hpst] at heq
      have hfull := (hclass.strong.mp heq).2 lyt (.inl hspec)
      exact hne (hx.unique hfull)
  · rintro ⟨hflow, hslow⟩
    obtain ⟨x, hx⟩ := @exists_reaches _ sort spec fun lyt hlyt => hflow lyt (.inl hlyt)
    obtain ⟨y, hy⟩ := @exists_reaches _ sort impl fun lyt hlyt => hflow lyt (.inr hlyt)
    obtain ⟨n, pst, hrun, heq⟩ := run_reaches hd hpis hpos hp hx hy
    have hfull : FullThroughput sort spec impl ↔ x = 1 ∧ y = 1 := by
      rw [← hx.hasThroughput_one_iff, ← hy.hasThroughput_one_iff]
      simp only [FullThroughput, or_imp, forall_and]
    have hequal : x = y ↔ x = 1 ∧ y = 1 := by
      constructor
      · rintro rfl
        by_contra hne
        have hone : x ≠ 1 := fun h => hne ⟨h, h⟩
        cases hspec : spec with
        | network ntk => exact hone (hspec ▸ hx).network
        | layout lyt =>
          cases himpl : impl with
          | network ntk => exact hone (himpl ▸ hy).network
          | layout lyt' =>
            exact hslow ⟨lyt, lyt', x, hspec, himpl, (hspec ▸ hx).hasThroughput,
              (himpl ▸ hy).hasThroughput, hone⟩
      · rintro ⟨rfl, rfl⟩
        rfl
    refine ⟨n, pst, hrun, ?_⟩
    rw [heq]
    by_cases he : x = y
    · rw [if_pos he]
      have hf := hfull.mpr (hequal.mp he)
      constructor <;> simp [hp, hf]
    · rw [if_neg he]
      have hf : ¬ FullThroughput sort spec impl := fun h => he (hequal.mpr (hfull.mp h))
      constructor <;> simp [hp, hf]

def wireLibrary : Mockturtle Unit Unit where
  numPis _ := 1
  numPos _ := 1
  miter _ _ := some ()
  equivalenceChecking _ := some (true, [])

theorem decides_wireLibrary : Decides wireLibrary fun _ _ => True := fun _ _ _ _ =>
  ⟨(), true, [], rfl, rfl, by simp⟩

def wireLayout : GateLevelLayout :=
  (system smallLayout "").run [.createPi "" (.at2 0 0), .createPo (.at2 0 0) "" (.at2 1 0)]

theorem classifies_iff_wire :
    let sort := CriticalPath.insertionSort
    Classifies wireLibrary sort (fun _ _ => True) (.network ()) (.layout wireLayout) ↔
      (Passes (fun _ _ => True) (.network () : Party Unit) (.layout wireLayout) →
        FlowEnds (.network () : Party Unit) (.layout wireLayout) ∧
          ¬ EquallySlow sort (.network () : Party Unit) (.layout wireLayout)) :=
  classifies_iff decides_wireLibrary (by decide) (by decide)

def delayedLayout : GateLevelLayout :=
  (system ⟨⟨.at2 5 1, .cartesian⟩, .twoddwaveClocking 4⟩ "").run
    [.createPi "" (.at2 0 0), .createNode [.at2 0 0] .identity (.at2 1 0),
      .createNode [.at2 1 0] .identity (.at2 2 0), .createNode [.at2 2 0] .identity (.at2 3 0),
      .createNode [.at2 3 0] .identity (.at2 4 0), .createPi "" (.at2 3 1),
      .createNode [.at2 4 0, .at2 3 1] .and (.at2 4 1), .createPo (.at2 4 1) "" (.at2 5 1)]

/-- Compared with itself, the layout is strongly equivalent although it is not fully fast. -/
theorem delayedLayout_strong :
    (run wireLibrary CriticalPath.insertionSort 9 (.layout delayedLayout)
      (.layout delayedLayout)).map EquivalenceCheckingStats.eq = some .strong ∧
    HasThroughput CriticalPath.insertionSort delayedLayout 2 ∧
    ¬ Classifies wireLibrary CriticalPath.insertionSort (fun _ _ => True) (.layout delayedLayout)
      (.layout delayedLayout) := by
  have hrun : CriticalPath.run CriticalPath.insertionSort delayedLayout 9 = some ⟨7, 2⟩ := by
    decide +kernel
  have htp : HasThroughput CriticalPath.insertionSort delayedLayout 2 := ⟨9, _, hrun, rfl⟩
  have hdrvs : hasDrvs (.layout delayedLayout : Party Unit) = false := by decide +kernel
  have hp : Passes (fun _ _ => True) (.layout delayedLayout : Party Unit) (.layout delayedLayout) :=
    ⟨hdrvs, hdrvs, trivial⟩
  refine ⟨?_, htp, ?_⟩
  · rw [run_of_passes decides_wireLibrary rfl rfl hp, throughput, hrun]
    rfl
  · rintro ⟨n, pst, hpst, hclass⟩
    obtain ⟨m, pst', hpst', heq⟩ := run_reaches decides_wireLibrary rfl rfl hp
      htp.reaches htp.reaches
    have hsame : pst = pst' := Option.some.inj
      ((hpst _ (le_max_left n m)).symm.trans (hpst' _ (le_max_right n m)))
    rw [if_pos rfl, ← hsame] at heq
    have hfull := (hclass.strong.mp heq).2 delayedLayout (.inl rfl)
    exact absurd (htp.unique hfull) (by decide)

end Classification

end Fiction.EquivalenceChecking
