import Fiction.PhysicalDesign.SmtInstance

/-!
# Incremental solving and the synchronous exploration

Solver states of unsatisfiable instances are stored and reused for an aspect ratio with one more
column or one more row. The literal that tracks the border that moves is switched off then and
replaced by a new one. The synchronous exploration walks along the aspect ratios, skips some and
stops at the first one whose instance the solver finds satisfiable.
-/

namespace Fiction.Exact

structure AssumptionLiterals where
  e : ℕ
  s : ℕ

structure Valuation where
  vars : Assignment
  litE : ℕ → Bool
  litS : ℕ → Bool

/-- `assertions` is the conjunction of all constraints that have been added to the solver. -/
structure SolverState where
  assertions : Valuation → Prop
  lit : AssumptionLiterals

structure SolverCheckPoint where
  state : SolverState
  cp : CheckPoint

/-- `ar` is the size of the layout, `lc` the literal counter. -/
structure SmtHandler where
  ar : AspectRatio
  lc : ℕ
  solverTree : AspectRatio → Option SolverState

def SmtHandler.init : SmtHandler := ⟨⟨0, 0⟩, 0, fun _ => none⟩

def pred31 (x : ℕ) : ℕ := CoordinateLayout.toField ((x : ℤ) - 1)

def column (x y : ℕ) : List Tile := (List.range (y + 1)).map fun j => .at2 x j

def row (x y : ℕ) : List Tile := (List.range (x + 1)).map fun i => .at2 i y

def allTiles (ar : AspectRatio) : List Tile := (List.range (ar.y + 1)).flatMap (row ar.x)

def fetchSolver (h : SmtHandler) (ar : AspectRatio) :
    SolverCheckPoint × (AspectRatio → Option SolverState) :=
  let west : AspectRatio := ⟨pred31 ar.x, ar.y⟩
  let north : AspectRatio := ⟨ar.x, pred31 ar.y⟩
  match h.solverTree west with
  | some state =>
    (⟨⟨fun v => state.assertions v ∧ v.litE state.lit.e = false, ⟨h.lc, state.lit.s⟩⟩,
      ⟨ar, column ar.x ar.y, column (pred31 ar.x) ar.y⟩⟩,
      Function.update h.solverTree west none)
  | none =>
    match h.solverTree north with
    | some state =>
      (⟨⟨fun v => state.assertions v ∧ v.litS state.lit.s = false, ⟨state.lit.e, h.lc⟩⟩,
        ⟨ar, row ar.x ar.y, row ar.x (pred31 ar.y)⟩⟩,
        Function.update h.solverTree north none)
    | none => (⟨⟨fun _ => True, ⟨h.lc, h.lc⟩⟩, ⟨ar, allTiles ar, []⟩⟩, h.solverTree)

def update (h : SmtHandler) (ar : AspectRatio) : SmtHandler :=
  ⟨ar, h.lc + 1, (fetchSolver h ar).2⟩

section Exploration

variable (S : SpecificationNetwork) (p : ExactParams)

/-- The state of the solver after `generate_smt_instance`. -/
def generateSmtInstance (c : SolverCheckPoint) : SolverState :=
  { c.state with
    assertions := fun v => c.state.assertions v ∧
      Generated S p c.cp v.vars (v.litE c.state.lit.e) (v.litS c.state.lit.s) }

def query (c : SolverCheckPoint) (v : Valuation) : Prop :=
  (generateSmtInstance S p c).assertions v ∧ v.litS c.state.lit.s ∧ v.litE c.state.lit.e ∧
    Assumed S p c.cp v.vars

def Satisfiable (φ : Valuation → Prop) : Prop := ∃ v, φ v

def scratch (ar : AspectRatio) : Valuation → Prop := query S p (fetchSolver .init ar).1

/-- `k - 1` for an unsigned number of 32 bits. -/
def pred32 (k : ℕ) : ℕ := (k + (2 ^ 32 - 1)) % 2 ^ 32

def skippable (lyt ar : AspectRatio) : Bool :=
  if !p.isRegularlyClocked then ar.x ≠ ar.y ∧ ar.x = lyt.y ∧ ar.y = lyt.x
  else if p.isClockingScheme .columnar then
    ar.x < S.depth ∨ p.borderIo ∧ ar.y < pred32 (max S.numPis S.numPos)
  else if p.isClockingScheme .row then
    ar.y < S.depth ∨ p.borderIo ∧ ar.x < pred32 (max S.numPis S.numPos)
  else false

/-- The number of tiles is stored in 16 bits. -/
def lowerBound : ℕ := (S.numGates + S.numPis) % 2 ^ 16

variable (check : (Valuation → Prop) → Bool)

/-- The loop of `run_synchronously`. `check` is the answer of the solver. -/
def explore (it : AspectRatioIterator) (h : SmtHandler) : Option AspectRatio :=
  if it.num ≤ p.upperBound then
    if skippable S p h.ar it.deref then explore it.advance h
    else
      let c := (fetchSolver h it.deref).1
      if check (query S p c) then some it.deref
      else
        let h := update h it.deref
        explore it.advance { h with
          solverTree := Function.update h.solverTree it.deref (some (generateSmtInstance S p c)) }
  else none
termination_by (p.upperBound + 1 - it.num, it.factors.length)
decreasing_by all_goals exact it.advance_lt ‹_›

/-- The aspect ratio of the layout that is returned, for `fixed_size` zero. -/
def runSynchronously : Option AspectRatio :=
  explore S p check (.start (lowerBound S)) .init

end Exploration
end Fiction.Exact
