import Fiction.PhysicalDesign.SolverStates
import Fiction.Library.TransitionSystem

/-!
# The asynchronous exploration

Several threads take aspect ratios from one iterator. Each one skips or examines them with a handler
of its own, until it finds a layout, exceeds the upper bound, or comes to an aspect ratio that is
not smaller than a published result. A thread that publishes a result interrupts all threads that
have recorded aspect ratios that are not smaller. A step of the system is a step of one thread up
to the next access to shared data.
-/

namespace Fiction.Exact

inductive ProgramPoint where
  | create
  | fetch
  | examine (ar : AspectRatio)
  | compare (ar : AspectRatio)
  | record (ar : AspectRatio)
  | solve (ar : AspectRatio) (c : SolverCheckPoint)
  | publish (ar : AspectRatio)
  | interrupt (ar : AspectRatio) (next : ℕ)
  | returned (layout : Option AspectRatio)

/-- `workerAspectRatio` is the entry of the list that the threads share, and `interrupted` belongs
to the context in that list. -/
structure Worker where
  point : ProgramPoint
  handler : SmtHandler
  workerAspectRatio : AspectRatio
  interrupted : Bool

structure ExplorationState where
  ari : AspectRatioIterator
  resultAspectRatio : Option AspectRatio
  workers : ℕ → Worker

/-- An interrupted solver may still answer. If not, it answers `unknown`, which counts as
unsatisfiable, or throws an exception. -/
inductive SolverOutcome where
  | answer | unknown | exception
  deriving DecidableEq, Repr

structure ThreadStep where
  thread : ℕ
  outcome : SolverOutcome
  deriving DecidableEq, Repr

def ExplorationState.setWorker (s : ExplorationState) (i : ℕ) (w : Worker) : ExplorationState :=
  { s with workers := Function.update s.workers i w }

def ExplorationState.goto (s : ExplorationState) (i : ℕ) (pt : ProgramPoint) : ExplorationState :=
  s.setWorker i { s.workers i with point := pt }

section Threads

variable (S : SpecificationNetwork) (p : ExactParams) (check : (Valuation → Prop) → Bool)
  (numThreads : ℕ)

def storeSolverState (h : SmtHandler) (ar : AspectRatio) (c : SolverCheckPoint) : SmtHandler :=
  { h with solverTree := Function.update h.solverTree ar (some (generateSmtInstance S p c)) }

def fetchRatio (s : ExplorationState) (i : ℕ) : ExplorationState :=
  { s with ari := s.ari.advance }.goto i (.examine s.ari.advance.deref)

def examineRatio (s : ExplorationState) (i : ℕ) (ar : AspectRatio) : ExplorationState :=
  if p.upperBound < ar.area then s.goto i (.returned none)
  else if skippable S p (s.workers i).handler.ar ar then s.goto i .fetch
  else s.goto i (.compare ar)

def compareRatio (s : ExplorationState) (i : ℕ) (ar : AspectRatio) : ExplorationState :=
  match s.resultAspectRatio with
  | some r => if r.area ≤ ar.area then s.goto i (.returned none) else s.goto i (.record ar)
  | none => s.goto i (.record ar)

def recordRatio (s : ExplorationState) (i : ℕ) (ar : AspectRatio) : ExplorationState :=
  s.setWorker i { s.workers i with
    workerAspectRatio := ar
    handler := update (s.workers i).handler ar
    point := .solve ar (fetchSolver (s.workers i).handler ar).1 }

def refuteRatio (s : ExplorationState) (i : ℕ) (ar : AspectRatio) (c : SolverCheckPoint) :
    ExplorationState :=
  s.setWorker i { s.workers i with
    handler := storeSolverState S p (s.workers i).handler ar c
    point := .fetch }

def solveRatio (s : ExplorationState) (i : ℕ) (ar : AspectRatio) (c : SolverCheckPoint)
    (outcome : SolverOutcome) : ExplorationState :=
  match outcome with
  | .exception => s.goto i (.returned none)
  | .unknown => refuteRatio S p s i ar c
  | .answer => if check (query S p c) then s.goto i (.publish ar) else refuteRatio S p s i ar c

def publishRatio (s : ExplorationState) (i : ℕ) (ar : AspectRatio) : ExplorationState :=
  match s.resultAspectRatio with
  | none => { s with resultAspectRatio := some ar }.goto i (.interrupt ar 0)
  | some r =>
    if ar.area < r.area then { s with resultAspectRatio := some ar }.goto i (.interrupt ar 0)
    else s.goto i (.returned none)

def interruptWorker (s : ExplorationState) (ar : AspectRatio) (k : ℕ) : ExplorationState :=
  if ar.area ≤ (s.workers k).workerAspectRatio.area then
    s.setWorker k { s.workers k with interrupted := true }
  else s

def interruptNext (s : ExplorationState) (i : ℕ) (ar : AspectRatio) (k : ℕ) : ExplorationState :=
  if k < numThreads then (interruptWorker s ar k).goto i (.interrupt ar (k + 1))
  else s.goto i (.returned (some (s.workers i).handler.ar))

def exploreAsynchronously (s : ExplorationState) (i : ℕ) (outcome : SolverOutcome) :
    ExplorationState :=
  match (s.workers i).point with
  | .create => s.goto i .fetch
  | .fetch => fetchRatio s i
  | .examine ar => examineRatio S p s i ar
  | .compare ar => compareRatio s i ar
  | .record ar => recordRatio s i ar
  | .solve ar c => solveRatio S p check s i ar c outcome
  | .publish ar => publishRatio s i ar
  | .interrupt ar k => interruptNext numThreads s i ar k
  | .returned _ => s

def ProgramPoint.isReturned : ProgramPoint → Bool
  | .returned _ => true
  | _ => false

/-- `fixed_size` replaces the lower bound if it is set. -/
def firstSize (fixedSize : ℕ) : ℕ := if fixedSize ≠ 0 then fixedSize else lowerBound S

def explorationSystem (fixedSize : ℕ) : TransitionSystem ExplorationState ThreadStep where
  init := ⟨.start (firstSize S fixedSize), none, fun _ => ⟨.create, .init, ⟨0, 0⟩, false⟩⟩
  enabled s l := l.thread < numThreads ∧ (s.workers l.thread).point.isReturned = false ∧
    (l.outcome ≠ .answer → (s.workers l.thread).interrupted = true)
  step s l := exploreAsynchronously S p check numThreads s l.thread l.outcome

def Complete (s : ExplorationState) : Prop :=
  ∀ i < numThreads, (s.workers i).point.isReturned = true

/-- The rest of `run_asynchronously`: the layout of the winner is found by its aspect ratio. -/
def extractResult (s : ExplorationState) : Option AspectRatio :=
  s.resultAspectRatio.map fun r => (List.range numThreads).foldl (fun layout i =>
    match (s.workers i).point with
    | .returned (some l) => if l.x = r.x ∧ l.y = r.y then l else layout
    | _ => layout) ⟨0, 0⟩

/-- `run_synchronously` for any fixed size. -/
def runSynchronouslyFrom (fixedSize : ℕ) : Option AspectRatio :=
  explore S p check (.start (firstSize S fixedSize)) .init

end Threads

end Fiction.Exact
