import AdjustableRobust.Conic.Model
import AdjustableRobust.Configuration
import AdjustableRobust.Solver.Error

/-!
# Solver backends

What a numerical solver has to provide: it builds its own representation of a conic model
and solves what it built last.
-/

namespace AdjustableRobust

/-- Outcome of an optimization. -/
inductive OptimizationStatus where
  /-- No usable solution was found, or nothing was solved yet. -/
  | unsolved
  | optimal
  | timeLimit
  | memoryLimit
  deriving DecidableEq, Repr

/-- Word for the outcome. -/
def OptimizationStatus.text : OptimizationStatus → String
  | .unsolved => "UNSOLVED"
  | .optimal => "OPTIMAL"
  | .timeLimit => "TIME_LIMIT"
  | .memoryLimit => "MEMORY_LIMIT"

/-- Parameters of a solve. -/
structure SolverSettings (α : Type) where
  /-- Limit on the time in seconds. -/
  runtimeLimit? : Option α
  /-- Limit on the memory in gigabytes. -/
  memoryLimit? : Option α
  verbose : Bool
  /-- Gap and feasibility tolerance. -/
  tolerance : α
  /-- Relative slack that fixes earlier objectives. -/
  objectiveTolerance : α

/-- Settings without limits, with the configured tolerances. -/
def SolverSettings.ofConfiguration {α : Type} (c : Configuration α) : SolverSettings α :=
  ⟨none, none, c.verbose, c.solverTolerance, c.objectiveTolerance⟩

/-- What a backend reports after a solve. -/
structure ProblemSolution (α : Type) where
  status : OptimizationStatus
  /-- Value of the most important objective. -/
  objective? : Option α
  /-- One value for each variable. -/
  values? : Option (List α)
  /-- One dual value for each constraint. -/
  duals? : Option (List α)
  /-- Time spent in seconds. -/
  runtime : α

/-- A report without any values. -/
def ProblemSolution.bare {α : Type} (status : OptimizationStatus) (runtime : α) :
    ProblemSolution α :=
  ⟨status, none, none, none, runtime⟩

/-- A numerical solver with states `β`. -/
class ConicBackend (α : outParam Type) [Scalar α] (β : Type) where
  name : β → String
  build : ConicModel α → Step β (SolverError α) Unit
  /-- Bring the representation up to date after the model changed. -/
  update : ConicModel α → Step β (SolverError α) Unit := build
  /-- Solve what was built last. -/
  solve : SolverSettings α → Step β (SolverError α) (ProblemSolution α)

/-- A backend of one of two kinds. -/
instance {α β γ : Type} [Scalar α] [ConicBackend α β] [ConicBackend α γ] :
    ConicBackend α (β ⊕ γ) where
  name := Sum.elim ConicBackend.name ConicBackend.name
  build m := Step.either (ConicBackend.build m) (ConicBackend.build m)
  update m := Step.either (ConicBackend.update m) (ConicBackend.update m)
  solve settings := Step.either (ConicBackend.solve settings) (ConicBackend.solve settings)

end AdjustableRobust
