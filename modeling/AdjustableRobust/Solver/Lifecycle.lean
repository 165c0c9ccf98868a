import AdjustableRobust.Solver.Backend

/-!
# The solver lifecycle

A solver drives a backend from unbuilt over built to solved, and copies what the backend reports
into the conic model. Hitting a limit is an outcome, not an error.
-/

namespace AdjustableRobust

/-- Where a solver stands. -/
inductive SolverState where
  | unbuilt
  /-- A model was built but not solved. -/
  | built
  | solved (status : OptimizationStatus)
  deriving DecidableEq, Repr

/-- Text of the state. -/
def SolverState.text : SolverState → String
  | .unbuilt => "Unbuilt"
  | .built => "Built"
  | .solved status => s!"Solved({status.text})"

/-- A backend with its settings and the summary of the last solve. -/
structure ConicSolver (α β : Type) where
  backend : β
  settings : SolverSettings α
  state : SolverState
  runtime? : Option α
  objective? : Option α

/-- A solver together with the model it works on. -/
structure SolverRun (α β : Type) [Scalar α] where
  solver : ConicSolver α β
  model : ConicModel α

namespace ConicSolver

variable {α β : Type}

/-- A solver that has not done anything. -/
def new (backend : β) (settings : SolverSettings α) : ConicSolver α β :=
  ⟨backend, settings, .unbuilt, none, none⟩

/-- Outcome of the last solve. -/
def status (s : ConicSolver α β) : OptimizationStatus :=
  match s.state with
  | .solved status => status
  | .unbuilt | .built => .unsolved

/-- Whether a model was built. -/
def isBuilt (s : ConicSolver α β) : Bool := s.state ≠ .unbuilt

/-- Whether the last solve found an optimum. -/
def hasSolution (s : ConicSolver α β) : Bool := s.status = .optimal

/-- Objective value of the last solve, if it found an optimum. -/
def objectiveValue? (s : ConicSolver α β) : Option α := if s.hasSolution then s.objective? else none

variable [Scalar α]

/-- Value of a variable in the solution stored in the model, after a solve that found an
optimum. -/
def value (s : ConicSolver α β) (m : ConicModel α) (v : ConicRef) : Except (SolverError α) α :=
  if !s.hasSolution then .error .noSolution
  else do return ← m.assignment v

variable [ConicBackend α β]

/-- Run a backend operation. -/
def onBackend {γ : Type} (x : Step β (SolverError α) γ) :
    Step (ConicSolver α β) (SolverError α) γ :=
  Step.focus (·.backend) (fun s backend => { s with backend }) id x

/-- Build a model, which a solver does only once. -/
def build (m : ConicModel α) : Step (ConicSolver α β) (SolverError α) Unit := do
  if (← get).isBuilt then throw .alreadyBuilt
  onBackend (ConicBackend.build m)
  modify fun s => { s with state := .built }

end ConicSolver

namespace SolverRun

variable {α β : Type} [Scalar α] [ConicBackend α β]

/-- Act on the solver. -/
def onSolver {γ : Type} (x : Step (ConicSolver α β) (SolverError α) γ) :
    Step (SolverRun α β) (SolverError α) γ :=
  Step.focus (·.solver) (fun r solver => { r with solver }) id x

/-- Act on the model. -/
def onModel {γ : Type} (x : Step (ConicModel α) (ModelError α) γ) :
    Step (SolverRun α β) (SolverError α) γ :=
  Step.focus (·.model) (fun r model => { r with model }) .model x

/-- Store the values that a backend reports for an optimum. Duals are stored only for continuous
affine models with at most one objective. -/
def store (solution : ProblemSolution α) : Step (SolverRun α β) (SolverError α) Unit := do
  match solution.values? with
  | none => return
  | some values =>
    onModel (ConicModel.setSolution values)
    modify fun r => { r with solver := { r.solver with objective? := solution.objective? } }
    let m := (← get).model
    if m.isAffine && !m.isMultiObjective && m.isContinuous then
      match solution.duals? with
      | some duals => onModel (ConicModel.setConstraintDuals duals)
      | none => return

/-- Build the model if nothing was built yet, else bring the backend up to date; then drop the
previous solution, solve, and store the new one. -/
def solve : Step (SolverRun α β) (SolverError α) OptimizationStatus := do
  let r ← get
  if r.solver.isBuilt then onSolver (ConicSolver.onBackend (ConicBackend.update r.model))
  else onSolver (ConicSolver.build r.model)
  modify fun r =>
    { solver := { r.solver with objective? := none }, model := r.model.dropSolution }
  let solution ← onSolver do
    ConicSolver.onBackend (ConicBackend.solve (← get).settings)
  modify fun r => { r with solver := { r.solver with runtime? := some solution.runtime } }
  if solution.status = .optimal then store solution
  modify fun r => { r with solver := { r.solver with state := .solved solution.status } }
  return solution.status

end SolverRun

end AdjustableRobust
