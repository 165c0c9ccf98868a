import AdjustableRobust.ModelError

/-!
# Solver errors

Why a conic model cannot be built or solved.
-/

namespace AdjustableRobust

/-- Causes of failure in building and solving conic models. -/
inductive SolverError (α : Type) where
  /-- What can be built only once was built before. -/
  | alreadyBuilt
  /-- There is no optimal solution to read. -/
  | noSolution
  | backend (reason : String)
  | unsupportedIntegers
  /-- The backend has no exclusive groups. -/
  | unsupportedSos
  | nonConvex (name : String)
  | model (cause : ModelError α)

namespace SolverError

variable {α : Type}

/-- Text of the error. -/
def message [ScalarText α] : SolverError α → String
  | .alreadyBuilt => "The solver has already been built"
  | .noSolution => "No optimal solution available"
  | .backend reason => s!"Backend failure: {reason}"
  | .unsupportedIntegers => "The backend does not support integer variables"
  | .unsupportedSos => "The backend does not support SOS constraints"
  | .nonConvex name => s!"Constraint {name} is not convex"
  | .model cause => cause.message

/-- Results of model operations are results of solver operations. -/
instance : MonadLift (Except (ModelError α)) (Except (SolverError α)) where
  monadLift
    | .ok x => .ok x
    | .error e => .error (.model e)

end SolverError

end AdjustableRobust
