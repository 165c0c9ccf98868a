import AdjustableRobust.Solver.Error

/-!
# Policy errors

Why a robust model cannot be compiled under a family of policies.
-/

namespace AdjustableRobust

/-- Causes of failure in compiling robust models. -/
inductive PolicyError (α : Type) where
  /-- An equality cannot hold in expectation only. -/
  | equalityUnderStochastic (name : String)
  /-- A decision in a product must not depend on uncertainties. -/
  | scaledDecisionOnAdjustable (name : String)
  /-- Breakpoints need a direction that is a single variable. -/
  | notAxisAligned
  /-- Two series of breakpoints lift the same variable. -/
  | duplicateBreakpointDirection (name : String)
  | unorderedBreakpoints
  | unboundedDirection
  /-- The set does not induce breakpoints. -/
  | kappaRequirements (reason : String)
  | notBuilt
  | solver (cause : SolverError α)
  | model (cause : ModelError α)
  | store (cause : StoreError)

namespace PolicyError

variable {α : Type}

/-- Text of the error. -/
def message [ScalarText α] : PolicyError α → String
  | .equalityUnderStochastic name =>
    s!"Equality constraint {name} can't be compiled in STOCHASTIC mode"
  | .scaledDecisionOnAdjustable name =>
    "Uncertainty scaled decisions are only supported for decisions without dependencies, "
      ++ name ++ " has dependencies"
  | .notAxisAligned => "Only simple axis aligned breakpoint directions are supported"
  | .duplicateBreakpointDirection name => s!"Uncertainty variable {name} already has breakpoints"
  | .unorderedBreakpoints => "Breakpoints have to be increasing"
  | .unboundedDirection => "Breakpoint directions have to be bounded"
  | .kappaRequirements reason => s!"Kappa induced breakpoints are not available: {reason}"
  | .notBuilt => "The compiler has not been built"
  | .solver cause => cause.message
  | .model cause => cause.message
  | .store cause => cause.message

/-- The result of a store operation. -/
def fromStore {β : Type} (x : Except StoreError β) : Except (PolicyError α) β := x.mapError .store

/-- The result of a model operation. -/
def fromModel {β : Type} (x : Except (ModelError α) β) : Except (PolicyError α) β :=
  x.mapError .model

/-- The result of a solver operation. -/
def fromSolver {β : Type} (x : Except (SolverError α) β) : Except (PolicyError α) β :=
  x.mapError .solver

end PolicyError

end AdjustableRobust
