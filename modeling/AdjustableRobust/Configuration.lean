import AdjustableRobust.Scalar.Basic

/-!
# Configuration

Defaults that models, solvers and compilers read when they are created. Objects keep the values
they read, so a later change does not reach them.
-/

namespace AdjustableRobust

/-- The bundled solver backends. -/
inductive SolverChoice where
  | interiorPoint
  deriving DecidableEq, Repr

/-- Name of a backend as it is configured. -/
def SolverChoice.text : SolverChoice → String
  | .interiorPoint => "Clarabel"

/-- Default values. -/
structure Configuration (α : Type) where
  feasibilityTolerance : α
  /-- Gap and feasibility tolerance of the conic solver. -/
  solverTolerance : α
  /-- Relative slack that fixes earlier objectives of a hierarchical solve. -/
  objectiveTolerance : α
  verbose : Bool
  solver : SolverChoice

/-- One divided by a power of ten. -/
def decimalPlace {α : Type} [Scalar α] (places : Nat) : α := 1 / (Nat.pow 10 places : α)

/-- The configuration that holds until it is changed. -/
def Configuration.standard {α : Type} [Scalar α] : Configuration α where
  feasibilityTolerance := decimalPlace 3
  solverTolerance := decimalPlace 7
  objectiveTolerance := decimalPlace 6
  verbose := false
  solver := .interiorPoint

end AdjustableRobust
