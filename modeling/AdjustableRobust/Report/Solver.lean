import AdjustableRobust.Lifting.Compiler
import AdjustableRobust.Report.Model
import AdjustableRobust.Solver.Replay
import AdjustableRobust.Solver.StandardForm

/-!
# Reports of solvers and compilers

The state of solvers and compilers. A value that does not exist yet is reported as no number.
-/

namespace AdjustableRobust

/-- A number that may not exist yet. -/
def numberOrUndefined (x? : Option Float) : Report := .number (x?.getD (0 / 0))

instance : Reported OptimizationStatus := ⟨fun s => report s.text⟩

instance : Reported (Configuration Float) where
  report c := .record [("feasibility_tolerance", report c.feasibilityTolerance),
    ("solver_tolerance", report c.solverTolerance),
    ("objective_tolerance", report c.objectiveTolerance), ("verbose", report c.verbose),
    ("solver", report c.solver.text)]

instance : Reported (SolverSettings Float) where
  report s := .record [("runtime_limit", report s.runtimeLimit?),
    ("memory_limit", report s.memoryLimit?), ("verbose", report s.verbose),
    ("tolerance", report s.tolerance), ("objective_tolerance", report s.objectiveTolerance)]

instance : Reported Cone where
  report
    | .zero n => .list [report "ZeroConeT", report n]
    | .nonnegative n => .list [report "NonnegativeConeT", report n]
    | .secondOrder n => .list [report "SecondOrderConeT", report n]

instance : Reported (ColumnObjective Float) where
  report o := .record [("sense", report (match o.sense with
      | .minimize => "Minimize"
      | .maximize => "Maximize")),
    ("coefficients", .list (o.coefficients.map fun (column, c) => .list [report column, report c])),
    ("constant", report o.constant)]

instance : Reported (StandardForm Float) where
  report p := .record [("num_variables", report p.numVariables),
    ("num_columns", report p.numColumns),
    ("rows", .record [("a_rows", report (p.rows.entries.map (·.row))),
      ("a_cols", report (p.rows.entries.map (·.column))),
      ("a_vals", report (p.rows.entries.map (·.value))), ("b", report p.rows.rhs),
      ("cones", report p.rows.cones)]),
    ("objectives", report p.objectives),
    ("dual_rows", report (p.dualRows?.map fun rows =>
      rows.map fun (row, sign) => [report row, report sign]))]

instance : Reported (LoggedRequest Float) where
  report
    | .build name vars constraints => .record [("build", report name),
      ("variables", report vars), ("constraints", report constraints)]
    | .solve settings => .record [("solve", report settings)]

/-- The state of a solver, with the time of its last solve if asked for. -/
def ConicSolver.summary {β : Type} [ConicBackend Float β] (s : ConicSolver Float β)
    (withRuntime : Bool) : Report :=
  .record [("backend", report (ConicBackend.name s.backend)), ("state", report s.state.text),
    ("status", report s.status), ("built", report s.isBuilt),
    ("has_solution", report s.hasSolution), ("objective", numberOrUndefined s.objectiveValue?),
    ("runtime", if withRuntime then numberOrUndefined s.runtime? else .null)]

/-- The state of a compiler for affine policies. -/
def AffineCompiler.summary {β : Type} (c : AffineCompiler Float β) (withRuntime : Bool) : Report :=
  .record [("model", report c.model.name), ("conic", report c.conic.name),
    ("variables", report c.conic.numVariables),
    ("constraints", report c.conic.constraints.length), ("built", report c.isBuilt),
    ("status", report c.solver.status), ("has_solution", report c.solver.hasSolution),
    ("objective", numberOrUndefined c.solver.objectiveValue?),
    ("runtime", if withRuntime then numberOrUndefined c.solver.runtime? else .null),
    ("diagnostics", report c.diagnostics)]

/-- The conic variables of the policy of a decision. -/
def AffineCompiler.variableDetails {β : Type} (c : AffineCompiler Float β) (d : DecisionRef) :
    Except (PolicyError Float) Report := do
  return .record [("constant", report (← c.constant d)), ("factors", report (← c.factors d))]

/-- The state of a compiler for piecewise affine policies. -/
def LiftingCompiler.summary {β : Type} (c : LiftingCompiler Float β) (withRuntime : Bool) :
    Report :=
  .record [("model", report c.model.name), ("built", report c.isBuilt),
    ("status", report c.status), ("has_solution", report c.hasSolution),
    ("objective", numberOrUndefined c.objectiveValue?),
    ("runtime", if withRuntime then numberOrUndefined c.runtime? else .null),
    ("diagnostics", report c.diagnostics),
    ("inner", report (c.inner.map (·.summary withRuntime)))]

instance : Reported LiftingOptions where
  report o := .list [report o.breakpointTightening, report o.useOldBoxConstraints]

instance : Reported (BreakpointSeries Float) where
  report s := .record [("points", report s.breakPoints), ("direction", report s.direction),
    ("lb", report s.lower), ("ub", report s.upper), ("num_pieces", report s.numPieces),
    ("pieces", .list ((List.range (s.numPieces + 2)).map fun i =>
      report [s.pieceStart i, s.pieceEnd i, s.pieceWidth i])),
    ("axis_aligned", report s.isAxisAligned), ("axis", report s.axis),
    ("symmetric", report s.isSymmetric)]

end AdjustableRobust
