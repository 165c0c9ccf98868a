import AdjustableRobust.Solver.Backend
import AdjustableRobust.Solver.StandardForm

/-!
# Hierarchical solves

Objectives are optimized one after the other. Before the next one is optimized, a row keeps the
objective just optimized within its tolerance of the optimum. The cone backend does this on
standard forms, with any solver for a single objective.
-/

namespace AdjustableRobust

/-- Outcome of a solve for a single objective. -/
inductive SingleStatus where
  /-- Solved to the tolerance. -/
  | solved
  | timeLimit
  /-- Infeasible, unbounded or without progress. -/
  | failed
  deriving DecidableEq, Repr

/-- Result of a solve for a single objective. -/
structure SingleSolution (α : Type) where
  status : SingleStatus
  /-- Values of the columns. -/
  point : List α
  /-- Multipliers of the rows. -/
  multipliers : List α
  runtime : α

/-- Minimizes a list of column costs subject to rows. -/
abbrev SingleSolver (α : Type) :=
  SolverSettings α → Nat → ConeRows α → List α → SingleSolution α

namespace SingleStatus

/-- The outcome that is reported. -/
def outcome : SingleStatus → OptimizationStatus
  | .solved => .optimal
  | .timeLimit => .timeLimit
  | .failed => .unsolved

end SingleStatus

namespace StandardForm

variable {α : Type} [Scalar α]

/-- Costs of the columns, turned so that smaller is better. -/
def costs (numColumns : Nat) : Option (ColumnObjective α) → List α
  | none => List.replicate numColumns 0
  | some o => o.coefficients.foldl (fun q (column, c) => q.modify column (· + o.sense.sign * c))
      (List.replicate numColumns 0)

/-- The row that keeps an objective close to its optimum. -/
def fixRow (tolerance : α) (o : ColumnObjective α) (optimum : α) : Row α × α :=
  let slack := tolerance * Scalar.max (Scalar.abs optimum) 1
  match o.sense with
  | .minimize => (o.coefficients, optimum + slack - o.constant)
  | .maximize => (opposite o.coefficients, o.constant - optimum + slack)

/-- Optimize the objectives in turn, starting from the given rows and time. The result is the
last solution, or the outcome of the first solve that found no optimum. -/
def passes (solver : SingleSolver α) (settings : SolverSettings α) (numColumns : Nat) :
    List (Option (ColumnObjective α)) → ConeRows α → α → Option (SingleSolution α) →
    Except (OptimizationStatus × α) (Option (SingleSolution α) × α)
  | [], _, runtime, last? => .ok (last?, runtime)
  | o? :: os, rows, runtime, _ =>
    let s := solver settings numColumns rows (costs numColumns o?)
    let runtime := runtime + s.runtime
    if s.status = .solved then
      let rows := match o?, os with
        | some o, _ :: _ =>
          let (row, b) := fixRow settings.objectiveTolerance o (o.value s.point)
          rows.pushLinear row b .nonnegative
        | _, _ => rows
      passes solver settings numColumns os rows runtime (some s)
    else .error (s.status.outcome, runtime)

/-- Solve a standard form for all its objectives. Duals are only known for a single solve. -/
def solve (solver : SingleSolver α) (settings : SolverSettings α) (p : StandardForm α) :
    ProblemSolution α :=
  let objectives := if p.objectives.isEmpty then [none] else p.objectives.map some
  match passes solver settings p.numColumns objectives p.rows 0 none with
  | .error (status, runtime) => .bare status runtime
  | .ok (none, runtime) => .bare .unsolved runtime
  | .ok (some last, runtime) =>
    { status := .optimal
      objective? := p.objectives.head?.map (·.value last.point)
      values? := some (last.point.take p.numVariables)
      duals? :=
        if objectives.length = 1 then
          p.dualRows?.map fun rows =>
            rows.map fun (row, sign) => sign * last.multipliers[row]?.getD 0
        else none
      runtime }

end StandardForm

/-- The backend that solves standard forms. -/
structure ConeBackend (α : Type) where
  solver : SingleSolver α
  /-- The standard form that was built last. -/
  problem? : Option (StandardForm α)

namespace ConeBackend

variable {α : Type} [Scalar α]

/-- Bring a model into standard form. A failure keeps the previous one. -/
def build (m : ConicModel α) : Step (ConeBackend α) (SolverError α) Unit := do
  let p ← Step.ofExcept id (StandardForm.ofModel m)
  modify fun b => { b with problem? := some p }

/-- Solve the standard form that was built last. -/
def solve (settings : SolverSettings α) :
    Step (ConeBackend α) (SolverError α) (ProblemSolution α) := do
  let b ← get
  match b.problem? with
  | none => throw (.backend "solve called before build")
  | some p => return p.solve b.solver settings

instance : ConicBackend α (ConeBackend α) where
  name _ := "clarabel"
  build := build
  solve := solve

end ConeBackend

end AdjustableRobust
