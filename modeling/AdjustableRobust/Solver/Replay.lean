import AdjustableRobust.Solver.Backend

/-!
# Replayed solves

A backend that solves nothing. It answers each solve with the next one of a list of recorded
answers, and keeps a log of what it was asked.
-/

namespace AdjustableRobust

/-- A recorded answer to a solve. Values and duals may depend on how many are needed. -/
inductive RecordedAnswer (α : Type) where
  | failure (reason : String)
  | solution (status : OptimizationStatus) (objective? : Option α)
      (values? duals? : Option (Nat → List α)) (runtime : α)

/-- What a backend was asked to do. -/
inductive LoggedRequest (α : Type) where
  | build (name : String) (vars constraints : Nat)
  | solve (settings : SolverSettings α)

/-- A list of answers and a log of requests. -/
structure Replay (α : Type) where
  /-- The answers that are left. -/
  answers : List (RecordedAnswer α)
  log : List (LoggedRequest α)
  /-- Number of variables of the model built last. -/
  vars : Nat
  /-- Number of constraints of the model built last. -/
  constraints : Nat

namespace Replay

variable {α : Type}

/-- Answers that have not been asked for. -/
def new (answers : List (RecordedAnswer α)) : Replay α := ⟨answers, [], 0, 0⟩

variable [Scalar α]

/-- Log a build. -/
def build (m : ConicModel α) : Step (Replay α) (SolverError α) Unit :=
  modify fun r =>
    let vars := m.numVariables
    let constraints := m.constraints.length
    { r with log := r.log ++ [.build m.name vars constraints], vars, constraints }

/-- Log a solve and give the next answer. -/
def solve (settings : SolverSettings α) : Step (Replay α) (SolverError α) (ProblemSolution α) := do
  modify fun r => { r with log := r.log ++ [.solve settings] }
  let r ← get
  match r.answers with
  | [] => throw (.backend "script exhausted")
  | answer :: answers =>
    set { r with answers }
    match answer with
    | .failure reason => throw (.backend reason)
    | .solution status objective? values? duals? runtime =>
      return ⟨status, objective?, values?.map (· r.vars), duals?.map (· r.constraints),
        runtime⟩

instance : ConicBackend α (Replay α) where
  name _ := "script"
  build := build
  solve := solve

end Replay

end AdjustableRobust
