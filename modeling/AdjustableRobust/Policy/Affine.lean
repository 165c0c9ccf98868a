import AdjustableRobust.Policy.Counterpart
import AdjustableRobust.Robust.Solution
import AdjustableRobust.Solver.Lifecycle

/-!
# Affine policies

The compiler for affine decision rules: it declares the coefficients of all policies, compiles
the robust model into a conic one, has it solved and reads the policies back.
-/

namespace AdjustableRobust

/-- Compiles a robust model under affine policies. -/
structure AffineCompiler (α β : Type) [Scalar α] where
  model : RobustModel α
  conic : ConicModel α
  solver : ConicSolver α β
  policy : PolicyVariables
  /-- Whether the compilation succeeded. -/
  isBuilt : Bool
  diagnostics : Diagnostics

namespace AffineCompiler

variable {α β : Type} [Scalar α]

/-- A compiler that has not compiled yet. The compiled model belongs to the given owner. -/
def new (model : RobustModel α) (backend : β) (settings : SolverSettings α) (owner : OwnerId) :
    AffineCompiler α β :=
  ⟨model, .new s!"AARC of {model.name}" owner, .new backend settings, ⟨[], []⟩, false, .empty⟩

/-! ## Compilation -/

/-- A conic model under construction with the policy variables declared in it. -/
structure Draft (α : Type) [Scalar α] where
  conic : ConicModel α
  policy : PolicyVariables

/-- Declare a variable of the conic model. -/
def declare (name : String) : Step (Draft α) (PolicyError α) ConicRef :=
  Step.focus (·.conic) (fun d conic => { d with conic }) id (Counterpart.declare name .free)

/-- Declare the coefficients of the policy of a decision. They are recorded when all of them are
declared. -/
def declareFactors (model : RobustModel α) (d : DecisionVariable α) :
    Step (Draft α) (PolicyError α) Unit := do
  let factors ← d.dependencies.mapM fun u => do
    let v ← Step.ofExcept .model (model.uncertainty.variableAt u)
    declare s!"AV_{d.name}{v.name}"
  modify fun draft =>
    { draft with policy := { draft.policy with factors := draft.policy.factors ++ [factors] } }

/-- Declare the constant of the policy of a decision. -/
def declareConstant (d : DecisionVariable α) : Step (Draft α) (PolicyError α) Unit := do
  let constant ← declare s!"B_{d.name}"
  modify fun draft =>
    { draft with policy := { draft.policy with constants := draft.policy.constants ++ [constant] } }

/-- Declare the coefficients of all policies, then all constants. -/
def declarePolicies (model : RobustModel α) : Step (Draft α) (PolicyError α) Unit := do
  model.decisions.items.forM (declareFactors model)
  model.decisions.items.forM declareConstant

/-- Compile the robust model, which is done only once. What was added before a failure stays. -/
def build : Step (AffineCompiler α β) (PolicyError α) Unit := do
  let c ← get
  if c.isBuilt then throw (.solver .alreadyBuilt)
  Step.focus (fun c => Draft.mk c.conic c.policy)
    (fun c d => { c with conic := d.conic, policy := d.policy }) id (declarePolicies c.model)
  let policy := (← get).policy
  Step.focus (·.conic) (fun c conic => { c with conic }) id (Counterpart.compile c.model policy)
  modify fun c => { c with isBuilt := true }

/-! ## Solving -/

/-- Compile if needed, then solve the compiled model. An outcome without optimum leaves a
warning. -/
def solve [ConicBackend α β] : Step (AffineCompiler α β) (PolicyError α) OptimizationStatus := do
  if !(← get).isBuilt then build
  let status ← Step.focus (fun c => SolverRun.mk c.solver c.conic)
    (fun c r => { c with solver := r.solver, conic := r.model }) .solver SolverRun.solve
  if status ≠ .optimal then
    modify fun c =>
      let message := s!"{c.conic.name} finished with status {status.text}"
      { c with diagnostics := c.diagnostics.warn message }
  return status

/-- Change the solver, for instance its limits. -/
def modifySolver (c : AffineCompiler α β) (f : ConicSolver α β → ConicSolver α β) :
    AffineCompiler α β :=
  { c with solver := f c.solver }

/-! ## Policies -/

/-- Coefficient variables of the policy of a decision. -/
def factors (c : AffineCompiler α β) (d : DecisionRef) :
    Except (PolicyError α) (List ConicRef) := do
  if !c.isBuilt then throw .notBuilt
  let _ ← PolicyError.fromModel (c.model.decisionAt d)
  PolicyError.fromStore (d.lookup c.policy.factors)

/-- Constant variable of the policy of a decision. -/
def constant (c : AffineCompiler α β) (d : DecisionRef) : Except (PolicyError α) ConicRef := do
  if !c.isBuilt then throw .notBuilt
  let _ ← PolicyError.fromModel (c.model.decisionAt d)
  PolicyError.fromStore (d.lookup c.policy.constants)

/-- Value of a conic variable in the last solution. -/
def valueOf (c : AffineCompiler α β) (v : ConicRef) : Except (PolicyError α) α :=
  PolicyError.fromSolver (c.solver.value c.conic v)

/-- The solved policy of a decision. -/
def affinePolicy (c : AffineCompiler α β) (d : DecisionRef) :
    Except (PolicyError α) (AffinePolicy α) := do
  let v ← PolicyError.fromModel (c.model.decisionAt d)
  let constant ← c.valueOf (← c.constant d)
  let factors ← c.factors d
  let pairs ← (v.dependencies.zip factors).mapM fun (u, a) => return (u, ← c.valueOf a)
  return ⟨constant, entriesOf pairs⟩

/-- The robust model with the solved policy of every decision attached. -/
def modelWithPolicies (c : AffineCompiler α β) : Except (PolicyError α) (RobustModel α) :=
  c.model.decisions.handles.foldlM (fun m d => do
    PolicyError.fromModel (m.setPolicy d (← c.affinePolicy d))) c.model

/-- Decisions of all policies at a realization. -/
def solutionAt (c : AffineCompiler α β) (r : List α) : Except (PolicyError α) (Solution α) := do
  let expected := c.model.numUncertainties
  if r.length ≠ expected then throw (.model (.realizationDimension expected r.length))
  let decisions ← c.model.decisions.handles.mapM fun d => do
    PolicyError.fromModel ((← c.affinePolicy d).value (.ofList r))
  PolicyError.fromModel (Solution.make c.model r decisions)

/-! ## Reoptimization -/

/-- The policy of a decision with the uncertainties fixed, as a conic expression. -/
def policyAt (c : AffineCompiler α β) (r : List α) (d : DecisionRef) :
    Except (ModelError α) (AffineExpr α ConicRef) := do
  let v ← c.model.decisionAt d
  let factors ← d.lookup c.policy.factors
  let constant ← d.lookup c.policy.constants
  (v.dependencies.zip factors).foldlM (fun (e : AffineExpr α ConicRef) (u, a) => do
    return e.addTerm (← Assignment.ofList r u) a) (.var constant)

/-- Append the objective at a realization, as a further objective of the compiled model. -/
def addReoptimization (c : AffineCompiler α β) (r : List α) :
    Except (PolicyError α) (AffineCompiler α β) := do
  if !c.isBuilt then throw .notBuilt
  let objective ← PolicyError.fromModel c.model.objective
  let e ← PolicyError.fromModel
    (objective.expression.substituteToConic (c.policyAt r) (.ofList r))
  return { c with conic := c.conic.addObjective (.new objective.sense e) }

/-- Append the objective at the realization in which every uncertainty is one. -/
def addAverageReoptimization (c : AffineCompiler α β) :
    Except (PolicyError α) (AffineCompiler α β) :=
  c.addReoptimization (List.replicate c.model.numUncertainties 1)

end AffineCompiler

end AdjustableRobust
