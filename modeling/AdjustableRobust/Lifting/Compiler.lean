import AdjustableRobust.Lifting.Model
import AdjustableRobust.Lifting.Placement
import AdjustableRobust.Policy.Affine

/-!
# Piecewise affine policies

The compiler for piecewise affine decision rules: it collects breakpoints, builds the lifted model
and hands it to the compiler for affine policies. Affine policies in the pieces are piecewise
affine policies in the uncertainties of the base model.
-/

namespace AdjustableRobust

/-- How far a lifting compiler has come. -/
inductive LiftingStage (α β : Type) [Scalar α] where
  /-- Breakpoints are collected; the backend waits. -/
  | collecting (backend : β)
  /-- The lifted model exists and was handed on. -/
  | lifted (lifting : Lifting α) (inner : AffineCompiler α β)

/-- Compiles a robust model under piecewise affine policies. -/
structure LiftingCompiler (α β : Type) [Scalar α] where
  model : RobustModel α
  options : LiftingOptions
  series : List (BreakpointSeries α)
  settings : SolverSettings α
  liftedOwner : OwnerId
  /-- Owner of the compiled lifted model. -/
  conicOwner : OwnerId
  stage : LiftingStage α β
  diagnostics : Diagnostics

namespace LiftingCompiler

variable {α β : Type} [Scalar α]

/-- A compiler without breakpoints. -/
def new (model : RobustModel α) (backend : β) (settings : SolverSettings α)
    (liftedOwner conicOwner : OwnerId) : LiftingCompiler α β :=
  { model, options := .standard, series := [], settings, liftedOwner, conicOwner,
    stage := .collecting backend, diagnostics := .empty }

/-- The compiler of the lifted model, once the lifted model exists. -/
def inner? (c : LiftingCompiler α β) : Option (AffineCompiler α β) :=
  match c.stage with
  | .collecting _ => none
  | .lifted _ inner => some inner

/-! ## Breakpoints -/

/-- Add breakpoints along a direction, before the lifted model exists. -/
def addBreakpoints (points : List α) (direction : LinearExpr α UncertaintyRef) :
    Step (LiftingCompiler α β) (PolicyError α) Unit := do
  let c ← get
  if c.inner?.isSome then throw (.solver .alreadyBuilt)
  let s ← Step.ofExcept id (BreakpointSeries.make points direction c.model.uncertaintyScope)
  set { c with series := c.series ++ [s] }

/-- Add breakpoints to each uncertainty in turn. Those added before a failure stay. -/
def addToEach (points : Nat → UncertaintyVariable α → List α) :
    Step (LiftingCompiler α β) (PolicyError α) Unit := do
  (← get).model.uncertainty.vars.entries.forM fun (h, v) =>
    addBreakpoints (points h.slot v) (.var h)

/-- Cut every uncertainty into pieces of equal width. Without bounds there is no such cut, and
adding the breakpoints says so. -/
def addEquidistant (pieces : Nat) : Step (LiftingCompiler α β) (PolicyError α) Unit :=
  addToEach fun _ v =>
    match v.bounds.lower?, v.bounds.upper? with
    | some l, some u => Placement.equidistant l u pieces
    | _, _ => []

/-- Add the same breakpoints to every uncertainty, induced by the largest sums of magnitudes. The
set has to stay the same under permutations, and be symmetric or non-negative. -/
def addKappaInduced (pieces : Nat) : Step (LiftingCompiler α β) (PolicyError α) Unit := do
  let set := (← get).model.uncertainty
  let settle (v : Verdict) : Step (LiftingCompiler α β) (PolicyError α) Bool :=
    Step.ofChange fun c =>
      let (answer, diagnostics) := c.diagnostics.settle v
      (answer, { c with diagnostics })
  if !(← settle set.rotationalInvariance) then
    throw (.kappaRequirements "the uncertainty set is not rotationally invariant")
  let symmetric ← settle set.symmetry
  if !symmetric && !set.nonNegative then
    throw (.kappaRequirements "the uncertainty set is neither symmetric nor non-negative")
  let points ← Step.ofExcept .model (Placement.kappaInduced set symmetric pieces)
  addToEach fun _ _ => points

/-- Induced breakpoints with one piece for each uncertainty. -/
def addFullKappaInduced : Step (LiftingCompiler α β) (PolicyError α) Unit := do
  addKappaInduced (← get).model.numUncertainties

/-- Add breakpoints to every uncertainty at percentiles of realizations. -/
def addPercentiles (pieces : Nat) (rows : List (List α)) :
    Step (LiftingCompiler α β) (PolicyError α) Unit := do
  if rows.isEmpty then throw (.model .emptyRealizations)
  let expected := (← get).model.numUncertainties
  match rows.find? (·.length ≠ expected) with
  | some row => throw (.model (.realizationDimension expected row.length))
  | none =>
    addToEach fun position _ =>
      Placement.percentiles (rows.map fun row => row[position]?.getD 0) pieces

/-! ## Compilation and solving -/

/-- Build the lifted model and compile it, which is done only once. When the lifted model exists
it stays, also if its compilation fails. -/
def build : Step (LiftingCompiler α β) (PolicyError α) Unit := do
  let c ← get
  match c.stage with
  | .lifted _ _ => throw (.solver .alreadyBuilt)
  | .collecting backend =>
    let (lifted, lifting) ← Step.focus (·.diagnostics) (fun c diagnostics => { c with diagnostics })
      id (LiftedModel.build c.model c.series c.options c.liftedOwner)
    let inner : AffineCompiler α β := .new lifted backend c.settings c.conicOwner
    let (result, inner) := AffineCompiler.build.perform inner
    modify fun c => { c with stage := .lifted lifting inner }
    Step.ofExcept id result

/-- Build if needed, then solve the compiled lifted model with the current settings. -/
def solve [ConicBackend α β] : Step (LiftingCompiler α β) (PolicyError α) OptimizationStatus := do
  if (← get).inner?.isNone then build
  let c ← get
  match c.stage with
  | .collecting _ => throw .notBuilt
  | .lifted lifting inner =>
    let inner := inner.modifySolver fun s => { s with settings := c.settings }
    let (result, inner) := AffineCompiler.solve.perform inner
    set { c with stage := .lifted lifting inner }
    Step.ofExcept id result

/-- Outcome of the last solve. -/
def status (c : LiftingCompiler α β) : OptimizationStatus :=
  match c.inner? with
  | some inner => inner.solver.status
  | none => .unsolved

/-- Whether the last solve found an optimum. -/
def hasSolution (c : LiftingCompiler α β) : Bool := c.inner?.any (·.solver.hasSolution)

/-- Time of the last solve. -/
def runtime? (c : LiftingCompiler α β) : Option α := c.inner?.bind (·.solver.runtime?)

/-- Objective value of the last solve, if it found an optimum. -/
def objectiveValue? (c : LiftingCompiler α β) : Option α :=
  c.inner?.bind (·.solver.objectiveValue?)

/-! ## Results -/

/-- Whether the lifted model was compiled. -/
def isBuilt (c : LiftingCompiler α β) : Bool := c.inner?.any (·.isBuilt)

/-- The compiler of the lifted model, when it has compiled. -/
def inner (c : LiftingCompiler α β) : Except (PolicyError α) (AffineCompiler α β) :=
  match c.inner? with
  | some inner => if inner.isBuilt then .ok inner else .error .notBuilt
  | none => .error .notBuilt

/-- The lifted model, when it was compiled. -/
def liftedModel (c : LiftingCompiler α β) : Except (PolicyError α) (RobustModel α) := do
  return (← c.inner).model

/-- The lifted realization that belongs to a realization. -/
def lift (c : LiftingCompiler α β) (r : List α) : Except (PolicyError α) (List α) :=
  match c.stage with
  | .collecting _ => .error .notBuilt
  | .lifted lifting _ => PolicyError.fromModel (lifting.lift r)

/-- Decisions of all piecewise affine policies at a realization. -/
def solutionAt (c : LiftingCompiler α β) (r : List α) : Except (PolicyError α) (Solution α) := do
  let lifted ← c.lift r
  let solution ← (← c.inner).solutionAt lifted
  PolicyError.fromModel (Solution.make c.model r solution.decisions)

end LiftingCompiler

end AdjustableRobust
