import AdjustableRobust.Conic.Variable
import AdjustableRobust.Expression.Conic
import AdjustableRobust.Objective
import AdjustableRobust.Step

/-!
# Conic models

Second order cone programs: bounded variables, constraints that relate conic expressions to zero,
groups of mutually exclusive variables, and objectives in order of priority. A model also holds
the values of its last solution.
-/

namespace AdjustableRobust

/-- Constraint of a conic model. -/
abbrev ConicConstraint (α : Type) := Constraint α (ConicExpr α ConicRef)

/-- Objective of a conic model. -/
abbrev ConicObjective (α : Type) := Objective α (AffineExpr α ConicRef)

/-- A second order cone program. -/
structure ConicModel (α : Type) [Scalar α] where
  name : String
  vars : Store .conic (ConicVariable α)
  constraints : List (ConicConstraint α)
  /-- Groups of variables of which at most one may be non-zero. -/
  exclusiveGroups : List (List ConicRef)
  /-- The objectives, the most important one first. -/
  objectives : List (ConicObjective α)

namespace ConicModel

variable {α : Type} [Scalar α]

/-- The empty model of an owner. -/
def new (name : String) (owner : OwnerId) : ConicModel α := ⟨name, .new owner, [], [], []⟩

/-- Number of variables. -/
def numVariables (m : ConicModel α) : Nat := m.vars.size

/-- Append a variable. -/
def push (m : ConicModel α) (v : ConicVariable α) : ConicRef × ConicModel α :=
  let (h, vars) := m.vars.add v
  (h, { m with vars })

/-- Add a variable of the given type. -/
def addVariableOfType (m : ConicModel α) (name : String) (bounds : Bounds α)
    (type : VariableType) : ConicRef × ConicModel α :=
  m.push ⟨name, bounds, type, none, none⟩

/-- Add a continuous variable. -/
def addVariable (m : ConicModel α) (name : String) (bounds : Bounds α) :
    ConicRef × ConicModel α :=
  m.addVariableOfType name bounds .continuous

/-- Add a continuous variable that is the dual of something. -/
def addDualVariable (m : ConicModel α) (name : String) (bounds : Bounds α)
    (info : DualInformation) : ConicRef × ConicModel α :=
  m.push ⟨name, bounds, .continuous, some info, none⟩

/-- Add continuous variables that share their bounds and are numbered from zero. -/
def addVariables (m : ConicModel α) (n : Nat) (name : String) (bounds : Bounds α) :
    List ConicRef × ConicModel α :=
  (List.range n).foldl (fun (hs, m) i =>
    let (h, m) := m.addVariable s!"{name}_{i}" bounds
    (hs ++ [h], m)) ([], m)

/-- Add numbered variables between the given ends. The ends are only looked at when there is a
variable to add. -/
def addVariablesBetween (m : ConicModel α) (n : Nat) (name : String) (lower? upper? : Option α) :
    Except (ModelError α) (List ConicRef × ConicModel α) := do
  if n = 0 then return ([], m)
  return m.addVariables n name (← Bounds.make lower? upper?)

/-- The variable behind a handle. -/
def variableAt (m : ConicModel α) (h : ConicRef) : Except (ModelError α) (ConicVariable α) :=
  m.vars.get h

/-- Bounds and names of the variables. -/
def scope (m : ConicModel α) : Scope α ConicRef where
  bounds h := return (← m.variableAt h).bounds.interval
  label h := return (← m.variableAt h).name

/-- Add a named constraint. -/
def addConstraint (m : ConicModel α) (name : String) (c : RawConstraint (ConicExpr α ConicRef)) :
    ConicModel α :=
  { m with constraints := m.constraints ++ [.named name c] }

/-- The constraint at a position. -/
def constraintAt (m : ConicModel α) (position : Nat) : Except (ModelError α) (ConicConstraint α) :=
  match m.constraints[position]? with
  | some c => .ok c
  | none => .error (.missingConstraint position)

/-- Allow at most one of the variables to be non-zero. -/
def addExclusiveGroup (m : ConicModel α) (vs : List ConicRef) : ConicModel α :=
  { m with exclusiveGroups := m.exclusiveGroups ++ [vs] }

/-- Append an objective, less important than those before it. -/
def addObjective (m : ConicModel α) (o : ConicObjective α) : ConicModel α :=
  { m with objectives := m.objectives ++ [o] }

/-- Make an objective the only one. -/
def setObjective (m : ConicModel α) (o : ConicObjective α) : ConicModel α :=
  { m with objectives := [o] }

/-- The most important objective. -/
def objective (m : ConicModel α) : Except (ModelError α) (ConicObjective α) :=
  match m.objectives with
  | o :: _ => .ok o
  | [] => .error .missingObjective

/-- Whether there is more than one objective. -/
def isMultiObjective (m : ConicModel α) : Bool := 1 < m.objectives.length

/-- Whether every variable is continuous. -/
def isContinuous (m : ConicModel α) : Bool :=
  m.vars.items.all fun v => v.type = .continuous

/-- Whether every constraint is affine and there are no exclusive groups. -/
def isAffine (m : ConicModel α) : Bool :=
  m.constraints.all (·.expression.isAffine) && m.exclusiveGroups.isEmpty

/-- Values of all variables at the last solution. -/
def solutionValues (m : ConicModel α) : Except (ModelError α) (List α) :=
  m.vars.items.mapM (·.value)

/-- Whether there are variables and all of them have a value. -/
def hasSolution (m : ConicModel α) : Bool :=
  !m.vars.isEmpty && m.vars.items.all (·.value?.isSome)

/-- The stored solution as an assignment. -/
def assignment (m : ConicModel α) : Assignment α ConicRef := fun h => do
  (← m.variableAt h).value

/-- Evaluate objectives at a list of values, up to the first one that fails. -/
def evaluateObjectives (values : List α) :
    List (ConicObjective α) → Except (ModelError α) Unit × List (ConicObjective α)
  | [] => (.ok (), [])
  | o :: os =>
    match o.expression.value (.ofList values) with
    | .error e => (.error e, o :: os)
    | .ok x =>
      let (result, os) := evaluateObjectives values os
      (result, o.setValue x :: os)

/-- Store one value per variable, then the value of each objective there. -/
def setSolution (values : List α) : Step (ConicModel α) (ModelError α) Unit := do
  let m ← get
  if values.length ≠ m.numVariables then
    throw (.realizationDimension m.numVariables values.length)
  let items := List.zipWith ConicVariable.setValue m.vars.items values
  let (result, objectives) := evaluateObjectives values m.objectives
  set { m with vars := { m.vars with items }, objectives }
  Step.ofExcept id result

/-- Store one dual value per constraint. -/
def setConstraintDuals (values : List α) : Step (ConicModel α) (ModelError α) Unit := do
  let m ← get
  if values.length ≠ m.constraints.length then
    throw (.realizationDimension m.constraints.length values.length)
  set { m with constraints := List.zipWith Constraint.setDual m.constraints values }

/-- Drop the values of variables and objectives and the duals of constraints. -/
def dropSolution (m : ConicModel α) : ConicModel α :=
  { m with
    vars := m.vars.mapItems (·.dropValue)
    objectives := m.objectives.map (·.dropValue)
    constraints := m.constraints.map (·.dropDual) }

/-- A stored value behind a printed line, in parentheses. -/
def storedText [ScalarText α] : Option α → String
  | some x => " (" ++ ScalarText.text x ++ ")"
  | none => ""

/-- Objectives, constraints, exclusive groups and variable bounds, one on each line. -/
def text [ScalarText α] (m : ConicModel α) : Except (ModelError α) String := do
  let objectives ← m.objectives.zipIdx.mapM fun (o, i) =>
    return s!"\nObjective {i + 1}: {o.sense.text} " ++ (← o.expression.text m.scope)
  let constraints ← m.constraints.mapM fun c =>
    return "\n" ++ (← c.text m.scope) ++ storedText c.dual?
  let groups ← m.exclusiveGroups.mapM fun vs => do
    let names ← vs.mapM m.scope.label
    return "\nSOS(" ++ ", ".intercalate names ++ ")"
  let vars := m.vars.items.map fun v =>
    "\n" ++ v.bounds.lowerText ++ " <= " ++ v.name ++ " <= " ++ v.bounds.upperText
      ++ storedText v.value?
  return m.name ++ String.join (objectives ++ constraints ++ groups ++ vars)

end ConicModel

end AdjustableRobust
