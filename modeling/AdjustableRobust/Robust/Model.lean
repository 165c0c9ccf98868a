import AdjustableRobust.Objective
import AdjustableRobust.Robust.Decision
import AdjustableRobust.Robust.Distribution

/-!
# Robust models

Decisions, an uncertainty set, constraints that mix both, and an objective. Variables with a
period are wired when they are added: a decision depends on every uncertainty that is revealed in
its own or an earlier period, whichever of the two was added first.
-/

namespace AdjustableRobust

/-- Constraint of a robust model. -/
abbrev RobustConstraint (α : Type) := Constraint α (UncertainExpr α)

/-- Objective of a robust model. -/
abbrev RobustObjective (α : Type) := Objective α (UncertainExpr α)

/-- An optimization problem with uncertain parameters. -/
structure RobustModel (α : Type) [Scalar α] where
  name : String
  decisions : Store .decision (DecisionVariable α)
  uncertainty : UncertaintySet α
  constraints : List (RobustConstraint α)
  objective? : Option (RobustObjective α)
  /-- The distribution for stochastic expressions, once set. -/
  distribution? : Option (Distribution α)

namespace RobustModel

variable {α : Type} [Scalar α]

/-- The empty model of an owner. -/
def new (name : String) (owner : OwnerId) : RobustModel α :=
  ⟨name, .new owner, .new name owner, [], none, none⟩

/-! ## Decisions -/

/-- The uncertainties that are revealed up to a period. -/
def revealedBy (m : RobustModel α) (period : Nat) : List UncertaintyRef :=
  (m.uncertainty.vars.entries.filter fun (_, u) => u.period?.any (· ≤ period)).map (·.1)

/-- Append a decision. -/
def pushDecision (m : RobustModel α) (d : DecisionVariable α) : DecisionRef × RobustModel α :=
  let (h, decisions) := m.decisions.add d
  (h, { m with decisions })

/-- Add a decision. With a period it depends on the uncertainties revealed by then. -/
def addDecision (m : RobustModel α) (name : String) (period? : Option Nat)
    (lower? upper? : Option α) : Except (ModelError α) (DecisionRef × RobustModel α) := do
  let bounds ← Bounds.make lower? upper?
  let dependencies := match period? with
    | some period => m.revealedBy period
    | none => []
  return m.pushDecision ⟨name, period?, bounds, dependencies, none⟩

/-- Add a decision without a period that depends on exactly the given uncertainties. -/
def addDecisionDependingOn (m : RobustModel α) (name : String) (dependencies : List UncertaintyRef)
    (lower? upper? : Option α) : Except (ModelError α) (DecisionRef × RobustModel α) := do
  let bounds ← Bounds.make lower? upper?
  dependencies.forM fun u => do
    let _ ← m.uncertainty.variableAt u
  return m.pushDecision ⟨name, none, bounds, dependencies, none⟩

/-- The decision behind a handle. -/
def decisionAt (m : RobustModel α) (h : DecisionRef) :
    Except (ModelError α) (DecisionVariable α) :=
  m.decisions.get h

/-- Number of decisions. -/
def numDecisions (m : RobustModel α) : Nat := m.decisions.size

/-- Bounds and names of the decisions. -/
def decisionScope (m : RobustModel α) : Scope α DecisionRef where
  bounds h := return (← m.decisionAt h).bounds.interval
  label h := return (← m.decisionAt h).name

/-- Attach a policy to a decision. -/
def setPolicy (m : RobustModel α) (h : DecisionRef) (p : AffinePolicy α) :
    Except (ModelError α) (RobustModel α) := do
  return { m with decisions := ← m.decisions.modify h fun d => { d with policy? := some p } }

/-! ## Uncertainties -/

/-- Add an uncertainty. With a period it becomes a dependency of the decisions that are taken in
that period or later. -/
def addUncertainty (m : RobustModel α) (name : String) (period? : Option Nat)
    (lower? upper? : Option α) : Except (ModelError α) (UncertaintyRef × RobustModel α) := do
  let bounds ← Bounds.make lower? upper?
  let (h, uncertainty) := m.uncertainty.addVariable ⟨name, period?, bounds⟩
  let decisions := match period? with
    | none => m.decisions
    | some period => m.decisions.mapItems fun d =>
      if d.period?.any (period ≤ ·) then { d with dependencies := d.dependencies ++ [h] } else d
  return (h, { m with uncertainty, decisions })

/-- Number of uncertainties. -/
def numUncertainties (m : RobustModel α) : Nat := m.uncertainty.numVariables

/-- Bounds and names of the uncertainties. -/
def uncertaintyScope (m : RobustModel α) : Scope α UncertaintyRef := m.uncertainty.scope

/-- Add numbered variables one after the other. Those added before a failure stay. -/
def addFamily {κ : EntityKind} (n : Nat)
    (add : RobustModel α → Nat → Except (ModelError α) (Handle κ × RobustModel α)) :
    Step (RobustModel α) (ModelError α) (List (Handle κ)) :=
  (List.range n).mapM fun i => do
    let (h, m) ← Step.ofExcept id (add (← get) i)
    set m
    return h

/-- Add decisions that share period and bounds. -/
def addDecisions (n : Nat) (name : String) (period? : Option Nat) (lower? upper? : Option α) :
    Step (RobustModel α) (ModelError α) (List DecisionRef) :=
  addFamily n fun m i => m.addDecision s!"{name}{i}" period? lower? upper?

/-- Add decisions in consecutive periods. -/
def addDecisionsByPeriod (n : Nat) (name : String) (first : Nat) (lower? upper? : Option α) :
    Step (RobustModel α) (ModelError α) (List DecisionRef) :=
  addFamily n fun m i => m.addDecision s!"{name}{i}" (some (first + i)) lower? upper?

/-- Add uncertainties that share period and bounds. -/
def addUncertainties (n : Nat) (name : String) (period? : Option Nat) (lower? upper? : Option α) :
    Step (RobustModel α) (ModelError α) (List UncertaintyRef) :=
  addFamily n fun m i => m.addUncertainty s!"{name}{i}" period? lower? upper?

/-- Add uncertainties in consecutive periods. -/
def addUncertaintiesByPeriod (n : Nat) (name : String) (first : Nat) (lower? upper? : Option α) :
    Step (RobustModel α) (ModelError α) (List UncertaintyRef) :=
  addFamily n fun m i => m.addUncertainty s!"{name}{i}" (some (first + i)) lower? upper?

/-- Add a constraint to the last alternative of the uncertainty set. -/
def addUncertaintyConstraint (m : RobustModel α) (name : String)
    (c : RawConstraint (ConicExpr α UncertaintyRef)) : Except (ModelError α) (RobustModel α) := do
  return { m with uncertainty := ← m.uncertainty.addConstraint name c }

/-- Add a constraint to an alternative of the uncertainty set. -/
def addUncertaintyConstraintTo (m : RobustModel α) (set : ConstraintSetRef) (name : String)
    (c : RawConstraint (ConicExpr α UncertaintyRef)) : Except (ModelError α) (RobustModel α) := do
  return { m with uncertainty := ← m.uncertainty.addConstraintTo set name c }

/-- Add an alternative to the uncertainty set. -/
def addAlternative (m : RobustModel α) : ConstraintSetRef × RobustModel α :=
  let (h, uncertainty) := m.uncertainty.addAlternative
  (h, { m with uncertainty })

/-- Bound the norm that defines a ball or a budget set. -/
def addSpecialConstraint (m : RobustModel α) (type : SpecialSetType) (budget : α) :
    Except (ModelError α) (RobustModel α) := do
  return { m with uncertainty := ← m.uncertainty.addSpecialConstraint type budget }

/-- Drop all constraints on the uncertainty. -/
def clearUncertaintyConstraints (m : RobustModel α) : RobustModel α :=
  { m with uncertainty := m.uncertainty.clearConstraints }

/-! ## Constraints, objective and distribution -/

/-- Add a named constraint. -/
def addConstraint (m : RobustModel α) (name : String) (c : RawConstraint (UncertainExpr α)) :
    RobustModel α :=
  { m with constraints := m.constraints ++ [.named name c] }

/-- Set the objective. -/
def setObjective (m : RobustModel α) (o : RobustObjective α) : RobustModel α :=
  { m with objective? := some o }

/-- The objective, if it was set. -/
def objective (m : RobustModel α) : Except (ModelError α) (RobustObjective α) :=
  match m.objective? with
  | some o => .ok o
  | none => .error .missingObjective

/-- Set the distribution for stochastic expressions. -/
def setDistribution (m : RobustModel α) (d : Distribution α) : RobustModel α :=
  { m with distribution? := some d }

/-- The distribution for stochastic expressions, if it was set. -/
def distribution (m : RobustModel α) : Except (ModelError α) (Distribution α) :=
  match m.distribution? with
  | some d => .ok d
  | none => .error .missingExpectationProvider

/-- Objective, constraints, decision bounds and the uncertainty set, one item on each line. -/
def text [ScalarText α] (m : RobustModel α) : Except (ModelError α) String := do
  let objective ← m.objective
  let objectiveText ← objective.expression.text m.uncertaintyScope m.decisionScope
  let constraints ← m.constraints.mapM fun c => do
    let e ← c.expression.text m.uncertaintyScope m.decisionScope
    return "\n" ++ c.name ++ ": " ++ e ++ " " ++ c.sense.text ++ " 0"
  let decisions := m.decisions.items.map fun d => boundsLine d.name d.period? d.bounds
  let set ← m.uncertainty.text
  return m.name ++ "\n" ++ objective.sense.text ++ " " ++ objectiveText
    ++ String.join (constraints ++ decisions) ++ "\n" ++ set

end RobustModel

end AdjustableRobust
