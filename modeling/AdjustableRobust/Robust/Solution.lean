import AdjustableRobust.Robust.Model

/-!
# Solutions

A scenario together with the decisions taken in it: one value for each uncertainty and each
decision of a model. The numbers of values are checked when a solution is made.
-/

namespace AdjustableRobust

/-- Values of all uncertainties and decisions of a model. -/
structure Solution (α : Type) [Scalar α] where
  model : RobustModel α
  /-- Values of the uncertainties, in order. -/
  realization : List α
  /-- Values of the decisions, in order. -/
  decisions : List α

namespace Solution

variable {α : Type} [Scalar α]

/-- A solution with the right numbers of values. -/
def make (model : RobustModel α) (realization decisions : List α) :
    Except (ModelError α) (Solution α) := do
  if realization.length ≠ model.numUncertainties then
    throw (.realizationDimension model.numUncertainties realization.length)
  if decisions.length ≠ model.numDecisions then
    throw (.realizationDimension model.numDecisions decisions.length)
  return ⟨model, realization, decisions⟩

/-- Values of the uncertainties of the model; handles of other models are refused. -/
def uncertaintyAssignment (s : Solution α) : Assignment α UncertaintyRef := fun h => do
  let _ ← s.model.uncertainty.variableAt h
  h.lookup s.realization

/-- Values of the decisions of the model; handles of other models are refused. -/
def decisionAssignment (s : Solution α) : Assignment α DecisionRef := fun h => do
  let _ ← s.model.decisionAt h
  h.lookup s.decisions

/-- Value of an expression at the solution. -/
def evaluate (s : Solution α) (e : UncertainExpr α) : Except (ModelError α) α :=
  e.value s.uncertaintyAssignment s.decisionAssignment

/-- Whether the solution satisfies a constraint up to a tolerance. -/
def satisfies (s : Solution α) (c : RobustConstraint α) (tolerance : α) :
    Except (ModelError α) Bool := do
  return c.sense.holds (← s.evaluate c.expression) tolerance

/-- Whether the solution satisfies all given constraints. Those after the first one that fails
are not looked at. -/
def satisfiesAll (s : Solution α) (tolerance : α) :
    List (RobustConstraint α) → Except (ModelError α) Bool
  | [] => .ok true
  | c :: cs => do
    if ← s.satisfies c tolerance then satisfiesAll s tolerance cs else return false

/-- Whether every constraint of a model holds at the solution. -/
def feasibleFor (s : Solution α) (m : RobustModel α) (tolerance : α) :
    Except (ModelError α) Bool :=
  s.satisfiesAll tolerance m.constraints

/-- Value of the objective of a model at the solution. -/
def objectiveFor (s : Solution α) (m : RobustModel α) : Except (ModelError α) α := do
  s.evaluate (← m.objective).expression

/-- Names and values, one on each line. -/
def valueLines [ScalarText α] (names : List String) (values : List α) : String :=
  String.join (List.zipWith (fun name x => name ++ ": " ++ ScalarText.text x ++ "\n") names values)

/-- The printed values of the uncertainties. -/
def realizationText [ScalarText α] (s : Solution α) : String :=
  valueLines (s.model.uncertainty.vars.items.map (·.name)) s.realization

/-- The printed values of the decisions. -/
def decisionText [ScalarText α] (s : Solution α) : String :=
  valueLines (s.model.decisions.items.map (·.name)) s.decisions

end Solution

end AdjustableRobust
