import AdjustableRobust.Conic.Model
import AdjustableRobust.Exchange.Policies
import AdjustableRobust.Report.Expression
import AdjustableRobust.Robust.Solution

/-!
# Reports of models

Conic and robust models are reported in full, with their parts in order of addition. Of single
variables, sets and solutions there are reports with all that the library knows of them.
-/

namespace AdjustableRobust

instance : Reported DualInformation where
  report
    | .constraint i => .list [report "Constraint", report i]
    | .row i r => .list [report "Row", report i, report r]
    | .lowerBound v => .list [report "Lb", report v]
    | .upperBound v => .list [report "Ub", report v]

instance : Reported (ConicModel Float) where
  report m := .record [("name", report m.name),
    ("variables", .list (m.vars.items.map fun v =>
      .list [report v.name, v.bounds.lowerReport, v.bounds.upperReport, report v.type,
        report v.dualOf?, report v.value?])),
    ("constraints", .list (m.constraints.map fun c => .list (c.reportItems ++ [report c.dual?]))),
    ("objectives", .list (m.objectives.map fun o =>
      .list [report o.sense, report o.expression, report o.value?])),
    ("sos", report m.exclusiveGroups)]

/-- Whether and how a model is solved. -/
def ConicModel.summary (m : ConicModel Float) : Report :=
  .record [("name", report m.name), ("n", report m.numVariables),
    ("continuous", report m.isContinuous), ("all_affine", report m.isAffine),
    ("multi_objective", report m.isMultiObjective), ("has_solution", report m.hasSolution),
    ("values", report m.solutionValues),
    ("objective", report (m.objective.map fun o =>
      [report o.sense, report o.expression, report o.value]))]

/-- A variable with its printed form and its value. -/
def ConicModel.variableDetails (m : ConicModel Float) (h : ConicRef) :
    Except (ModelError Float) Report := do
  let v ← m.variableAt h
  return .record [("text", report v.text), ("label", report (m.scope.label h)),
    ("bounds", report (m.scope.bounds h)), ("has_value", report v.value?.isSome),
    ("value", report v.value), ("value_of", report (m.assignment h))]

/-- A constraint with its printed form and its dual. -/
def ConicModel.constraintDetails (m : ConicModel Float) (position : Nat) :
    Except (ModelError Float) Report := do
  let c ← m.constraintAt position
  return .record [("string", report (c.text m.scope)), ("affine", report c.expression.isAffine),
    ("bound", report c.isVariableBound), ("dual_lb", c.sense.dualBounds.lowerReport),
    ("dual_ub", c.sense.dualBounds.upperReport), ("has_dual", report c.hasDual),
    ("dual", report c.dualValue)]

instance : Reported Diagnostics := ⟨fun d => report (d.entries.map (·.text))⟩

/-- Diagnostics with their number of warnings. -/
def Diagnostics.summary (d : Diagnostics) : Report :=
  .record [("entries", report d), ("warnings", report d.warnings.length),
    ("has_warnings", report d.hasWarnings)]

instance : Reported (AffinePolicy Float) where
  report p := .record [("constant", report p.constant),
    ("scales", .list (p.scales.map fun (u, x) => .list [report u, report x]))]

/-- A policy with its value at a realization and its printed form. -/
def AffinePolicy.details (p : AffinePolicy Float) (s : Scope Float UncertaintyRef)
    (a : Assignment Float UncertaintyRef) : Report :=
  .record [("policy", report p), ("value", report (p.value a)), ("string", report (p.text s))]

/-- The policies of a model by name. -/
def NamedPolicy.reportAll (policies : List (String × NamedPolicy Float)) : Report :=
  .list (policies.map fun (name, p) => .list [report name, report p.constant,
    .list (p.scales.map fun (u, x) => .list [report u, report x])])

/-- Expectations of a linear expression, of the realization, and of its outer product. -/
def Distribution.details (d : Distribution Float) (e : LinearExpr Float UncertaintyRef) : Report :=
  .record [("value", report (d.expectedValue fun r => e.value (.ofList r))),
    ("vector", report (d.expectedVector pure)),
    ("matrix", report (d.expectedMatrix fun r => pure (r.map fun x => r.map fun y => x * y)))]

/-- A product with its name and its range. -/
def RobustModel.productDetails (m : RobustModel Float) (p : Product) :
    Except (ModelError Float) Report := do
  let scope := Product.scope m.uncertaintyScope m.decisionScope
  return .record [("label", report (← scope.label p)), ("bounds", report (← scope.bounds p))]

instance : Reported (RobustModel Float) where
  report m := .record [("name", report m.name),
    ("u", .list (m.uncertainty.vars.items.map fun v =>
      .list [report v.name, report v.period?, v.bounds.lowerReport, v.bounds.upperReport])),
    ("d", .list (m.decisions.items.map fun d =>
      .list [report d.name, report d.period?, d.bounds.lowerReport, d.bounds.upperReport,
        report d.dependencies])),
    ("sets", .list (m.uncertainty.alternatives.items.map fun set =>
      .list (set.constraints.map fun c => .list c.reportItems))),
    ("constraints", .list (m.constraints.map fun c => .list c.reportItems)),
    ("objective", report (m.objective?.map fun o => [report o.sense, report o.expression])),
    ("has_objective", report m.objective?.isSome), ("provider", report m.distribution?.isSome)]

/-- An uncertainty with its period and its range. -/
def UncertaintyVariable.details (v : UncertaintyVariable Float) : Report :=
  .record [("name", report v.name), ("period", report v.period?),
    ("has_period", report v.period?.isSome), ("bounds", report v.bounds),
    ("is_0_1", report v.bounds.isZeroOne), ("bounded", report v.bounds.isBounded)]

/-- A decision with its period and its range, and how it depends on some uncertainties. -/
def DecisionVariable.details (d : DecisionVariable Float) (us : List UncertaintyRef) : Report :=
  .record [("name", report d.name), ("period", report d.period?),
    ("has_period", report d.period?.isSome), ("bounds", report d.bounds),
    ("deps", report d.dependencies), ("depends_on", report (us.map d.dependsOn)),
    ("position", report (us.map d.dependencyPosition?))]

/-- The shape of an uncertainty set, with the warnings of questions that stay open. -/
def UncertaintySet.summary (s : UncertaintySet Float) : Report :=
  let (rotational, d) := Diagnostics.empty.settle s.rotationalInvariance
  let (symmetric, d) := d.settle s.symmetry
  .record [("type", report s.specialType.text), ("budget", report s.budget),
    ("n", report s.numVariables), ("sets", report s.alternatives.size),
    ("all_0_1", report s.allZeroOne), ("all_bounded", report s.allBounded),
    ("non_negative", report s.nonNegative), ("rotational", report rotational),
    ("symmetric", report symmetric), ("diagnostics", report d),
    ("lower", .list (s.bounds.map (·.lowerReport))),
    ("upper", .list (s.bounds.map (·.upperReport))), ("model", report s.modelName),
    ("single", report (s.single.map (·.constraints.length)))]

/-- An alternative with its printed constraints. -/
def UncertaintySet.alternativeDetails (s : UncertaintySet Float) (h : ConstraintSetRef) :
    Except (ModelError Float) Report := do
  let set ← s.alternativeAt h
  return .record [("empty", report set.isEmpty), ("box", report set.isBox),
    ("norm_ball", report (set.normBall? s.vars.handles).isSome),
    ("constraints", .list (set.constraints.map fun c =>
      .list [report (c.text s.scope), report c.isVariableBound]))]

/-- A solution, and whether it is feasible for its model up to a tolerance. -/
def Solution.details (s : Solution Float) (tolerance : Float) : Report :=
  .record [("u", report s.realization), ("d", report s.decisions),
    ("u_string", report s.realizationText), ("d_string", report s.decisionText),
    ("feasible", report (s.feasibleFor s.model tolerance)),
    ("objective", report (s.objectiveFor s.model)), ("model", report s.model.name)]

end AdjustableRobust
