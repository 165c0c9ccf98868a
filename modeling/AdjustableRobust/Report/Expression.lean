import AdjustableRobust.Expression.Conic
import AdjustableRobust.Expression.Uncertain
import AdjustableRobust.Report.Failure
import AdjustableRobust.Scalar.Binary64

/-!
# Reports of expressions

Expressions are reported term by term; a variable is reported by its position.
-/

namespace AdjustableRobust

instance : Reported NormKind := ⟨fun n => report n.text⟩

instance : Reported ConstraintSense := ⟨fun s => report s.text⟩

instance : Reported ObjectiveSense := ⟨fun s => report s.text⟩

instance : Reported UncertaintyMode := ⟨fun m => report m.text⟩

instance : Reported VariableType := ⟨fun t => report t.text⟩

/-- The lower bound, or minus infinity. -/
def Bounds.lowerReport (b : Bounds Float) : Report := .number (b.lower?.getD (-1 / 0))

/-- The upper bound, or infinity. -/
def Bounds.upperReport (b : Bounds Float) : Report := .number (b.upper?.getD (1 / 0))

instance : Reported (Bounds Float) := ⟨fun b => .list [b.lowerReport, b.upperReport]⟩

/-- A norm with its value on a list of coordinates. -/
def NormKind.details (n : NormKind) (xs : List Float) : Report :=
  .record [("value", report (n.apply xs)), ("dual", report n.dual), ("text", report n)]

/-- A relation with the range of duals, and whether it holds for a value. -/
def ConstraintSense.details (s : ConstraintSense) (value tolerance : Float) : Report :=
  .record [("text", report s), ("dual_lb", s.dualBounds.lowerReport),
    ("dual_ub", s.dualBounds.upperReport), ("holds", report (s.holds value tolerance))]

section

variable {κ : EntityKind}

instance {V : Type} [Reported V] : Reported (Term Float V) :=
  ⟨fun t => .list [report t.scale, report t.var]⟩

instance : Reported (LinearExpr Float (Handle κ)) := ⟨fun e => report e.terms⟩

/-- The constant and the terms of an affine expression. -/
def AffineExpr.reportFields (e : AffineExpr Float (Handle κ)) : List (String × Report) :=
  [("c", report e.constant), ("t", report e.linear)]

instance : Reported (AffineExpr Float (Handle κ)) := ⟨fun e => .record e.reportFields⟩

/-- The norm and the rows of a normed vector. -/
def NormedVector.reportFields (e : NormedVector Float (Handle κ)) : List (String × Report) :=
  [("n", report e.norm), ("rows", report e.rows)]

instance : Reported (NormedVector Float (Handle κ)) := ⟨fun e => .record e.reportFields⟩

instance : Reported (ConicExpr Float (Handle κ)) where
  report e := .record ((e.normed?.map (·.reportFields)).getD [] ++ e.affine.reportFields)

/-- A constraint by name, relation and expression. -/
def Constraint.reportItems {E : Type} [Reported E] (c : Constraint Float E) : List Report :=
  [report c.name, report c.sense, report c.expression]

/-- Everything that is known of a conic constraint: its printed form, and what it says at an
assignment. -/
def Constraint.details (c : Constraint Float (ConicExpr Float (Handle κ)))
    (s : Scope Float (Handle κ)) (a : Assignment Float (Handle κ)) (tolerance : Float) : Report :=
  .record [("name", report c.name), ("sense", report c.sense), ("string", report (c.text s)),
    ("is_variable_bound", report c.isVariableBound),
    ("dual_lb", c.sense.dualBounds.lowerReport), ("dual_ub", c.sense.dualBounds.upperReport),
    ("satisfied", report (c.feasible a 0)), ("feasible", report (c.feasible a tolerance)),
    ("dual", report c.dualValue)]

/-- A term with its value, its range and the name of its variable. -/
def Term.details (t : Term Float (Handle κ)) (s : Scope Float (Handle κ))
    (a : Assignment Float (Handle κ)) : Report :=
  .record [("value", report (t.value a)), ("bounds", report (t.bounds s)),
    ("label", report (s.label t.var))]

end

instance : Reported (UncertainExpr Float) where
  report e := .record [("c", report e.constant), ("d", report e.decisions),
    ("u", report e.uncertainties),
    ("ud", .list (e.products.terms.map fun t =>
      .list [report t.scale, report t.var.uncertainty, report t.var.decision])),
    ("mode", report e.mode)]

instance {E : Type} [Reported E] : Reported (RawConstraint E) where
  report c := .record [("sense", report c.sense), ("expr", report c.expression)]

end AdjustableRobust
