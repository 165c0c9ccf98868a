import AdjustableRobust.Lifting.Breakpoints

/-!
# The lifting map

Lifting replaces some uncertainty variables by one variable for each piece of their range and
copies the others. The lifting map takes realizations of the base variables to realizations of the
lifted ones.
-/

namespace AdjustableRobust

/-- The lifted variables that stand for one base variable. -/
structure LiftedAxis (α : Type) where
  /-- The breakpoints, unless the variable is copied. -/
  series? : Option (BreakpointSeries α)
  vars : List UncertaintyRef

/-- The lifted variables of all base variables, in order. -/
structure Lifting (α : Type) where
  /-- One axis for each base variable. -/
  axes : List (LiftedAxis α)

namespace Lifting

variable {α : Type} [Scalar α]

/-- The realization of the lifted variables that belongs to a realization of the base ones.
Lifted variables are numbered axis by axis, so their values are concatenated. -/
def lift (l : Lifting α) (realization : List α) : Except (ModelError α) (List α) := do
  if realization.length ≠ l.axes.length then
    throw (.realizationDimension l.axes.length realization.length)
  let parts ← (l.axes.zip realization).mapM fun (axis, value) =>
    match axis.series? with
    | some series => series.liftedRealization (.ofList realization)
    | none => pure [value]
  return parts.flatten

end Lifting

end AdjustableRobust
