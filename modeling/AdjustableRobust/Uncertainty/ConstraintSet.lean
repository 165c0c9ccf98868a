import AdjustableRobust.Expression.Conic
import AdjustableRobust.Expression.Uncertain

/-!
# Constraint sets

One alternative region of an uncertainty set: the realizations that satisfy all its constraints.
-/

namespace AdjustableRobust

/-- Constraint on uncertainty variables. -/
abbrev UncertaintyConstraint (α : Type) := Constraint α (ConicExpr α UncertaintyRef)

/-- Handle of an alternative constraint set. -/
abbrev ConstraintSetRef := Handle .alternative

/-- A conjunction of constraints. -/
structure ConstraintSet (α : Type) where
  constraints : List (UncertaintyConstraint α)

namespace ConstraintSet

variable {α : Type} [Scalar α]

/-- No constraint. -/
def empty : ConstraintSet α := ⟨[]⟩

/-- Whether there is no constraint. -/
def isEmpty (s : ConstraintSet α) : Bool := s.constraints.isEmpty

/-- Add a named constraint. -/
def add (s : ConstraintSet α) (name : String) (c : RawConstraint (ConicExpr α UncertaintyRef)) :
    ConstraintSet α :=
  ⟨s.constraints ++ [.named name c]⟩

/-- Whether every constraint only bounds a single variable. -/
def isBox (s : ConstraintSet α) : Bool := s.constraints.all (·.isVariableBound)

/-- The norm and the radius, if the set is a single constraint that bounds the norm of the given
variables by a non-negative number. -/
def normBall? (s : ConstraintSet α) (vs : List UncertaintyRef) : Option (NormKind × α) :=
  match s.constraints with
  | [c] =>
    match c.expression.normed? with
    | some n =>
      if c.sense = .leq && c.expression.affine.linear.isEmpty
          && !(0 < c.expression.affine.constant) && n.isVariableVector vs then
        some (n.norm, -c.expression.affine.constant)
      else none
    | none => none
  | _ => none

/-- Whether every constraint holds up to a tolerance. Constraints after the first one that fails
are not looked at. -/
def satisfied (s : ConstraintSet α) (a : Assignment α UncertaintyRef) (tolerance : α) :
    Except (ModelError α) Bool :=
  go s.constraints
where
  /-- Walk along the constraints. -/
  go : List (UncertaintyConstraint α) → Except (ModelError α) Bool
    | [] => .ok true
    | c :: cs => do
      if ← c.feasible a tolerance then go cs else return false

end ConstraintSet

end AdjustableRobust
