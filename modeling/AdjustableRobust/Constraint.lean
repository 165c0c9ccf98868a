import AdjustableRobust.Bounds

/-!
# Constraints

A constraint relates an expression to zero. It gets a name when it is added to a model, and may
carry a dual value after a solve.
-/

namespace AdjustableRobust

/-- Relation between an expression and zero. -/
inductive ConstraintSense where
  /-- At most zero. -/
  | leq
  /-- At least zero. -/
  | geq
  /-- Equal to zero. -/
  | eq
  deriving DecidableEq, Repr

namespace ConstraintSense

variable {α : Type} [Scalar α]

/-- Bounds of the dual of a constraint. -/
def dualBounds : ConstraintSense → Bounds α
  | .leq => .atLeast 0
  | .geq => .atMost 0
  | .eq => .free

/-- Whether a value of the expression is in the relation, up to a tolerance. -/
def holds (s : ConstraintSense) (value tolerance : α) : Bool :=
  match s with
  | .leq => value ≤ tolerance
  | .geq => -tolerance ≤ value
  | .eq => Scalar.abs value ≤ tolerance

/-- Sign of the relation. -/
def text : ConstraintSense → String
  | .leq => "<="
  | .geq => ">="
  | .eq => "=="

end ConstraintSense

/-- An expression in relation to zero, without a name. -/
structure RawConstraint (E : Type) where
  sense : ConstraintSense
  expression : E

/-- A named constraint. -/
structure Constraint (α E : Type) extends RawConstraint E where
  name : String
  dual? : Option α

namespace Constraint

variable {α E : Type}

/-- Name a constraint. -/
def named (name : String) (raw : RawConstraint E) : Constraint α E := ⟨raw, name, none⟩

/-- Dual value of the last solve, if there is one. -/
def dualValue (c : Constraint α E) : Except (ModelError α) α :=
  match c.dual? with
  | some x => .ok x
  | none => .error (.missingSolution s!"dual of {c.name}")

/-- Whether a dual value is stored. -/
def hasDual (c : Constraint α E) : Bool := c.dual?.isSome

/-- Store a dual value. -/
def setDual (c : Constraint α E) (x : α) : Constraint α E := { c with dual? := some x }

/-- Drop the dual value. -/
def dropDual (c : Constraint α E) : Constraint α E := { c with dual? := none }

end Constraint

end AdjustableRobust
