import AdjustableRobust.ModelError

/-!
# Objectives

What a model optimizes, and in which direction.
-/

namespace AdjustableRobust

/-- Direction of optimization. -/
inductive ObjectiveSense where
  | minimize
  | maximize
  deriving DecidableEq, Repr

namespace ObjectiveSense

/-- Factor that turns the objective into one to minimize. -/
def sign {α : Type} [Scalar α] : ObjectiveSense → α
  | .minimize => 1
  | .maximize => -1

/-- The other direction. -/
def opposite : ObjectiveSense → ObjectiveSense
  | .minimize => .maximize
  | .maximize => .minimize

/-- Word in front of a printed objective. -/
def text : ObjectiveSense → String
  | .minimize => "MIN"
  | .maximize => "MAX"

/-- Turning around twice changes nothing. -/
@[simp] theorem opposite_opposite (s : ObjectiveSense) : s.opposite.opposite = s := by
  cases s <;> rfl

end ObjectiveSense

/-- An expression to optimize, with its value at the last solution. -/
structure Objective (α E : Type) where
  sense : ObjectiveSense
  expression : E
  value? : Option α

namespace Objective

variable {α E : Type}

/-- An objective without a value. -/
def new (sense : ObjectiveSense) (expression : E) : Objective α E := ⟨sense, expression, none⟩

/-- Value at the last solution, if there is one. -/
def value (o : Objective α E) : Except (ModelError α) α :=
  match o.value? with
  | some x => .ok x
  | none => .error (.missingSolution "objective value")

/-- Store a value. -/
def setValue (o : Objective α E) (x : α) : Objective α E := { o with value? := some x }

/-- Drop the value. -/
def dropValue (o : Objective α E) : Objective α E := { o with value? := none }

end Objective

end AdjustableRobust
