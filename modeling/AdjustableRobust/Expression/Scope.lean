import AdjustableRobust.ModelError
import AdjustableRobust.Scalar.Extended

/-!
# Scopes and assignments

Expressions only hold handles of variables. A scope knows the variables behind the handles: their
bounds and their names. An assignment knows their values. Both may refuse a handle.
-/

namespace AdjustableRobust

/-- Bounds and names of the variables of type `V`. -/
structure Scope (α V : Type) where
  bounds : V → Except (ModelError α) (Interval α)
  label : V → Except (ModelError α) String

/-- Values of the variables of type `V`. -/
abbrev Assignment (α V : Type) := V → Except (ModelError α) α

/-- A plain list of values gives a variable the value at its position; only the position is
checked. -/
def Assignment.ofList {α : Type} {κ : EntityKind} (values : List α) : Assignment α (Handle κ) :=
  fun h => h.lookup values

end AdjustableRobust
