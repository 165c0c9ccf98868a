import AdjustableRobust.Bounds
import AdjustableRobust.Store

/-!
# Conic variables

The unknowns of conic models.
-/

namespace AdjustableRobust

/-- Handle of a variable of a conic model. -/
abbrev ConicRef := Handle .conic

/-- The values a variable may take between its bounds. -/
inductive VariableType where
  | continuous
  | integer
  | binary
  deriving DecidableEq, Repr

/-- Word for the type in printed variables. -/
def VariableType.text : VariableType → String
  | .continuous => "CONTINUOUS"
  | .integer => "INTEGER"
  | .binary => "BINARY"

/-- What a variable of a dual model is the dual of. -/
inductive DualInformation where
  | constraint (position : Nat)
  /-- A row of the norm of the constraint at a position. -/
  | row (position row : Nat)
  | lowerBound (var : ConicRef)
  | upperBound (var : ConicRef)
  deriving DecidableEq, Repr

/-- A variable of a conic model. -/
structure ConicVariable (α : Type) [Scalar α] where
  name : String
  bounds : Bounds α
  type : VariableType
  /-- What it is the dual of, in a dual model. -/
  dualOf? : Option DualInformation
  /-- Value at the last solution. -/
  value? : Option α

namespace ConicVariable

variable {α : Type} [Scalar α]

/-- Value at the last solution, if there is one. -/
def value (v : ConicVariable α) : Except (ModelError α) α :=
  match v.value? with
  | some x => .ok x
  | none => .error (.missingSolution v.name)

/-- Store a value. -/
def setValue (v : ConicVariable α) (x : α) : ConicVariable α := { v with value? := some x }

/-- Drop the value. -/
def dropValue (v : ConicVariable α) : ConicVariable α := { v with value? := none }

/-- The printed variable. -/
def text [ScalarText α] (v : ConicVariable α) : String :=
  v.name ++ ":" ++ v.type.text ++ " in [" ++ v.bounds.lowerText ++ ", " ++ v.bounds.upperText ++ "]"

end ConicVariable

end AdjustableRobust
