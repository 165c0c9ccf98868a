import AdjustableRobust.Bounds

/-!
# Uncertainty variables

The parameters whose values are only known to lie in the uncertainty set.
-/

namespace AdjustableRobust

/-- An uncertain parameter. -/
structure UncertaintyVariable (α : Type) [Scalar α] where
  name : String
  /-- When its value is revealed. -/
  period? : Option Nat
  bounds : Bounds α

/-- Text of a period; a variable without one shows a dash. -/
def periodText : Option Nat → String
  | some p => toString p
  | none => "-"

/-- The line that prints a variable with a period between its bounds. -/
def boundsLine {α : Type} [Scalar α] [ScalarText α] (name : String) (period? : Option Nat)
    (bounds : Bounds α) : String :=
  "\n" ++ bounds.lowerText ++ " <= " ++ name ++ " p(" ++ periodText period? ++ ") <= "
    ++ bounds.upperText

end AdjustableRobust
