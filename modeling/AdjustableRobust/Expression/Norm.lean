import AdjustableRobust.Scalar.Basic

/-!
# Norms

The three norms that expressions may contain, their duals and their values on lists.
-/

namespace AdjustableRobust

/-- A norm on vectors. -/
inductive NormKind where
  /-- Sum of magnitudes. -/
  | one
  /-- Euclidean length. -/
  | two
  /-- Largest magnitude. -/
  | infinity
  deriving DecidableEq, Repr

namespace NormKind

/-- The norm whose unit ball is the polar of this norm's unit ball. -/
def dual : NormKind → NormKind
  | .one => .infinity
  | .two => .two
  | .infinity => .one

/-- Value of the norm on a list of coordinates. -/
def apply {α : Type} [Scalar α] (n : NormKind) (xs : List α) : α :=
  match n with
  | .one => Scalar.sum (xs.map Scalar.abs)
  | .two => Scalar.sqrt (Scalar.sum (xs.map fun x => x * x))
  | .infinity => xs.foldl (fun m x => Scalar.max m (Scalar.abs x)) 0

/-- Index that marks the norm in printed expressions. -/
def text : NormKind → String
  | .one => "1"
  | .two => "2"
  | .infinity => "inf"

/-- Taking the dual twice changes nothing. -/
@[simp] theorem dual_dual (n : NormKind) : n.dual.dual = n := by cases n <;> rfl

end NormKind

end AdjustableRobust
