import AdjustableRobust.Constraint
import AdjustableRobust.Expression.Linear

/-!
# Affine expressions

A linear expression plus a constant, and the constraints that compare two of them.
-/

namespace AdjustableRobust

/-- `constant + linear`. -/
structure AffineExpr (α V : Type) where
  constant : α
  linear : LinearExpr α V
  deriving DecidableEq

namespace AffineExpr

variable {α V W : Type} [Scalar α]

/-- The zero expression. -/
def zero : AffineExpr α V := ⟨0, .zero⟩

/-- A constant. -/
def const (c : α) : AffineExpr α V := ⟨c, .zero⟩

/-- A single scaled variable. -/
def term (scale : α) (v : V) : AffineExpr α V := ⟨0, .term scale v⟩

/-- A single variable. -/
def var (v : V) : AffineExpr α V := ⟨0, .var v⟩

/-- Sum of two expressions. -/
def add (e f : AffineExpr α V) : AffineExpr α V := ⟨e.constant + f.constant, e.linear.add f.linear⟩

/-- Add a linear expression. -/
def addLinear (e : AffineExpr α V) (f : LinearExpr α V) : AffineExpr α V :=
  { e with linear := e.linear.add f }

/-- Append a scaled variable. -/
def addTerm (e : AffineExpr α V) (scale : α) (v : V) : AffineExpr α V :=
  { e with linear := e.linear.addTerm scale v }

/-- Add to the constant. -/
def addConstant (e : AffineExpr α V) (c : α) : AffineExpr α V :=
  { e with constant := e.constant + c }

/-- Multiply by a scalar. -/
def scale (e : AffineExpr α V) (factor : α) : AffineExpr α V :=
  ⟨e.constant * factor, e.linear.scale factor⟩

/-- The opposite expression. -/
def negate (e : AffineExpr α V) : AffineExpr α V := e.scale (-1)

/-- Difference of two expressions. -/
def sub (e f : AffineExpr α V) : AffineExpr α V := e.add f.negate

/-- Merge repeated variables and drop zero coefficients. -/
def simplify [DecidableEq V] (e : AffineExpr α V) : AffineExpr α V :=
  { e with linear := e.linear.simplify }

/-- Whether every variable cancels. -/
def isConstant [DecidableEq V] (e : AffineExpr α V) : Bool := e.linear.isZero

/-- Whether the expression is zero everywhere. -/
def isZero [DecidableEq V] (e : AffineExpr α V) : Bool := e.constant == 0 && e.linear.isZero

/-- Replace every variable by another one. -/
def rename (e : AffineExpr α V) (f : V → Except (ModelError α) W) :
    Except (ModelError α) (AffineExpr α W) := do
  return ⟨e.constant, ← e.linear.rename f⟩

/-- Value of the expression. -/
def value (e : AffineExpr α V) (a : Assignment α V) : Except (ModelError α) α := do
  return e.constant + (← e.linear.value a)

/-- Smallest value over the bounds of the variables. -/
def lower (e : AffineExpr α V) (s : Scope α V) : Except (ModelError α) (Extended α) := do
  return Extended.ofScalar e.constant + (← e.linear.lower s)

/-- Largest value over the bounds of the variables. -/
def upper (e : AffineExpr α V) (s : Scope α V) : Except (ModelError α) (Extended α) := do
  return Extended.ofScalar e.constant + (← e.linear.upper s)

/-- The printed expression. The constant comes last and is left out when it is zero. -/
def text [ScalarText α] (e : AffineExpr α V) (s : Scope α V) : Except (ModelError α) String := do
  if e.linear.isEmpty then return ScalarText.text e.constant
  let linear ← e.linear.text s
  if e.constant == 0 then return linear
  return linear ++ " + " ++ ScalarText.text e.constant

/-- The constraint that relates two expressions, as a relation of their difference to zero. -/
def relate (e : AffineExpr α V) (sense : ConstraintSense) (f : AffineExpr α V) :
    RawConstraint (AffineExpr α V) :=
  ⟨sense, e.sub f⟩

/-- The constraint that relates an expression to a value. -/
def relateValue (e : AffineExpr α V) (sense : ConstraintSense) (value : α) :
    RawConstraint (AffineExpr α V) :=
  e.relate sense (.const value)

end AffineExpr

/-- Replace every variable of a linear expression by an affine expression. -/
def LinearExpr.substitute {α V W : Type} [Scalar α] (e : LinearExpr α V)
    (f : V → Except (ModelError α) (AffineExpr α W)) : Except (ModelError α) (AffineExpr α W) :=
  e.terms.foldlM (fun result t => return result.add ((← f t.var).scale t.scale)) .zero

/-- Replace every variable of an affine expression by an affine expression. -/
def AffineExpr.substitute {α V W : Type} [Scalar α] (e : AffineExpr α V)
    (f : V → Except (ModelError α) (AffineExpr α W)) : Except (ModelError α) (AffineExpr α W) := do
  return (← e.linear.substitute f).addConstant e.constant

end AdjustableRobust
