import AdjustableRobust.Expression.Normed

/-!
# Conic expressions

An affine expression plus at most one norm. Constraints bound such an expression from above;
without a norm they may also bound it from below or fix it.
-/

namespace AdjustableRobust

/-- `‖normed‖ + affine`, or `affine` alone. -/
structure ConicExpr (α V : Type) where
  normed? : Option (NormedVector α V)
  affine : AffineExpr α V
  deriving DecidableEq

namespace ConicExpr

variable {α V W : Type} [Scalar α]

/-- The zero expression. -/
def zero : ConicExpr α V := ⟨none, .zero⟩

/-- An affine expression. -/
def ofAffine (e : AffineExpr α V) : ConicExpr α V := ⟨none, e⟩

/-- Norm of a vector of variables. -/
def normOf (norm : NormKind) (vs : List V) : ConicExpr α V := ⟨some (.ofVariables norm vs), .zero⟩

/-- Whether there is no norm. -/
def isAffine (e : ConicExpr α V) : Bool := e.normed?.isNone

/-- Add an affine expression. -/
def addAffine (e : ConicExpr α V) (f : AffineExpr α V) : ConicExpr α V :=
  { e with affine := e.affine.add f }

/-- Add a linear expression. -/
def addLinear (e : ConicExpr α V) (f : LinearExpr α V) : ConicExpr α V :=
  { e with affine := e.affine.addLinear f }

/-- Add to the constant. -/
def addConstant (e : ConicExpr α V) (c : α) : ConicExpr α V :=
  { e with affine := e.affine.addConstant c }

/-- Multiply by a scalar. The rows of a norm absorb the factor, so it must not be negative. -/
def scale (e : ConicExpr α V) (factor : α) : Except (ModelError α) (ConicExpr α V) :=
  if factor < 0 && !e.isAffine then .error (.negativeNormScale factor)
  else .ok ⟨e.normed?.map (·.scaleRows factor), e.affine.scale factor⟩

/-- Replace every variable by another one. -/
def rename (e : ConicExpr α V) (f : V → Except (ModelError α) W) :
    Except (ModelError α) (ConicExpr α W) := do
  return ⟨← e.normed?.mapM (·.rename f), ← e.affine.rename f⟩

/-- Replace every variable by an affine expression. -/
def substitute (e : ConicExpr α V) (f : V → Except (ModelError α) (AffineExpr α W)) :
    Except (ModelError α) (ConicExpr α W) := do
  return ⟨← e.normed?.mapM (·.substitute f), ← e.affine.substitute f⟩

/-- Value of the expression. -/
def value (e : ConicExpr α V) (a : Assignment α V) : Except (ModelError α) α := do
  let normed ← match e.normed? with
    | some n => n.value a
    | none => pure 0
  return normed + (← e.affine.value a)

/-- Smallest value over the bounds of the variables. -/
def lower (e : ConicExpr α V) (s : Scope α V) : Except (ModelError α) (Extended α) := do
  let normed ← match e.normed? with
    | some n => n.lower s
    | none => pure 0
  return normed + (← e.affine.lower s)

/-- Largest value over the bounds of the variables. -/
def upper (e : ConicExpr α V) (s : Scope α V) : Except (ModelError α) (Extended α) := do
  let normed ← match e.normed? with
    | some n => n.upper s
    | none => pure 0
  return normed + (← e.affine.upper s)

/-- The printed expression. An affine part that cancels is left out behind a norm. -/
def text [ScalarText α] [DecidableEq V] (e : ConicExpr α V) (s : Scope α V) :
    Except (ModelError α) String :=
  match e.normed? with
  | none => e.affine.text s
  | some n =>
    if e.affine.isZero then n.text s
    else do return (← n.text s) ++ " + " ++ (← e.affine.text s)

/-- The constraint that relates the expression to an affine one. -/
def relate (e : ConicExpr α V) (sense : ConstraintSense) (f : AffineExpr α V) :
    RawConstraint (ConicExpr α V) :=
  ⟨sense, e.addAffine f.negate⟩

/-- The constraint that relates the expression to a value. -/
def relateValue (e : ConicExpr α V) (sense : ConstraintSense) (value : α) :
    RawConstraint (ConicExpr α V) :=
  ⟨sense, e.addConstant (-value)⟩

end ConicExpr

/-- An affine constraint is a conic one. -/
def RawConstraint.toConic {α V : Type} (c : RawConstraint (AffineExpr α V)) :
    RawConstraint (ConicExpr α V) :=
  ⟨c.sense, ⟨none, c.expression⟩⟩

namespace Constraint

variable {α V : Type} [Scalar α]

/-- Whether an assignment satisfies a conic constraint up to a tolerance. -/
def feasible (c : Constraint α (ConicExpr α V)) (a : Assignment α V) (tolerance : α) :
    Except (ModelError α) Bool := do
  return c.sense.holds (← c.expression.value a) tolerance

/-- Whether a conic constraint does nothing but bound a single variable. -/
def isVariableBound [DecidableEq V] (c : Constraint α (ConicExpr α V)) : Bool :=
  c.expression.isAffine && c.expression.affine.linear.simplify.size == 1

/-- The printed conic constraint. -/
def text [ScalarText α] [DecidableEq V] (c : Constraint α (ConicExpr α V)) (s : Scope α V) :
    Except (ModelError α) String := do
  return c.name ++ ": " ++ (← c.expression.text s) ++ " " ++ c.sense.text ++ " 0"

end Constraint

end AdjustableRobust
