import AdjustableRobust.Expression.Affine
import AdjustableRobust.Expression.Norm

/-!
# Norms of affine vectors

The norm of a list of affine rows.
-/

namespace AdjustableRobust

/-- The norm of a vector whose coordinates are affine expressions. -/
structure NormedVector (α V : Type) where
  norm : NormKind
  rows : List (AffineExpr α V)
  deriving DecidableEq

namespace NormedVector

variable {α V W : Type} [Scalar α]

/-- Norm of a vector of variables. -/
def ofVariables (norm : NormKind) (vs : List V) : NormedVector α V := ⟨norm, vs.map .var⟩

/-- Multiply every row. -/
def scaleRows (n : NormedVector α V) (factor : α) : NormedVector α V :=
  { n with rows := n.rows.map (·.scale factor) }

/-- Replace every variable by another one. -/
def rename (n : NormedVector α V) (f : V → Except (ModelError α) W) :
    Except (ModelError α) (NormedVector α W) := do
  return ⟨n.norm, ← n.rows.mapM (·.rename f)⟩

/-- Replace every variable by an affine expression. -/
def substitute (n : NormedVector α V) (f : V → Except (ModelError α) (AffineExpr α W)) :
    Except (ModelError α) (NormedVector α W) := do
  return ⟨n.norm, ← n.rows.mapM (·.substitute f)⟩

/-- Norm of the values of the rows. -/
def value (n : NormedVector α V) (a : Assignment α V) : Except (ModelError α) α := do
  return n.norm.apply (← n.rows.mapM (·.value a))

/-- A norm is never negative. -/
def lower (_ : NormedVector α V) (_ : Scope α V) : Except (ModelError α) (Extended α) :=
  .ok 0

/-- Norm of the largest magnitudes that the rows can reach. -/
def upper (n : NormedVector α V) (s : Scope α V) : Except (ModelError α) (Extended α) := do
  let magnitudes ← n.rows.mapM fun row =>
    return Scalar.max (Scalar.abs (← row.lower s)) (Scalar.abs (← row.upper s))
  return n.norm.apply magnitudes

/-- Whether a row is nothing but the given variable. -/
def isVariableRow [DecidableEq V] (row : AffineExpr α V) (v : V) : Bool :=
  row.constant == 0 &&
    match row.linear.simplify.terms with
    | [t] => t.scale == 1 && t.var = v
    | _ => false

/-- Whether the rows are the given variables in the given order. -/
def isVariableVector [DecidableEq V] (n : NormedVector α V) (vs : List V) : Bool :=
  n.rows.length == vs.length && (n.rows.zip vs).all fun (row, v) => isVariableRow row v

/-- The printed norm. -/
def text [ScalarText α] (n : NormedVector α V) (s : Scope α V) :
    Except (ModelError α) String := do
  let rows ← n.rows.mapM (·.text s)
  return "||(" ++ ", ".intercalate rows ++ ")||_" ++ n.norm.text

end NormedVector

end AdjustableRobust
