import AdjustableRobust.Conic.Variable
import AdjustableRobust.Expression.Affine

/-!
# Uncertain expressions

Expressions that mix decisions, uncertainties and products of one uncertainty with one decision.
The mode says what becomes of the uncertainty when the expression is compiled; arithmetic keeps
the mode of its left operand.
-/

namespace AdjustableRobust

/-- Handle of an uncertainty variable. -/
abbrev UncertaintyRef := Handle .uncertainty

/-- Handle of a decision variable. -/
abbrev DecisionRef := Handle .decision

/-- How an uncertain expression is combined over the alternatives of an uncertainty set. -/
inductive UncertaintyMode where
  /-- The worst case over all alternatives. -/
  | union
  /-- The mean of the worst cases of the alternatives. -/
  | average
  /-- The expectation under the distribution of the model. -/
  | stochastic
  deriving DecidableEq, Repr

/-- Word for the mode in printed expressions. -/
def UncertaintyMode.text : UncertaintyMode → String
  | .union => "UNION"
  | .average => "AVERAGE"
  | .stochastic => "STOCHASTIC"

/-- The product of an uncertainty and a decision. -/
structure Product where
  uncertainty : UncertaintyRef
  decision : DecisionRef
  deriving DecidableEq, Repr

namespace Product

variable {α : Type} [Scalar α]

/-- Value of a product. -/
def assignment (u : Assignment α UncertaintyRef) (d : Assignment α DecisionRef) :
    Assignment α Product := fun p => do
  let x ← u p.uncertainty
  let y ← d p.decision
  return x * y

/-- Ranges and names of products. -/
def scope (u : Scope α UncertaintyRef) (d : Scope α DecisionRef) : Scope α Product where
  bounds p := do
    let i ← u.bounds p.uncertainty
    let j ← d.bounds p.decision
    return i.product j
  label p := do
    let x ← u.label p.uncertainty
    let y ← d.label p.decision
    return x ++ "*" ++ y

end Product

/-- `constant + decisions + uncertainties + products`. -/
structure UncertainExpr (α : Type) where
  constant : α
  /-- Certain terms in decisions. -/
  decisions : LinearExpr α DecisionRef
  uncertainties : LinearExpr α UncertaintyRef
  products : LinearExpr α Product
  /-- What becomes of the uncertainty. -/
  mode : UncertaintyMode
  deriving DecidableEq

namespace UncertainExpr

variable {α : Type} [Scalar α]

/-- The zero expression. -/
def zero : UncertainExpr α := ⟨0, .zero, .zero, .zero, .union⟩

/-- A constant, added to zero. -/
def const (c : α) : UncertainExpr α := { zero with constant := 0 + c }

/-- A single decision. -/
def decision (d : DecisionRef) : UncertainExpr α := { zero with decisions := .var d }

/-- A single uncertainty. -/
def uncertainty (u : UncertaintyRef) : UncertainExpr α := { zero with uncertainties := .var u }

/-- A single product. -/
def product (u : UncertaintyRef) (d : DecisionRef) : UncertainExpr α :=
  { zero with products := .var ⟨u, d⟩ }

/-- An affine expression in decisions. -/
def ofDecisions (e : AffineExpr α DecisionRef) : UncertainExpr α :=
  { zero with constant := e.constant, decisions := e.linear }

/-- An affine expression in uncertainties. -/
def ofUncertainties (e : AffineExpr α UncertaintyRef) : UncertainExpr α :=
  { zero with constant := e.constant, uncertainties := e.linear }

/-- The same expression in another mode. -/
def withMode (e : UncertainExpr α) (mode : UncertaintyMode) : UncertainExpr α := { e with mode }

/-- Add to the constant. -/
def addConstant (e : UncertainExpr α) (c : α) : UncertainExpr α :=
  { e with constant := e.constant + c }

/-- Append a scaled decision. -/
def addDecision (e : UncertainExpr α) (scale : α) (d : DecisionRef) : UncertainExpr α :=
  { e with decisions := e.decisions.addTerm scale d }

/-- Append a scaled uncertainty. -/
def addUncertainty (e : UncertainExpr α) (scale : α) (u : UncertaintyRef) : UncertainExpr α :=
  { e with uncertainties := e.uncertainties.addTerm scale u }

/-- Append a scaled product. -/
def addProduct (e : UncertainExpr α) (scale : α) (u : UncertaintyRef) (d : DecisionRef) :
    UncertainExpr α :=
  { e with products := e.products.addTerm scale ⟨u, d⟩ }

/-- Add a linear expression in decisions. -/
def addDecisions (e : UncertainExpr α) (f : LinearExpr α DecisionRef) : UncertainExpr α :=
  { e with decisions := e.decisions.add f }

/-- Add a linear expression in uncertainties. -/
def addUncertainties (e : UncertainExpr α) (f : LinearExpr α UncertaintyRef) : UncertainExpr α :=
  { e with uncertainties := e.uncertainties.add f }

/-- Sum of two expressions. -/
def add (e f : UncertainExpr α) : UncertainExpr α :=
  ⟨e.constant + f.constant, e.decisions.add f.decisions, e.uncertainties.add f.uncertainties,
    e.products.add f.products, e.mode⟩

/-- Multiply by a scalar. -/
def scale (e : UncertainExpr α) (factor : α) : UncertainExpr α :=
  ⟨e.constant * factor, e.decisions.scale factor, e.uncertainties.scale factor,
    e.products.scale factor, e.mode⟩

/-- The opposite expression. -/
def negate (e : UncertainExpr α) : UncertainExpr α := e.scale (-1)

/-- Difference of two expressions. -/
def sub (e f : UncertainExpr α) : UncertainExpr α := e.add f.negate

/-- Merge repeated variables and drop zero coefficients. -/
def simplify (e : UncertainExpr α) : UncertainExpr α :=
  ⟨e.constant, e.decisions.simplify, e.uncertainties.simplify, e.products.simplify, e.mode⟩

/-- Whether the constant is zero and every variable cancels. -/
def isZero (e : UncertainExpr α) : Bool :=
  e.constant == 0 && e.decisions.isZero && e.uncertainties.isZero && e.products.isZero

/-- Value of the expression. -/
def value (e : UncertainExpr α) (u : Assignment α UncertaintyRef)
    (d : Assignment α DecisionRef) : Except (ModelError α) α := do
  return e.constant + (← e.decisions.value d) + (← e.uncertainties.value u)
    + (← e.products.value (Product.assignment u d))

/-- Smallest value over the bounds of the variables. -/
def lower (e : UncertainExpr α) (u : Scope α UncertaintyRef) (d : Scope α DecisionRef) :
    Except (ModelError α) (Extended α) := do
  return Extended.ofScalar e.constant + (← e.decisions.lower d) + (← e.uncertainties.lower u)
    + (← e.products.lower (Product.scope u d))

/-- Largest value over the bounds of the variables. -/
def upper (e : UncertainExpr α) (u : Scope α UncertaintyRef) (d : Scope α DecisionRef) :
    Except (ModelError α) (Extended α) := do
  return Extended.ofScalar e.constant + (← e.decisions.upper d) + (← e.uncertainties.upper u)
    + (← e.products.upper (Product.scope u d))

/-- Replace an uncertainty in a product: the constant of its image gives a decision term, its
other terms give products. -/
def expandProduct (scale : α) (d : DecisionRef) (image : AffineExpr α UncertaintyRef)
    (e : UncertainExpr α) : UncertainExpr α :=
  let e := if image.constant == 0 then e else e.addDecision (scale * image.constant) d
  image.linear.terms.foldl (fun e t => e.addProduct (scale * t.scale) t.var d) e

/-- Replace decisions by decisions and uncertainties by affine expressions of uncertainties;
products are expanded. -/
def substitute (e : UncertainExpr α) (decisions : DecisionRef → Except (ModelError α) DecisionRef)
    (uncertainties : UncertaintyRef → Except (ModelError α) (AffineExpr α UncertaintyRef)) :
    Except (ModelError α) (UncertainExpr α) := do
  let ds ← e.decisions.rename decisions
  let us ← e.uncertainties.substitute uncertainties
  let start : UncertainExpr α :=
    ⟨e.constant + us.constant, ds, us.linear, .zero, e.mode⟩
  e.products.terms.foldlM (fun result t => do
    let d ← decisions t.var.decision
    let image ← uncertainties t.var.uncertainty
    return expandProduct t.scale d image result) start

/-- Replace decisions by affine expressions of conic variables and fix the uncertainties. -/
def substituteToConic (e : UncertainExpr α)
    (decisions : DecisionRef → Except (ModelError α) (AffineExpr α ConicRef))
    (realization : Assignment α UncertaintyRef) :
    Except (ModelError α) (AffineExpr α ConicRef) := do
  let ds ← e.decisions.substitute decisions
  let fixed := e.constant + (← e.uncertainties.value realization)
  e.products.terms.foldlM (fun result t => do
    let factor := t.scale * (← realization t.var.uncertainty)
    return result.add ((← decisions t.var.decision).scale factor)) (ds.addConstant fixed)

/-- The printed expression with its mode. Empty parts and a zero constant are left out. -/
def text [ScalarText α] (e : UncertainExpr α) (u : Scope α UncertaintyRef)
    (d : Scope α DecisionRef) : Except (ModelError α) String := do
  let part {V : Type} (f : LinearExpr α V) (s : Scope α V) : Except (ModelError α) (List String) :=
    if f.isEmpty then pure [] else do return [← f.text s]
  let parts := (← part e.decisions d) ++ (← part e.uncertainties u)
    ++ (← part e.products (Product.scope u d))
  let parts :=
    if !(e.constant == 0) || parts.isEmpty then parts ++ [ScalarText.text e.constant] else parts
  return " + ".intercalate parts ++ " [" ++ e.mode.text ++ "]"

/-- The constraint that relates two expressions, as a relation of their difference to zero. -/
def relate (e : UncertainExpr α) (sense : ConstraintSense) (f : UncertainExpr α) :
    RawConstraint (UncertainExpr α) :=
  ⟨sense, e.sub f⟩

/-- The constraint that relates an expression to a value. -/
def relateValue (e : UncertainExpr α) (sense : ConstraintSense) (value : α) :
    RawConstraint (UncertainExpr α) :=
  ⟨sense, e.addConstant (-value)⟩

end UncertainExpr

/-- An affine constraint on decisions is an uncertain one. -/
def RawConstraint.toUncertain {α : Type} [Scalar α]
    (c : RawConstraint (AffineExpr α DecisionRef)) : RawConstraint (UncertainExpr α) :=
  ⟨c.sense, .ofDecisions c.expression⟩

end AdjustableRobust
