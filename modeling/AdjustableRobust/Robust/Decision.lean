import AdjustableRobust.Bounds
import AdjustableRobust.Expression.Uncertain

/-!
# Decision variables

The unknowns of robust models. A decision may react to the uncertainties it depends on; a solved
model attaches the affine policy that was found.
-/

namespace AdjustableRobust

/-- The policy `constant + Σ scale * uncertainty`. -/
structure AffinePolicy (α : Type) where
  constant : α
  /-- Coefficients of uncertainties, each uncertainty once, in order of first addition. -/
  scales : List (UncertaintyRef × α)

/-- Set the entry of a key: in its place if the key occurs, else at the end. -/
def setEntry {κ β : Type} [DecidableEq κ] (key : κ) (x : β) : List (κ × β) → List (κ × β)
  | [] => [(key, x)]
  | (k, y) :: entries => if k = key then (k, x) :: entries else (k, y) :: setEntry key x entries

/-- The entries of a list of pairs; a repeated key keeps its first place and its last value. -/
def entriesOf {κ β : Type} [DecidableEq κ] (pairs : List (κ × β)) : List (κ × β) :=
  pairs.foldl (fun entries (k, x) => setEntry k x entries) []

namespace AffinePolicy

variable {α : Type} [Scalar α]

/-- Value of the policy at a realization. -/
def value (p : AffinePolicy α) (a : Assignment α UncertaintyRef) : Except (ModelError α) α :=
  p.scales.foldlM (fun total (u, scale) => return total + scale * (← a u)) p.constant

/-- The printed policy. -/
def text [ScalarText α] (p : AffinePolicy α) (s : Scope α UncertaintyRef) :
    Except (ModelError α) String := do
  let terms ← p.scales.mapM fun (u, scale) =>
    return " + " ++ ScalarText.text scale ++ "*" ++ (← s.label u)
  return ScalarText.text p.constant ++ String.join terms

end AffinePolicy

/-- A decision variable. -/
structure DecisionVariable (α : Type) [Scalar α] where
  name : String
  period? : Option Nat
  bounds : Bounds α
  /-- The uncertainties it may react to. -/
  dependencies : List UncertaintyRef
  policy? : Option (AffinePolicy α)

namespace DecisionVariable

variable {α : Type} [Scalar α]

/-- Whether the decision may react to an uncertainty. -/
def dependsOn (d : DecisionVariable α) (u : UncertaintyRef) : Bool := d.dependencies.contains u

/-- First position of an uncertainty among the dependencies. -/
def dependencyPosition? (d : DecisionVariable α) (u : UncertaintyRef) : Option Nat :=
  d.dependencies.findIdx? (· = u)

/-- The policy that was found, if there is one. -/
def policy (d : DecisionVariable α) : Except (ModelError α) (AffinePolicy α) :=
  match d.policy? with
  | some p => .ok p
  | none => .error (.missingSolution d.name)

end DecisionVariable

end AdjustableRobust
