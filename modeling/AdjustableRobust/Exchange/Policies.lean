import AdjustableRobust.Exchange.Realizations
import AdjustableRobust.Robust.Model

/-!
# Exchanged policies

The solved policies of a model by name, so they can be read without the model. An object lists
the policy of each decision, with a coefficient for each uncertainty.
-/

namespace AdjustableRobust

/-- A policy whose uncertainties are given by name. -/
structure NamedPolicy (α : Type) where
  constant : α
  /-- Coefficients by name of the uncertainty, in order. -/
  scales : List (String × α)

namespace NamedPolicy

variable {α : Type}

/-- The document of a policy. -/
def toJson [ScalarExchange α] (p : NamedPolicy α) : Json :=
  .object [("constant", ScalarExchange.toJson p.constant),
    ("scales", .object (p.scales.map fun (name, x) => (name, ScalarExchange.toJson x)))]

variable [Scalar α]

/-- A policy by names. A name that repeats keeps its first place and its last coefficient. -/
def ofPolicy (scope : Scope α UncertaintyRef) (p : AffinePolicy α) :
    Except (ModelError α) (NamedPolicy α) := do
  let pairs ← p.scales.mapM fun (u, x) => return (← scope.label u, x)
  return ⟨p.constant, entriesOf pairs⟩

end NamedPolicy

namespace RobustModel

variable {α : Type} [Scalar α]

/-- The policies of all solved decisions by name, in order. A name that repeats keeps its first
place and its last policy. -/
def policiesByName (m : RobustModel α) : Except (ExchangeError α) (List (String × NamedPolicy α)) :=
  Except.mapError .model do
    let solved := m.decisions.items.filterMap fun d => d.policy?.map fun p => (d.name, p)
    let named ← solved.mapM fun (name, p) =>
      return (name, ← NamedPolicy.ofPolicy m.uncertaintyScope p)
    return entriesOf named

/-- The document of all solved policies. -/
def policiesJson [ScalarExchange α] (m : RobustModel α) : Except (ExchangeError α) Json := do
  return .object ((← m.policiesByName).map fun (name, p) => (name, p.toJson))

/-- Text of the document of all solved policies. -/
def policiesText [ScalarExchange α] (m : RobustModel α) : Except (ExchangeError α) String := do
  return (← m.policiesJson).text

end RobustModel

end AdjustableRobust
