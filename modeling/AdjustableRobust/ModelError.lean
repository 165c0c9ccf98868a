import AdjustableRobust.Scalar.Basic
import AdjustableRobust.Store

/-!
# Model errors

Why a model cannot be built or evaluated.
-/

namespace AdjustableRobust

/-- Causes of failure in building and evaluating models. -/
inductive ModelError (α : Type) where
  | store (cause : StoreError)
  | missingObjective
  /-- A stochastic expression needs a distribution and the model has none. -/
  | missingExpectationProvider
  | missingSolution (what : String)
  | missingConstraint (position : Nat)
  | missingDual
  | invalidVariableBounds
  /-- A list of values has the wrong length. -/
  | realizationDimension (expected found : Nat)
  | emptyRealizations
  /-- Vectors or matrices of different shapes cannot be averaged. -/
  | inconsistentExpectationShape
  | unsupportedSetShape (reason : String)
  /-- More active variables were asked for than the set has. -/
  | tooManyActive (k n : Nat)
  | unboundedSampling
  /-- No sample inside the bounds was found. -/
  | invalidSample
  | multipleConstraintSets (count : Nat)
  /-- A norm is bounded from below or fixed. -/
  | nonConvexConstraint (name : String)
  /-- Duals exist for continuous models without exclusive groups only. -/
  | dualUnsupported
  | negativeNormScale (factor : α)
  /-- The set type has no defining constraint. -/
  | noSpecialConstraint (setType : String)

namespace ModelError

variable {α : Type}

/-- Text of the error. -/
def message [ScalarText α] : ModelError α → String
  | .store cause => cause.message
  | .missingObjective => "The model has no objective"
  | .missingExpectationProvider => "The model has no expectation provider"
  | .missingSolution what => s!"No solution value for {what}"
  | .missingConstraint position => s!"No constraint at position {position}"
  | .missingDual => "The dual model has not been computed"
  | .invalidVariableBounds => "Tried to add a variable with lower_bound > upper_bound"
  | .realizationDimension expected found => s!"Expected {expected} values but found {found}"
  | .emptyRealizations => "Can't build an empirical distribution from zero realizations"
  | .inconsistentExpectationShape =>
    "Expected values of differently shaped results can't be averaged"
  | .unsupportedSetShape reason => s!"Unsupported uncertainty set: {reason}"
  | .tooManyActive k n => s!"Can't have {k} of {n} variables active"
  | .unboundedSampling => "Sampling requires bounded uncertainty variables"
  | .invalidSample => "Could not generate a sample inside the variable bounds"
  | .multipleConstraintSets count => s!"Expected a single constraint set but found {count}"
  | .nonConvexConstraint name => s!"Constraint {name} is not convex"
  | .dualUnsupported =>
    "Duals can only be computed for continuous models without SOS constraints"
  | .negativeNormScale factor =>
    "Can't scale a norm by the negative factor " ++ ScalarText.text factor
  | .noSpecialConstraint setType => s!"No special constraint exists for {setType} sets"

/-- Results of store operations are results of model operations. -/
instance : MonadLift (Except StoreError) (Except (ModelError α)) where
  monadLift
    | .ok x => .ok x
    | .error e => .error (.store e)

end ModelError

end AdjustableRobust
