import AdjustableRobust.Exchange.Realizations
import AdjustableRobust.Policy.Error
import AdjustableRobust.Report.Basic

/-!
# Failures in reports

A failure is reported by its kind and its text. The kind is the path of causes, from the outermost
one to the innermost one.
-/

namespace AdjustableRobust

/-- Why an object cannot be reported. -/
structure Failure where
  kind : String
  message? : Option String

instance : Reported Failure where
  report f := .record (("error", report f.kind) ::
    (f.message?.map fun m => ("message", report m)).toList)

/-- Types of causes of failure. -/
class Failing (ε : Type) where
  kind : ε → String
  message? : ε → Option String

/-- The failure of a cause. -/
def Failure.of {ε : Type} [Failing ε] (e : ε) : Failure := ⟨Failing.kind e, Failing.message? e⟩

/-- A result is reported as its value or its failure. -/
instance {ε β : Type} [Failing ε] [Reported β] : Reported (Except ε β) where
  report
    | .ok x => report x
    | .error e => report (Failure.of e)

instance : Failing Failure := ⟨Failure.kind, Failure.message?⟩

instance : Failing StoreError where
  message? e := some e.message
  kind
    | .ownerMismatch => "OwnerMismatch"
    | .staleIndex => "StaleIndex"
    | .outOfRange _ _ => "OutOfRange"

instance : Failing (ModelError Float) where
  message? e := some e.message
  kind
    | .store e => "Store/" ++ Failing.kind e
    | .missingObjective => "MissingObjective"
    | .missingExpectationProvider => "MissingExpectationProvider"
    | .missingSolution _ => "MissingSolution"
    | .missingConstraint _ => "MissingConstraint"
    | .missingDual => "MissingDual"
    | .invalidVariableBounds => "InvalidVariableBounds"
    | .realizationDimension _ _ => "RealizationDimension"
    | .emptyRealizations => "EmptyRealizations"
    | .inconsistentExpectationShape => "InconsistentExpectationShape"
    | .unsupportedSetShape _ => "UnsupportedSetShape"
    | .tooManyActive _ _ => "TooManyActive"
    | .unboundedSampling => "UnboundedSampling"
    | .invalidSample => "InvalidSample"
    | .multipleConstraintSets _ => "MultipleConstraintSets"
    | .nonConvexConstraint _ => "NonConvexConstraint"
    | .dualUnsupported => "DualUnsupported"
    | .negativeNormScale _ => "NegativeNormScale"
    | .noSpecialConstraint _ => "NoSpecialConstraint"

instance : Failing (SolverError Float) where
  message? e := some e.message
  kind
    | .alreadyBuilt => "AlreadyBuilt"
    | .noSolution => "NoSolution"
    | .backend _ => "Backend"
    | .unsupportedIntegers => "UnsupportedIntegers"
    | .unsupportedSos => "UnsupportedSos"
    | .nonConvex _ => "NonConvex"
    | .model e => "Model/" ++ Failing.kind e

instance : Failing (PolicyError Float) where
  message? e := some e.message
  kind
    | .equalityUnderStochastic _ => "EqualityUnderStochastic"
    | .scaledDecisionOnAdjustable _ => "ScaledDecisionOnAdjustable"
    | .notAxisAligned => "NotAxisAligned"
    | .duplicateBreakpointDirection _ => "DuplicateBreakpointDirection"
    | .unorderedBreakpoints => "UnorderedBreakpoints"
    | .unboundedDirection => "UnboundedDirection"
    | .kappaRequirements _ => "KappaRequirements"
    | .notBuilt => "NotBuilt"
    | .solver e => "Solver/" ++ Failing.kind e
    | .model e => "Model/" ++ Failing.kind e
    | .store e => "Store/" ++ Failing.kind e

instance : Failing (ExchangeError Float) where
  message? := ExchangeError.message?
  kind
    | .unableToRead => "UnableToRead"
    | .unableToParse => "UnableToParse"
    | .model e => "Model/" ++ Failing.kind e

end AdjustableRobust
