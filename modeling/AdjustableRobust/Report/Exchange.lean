import AdjustableRobust.Exchange.Realizations
import AdjustableRobust.Exchange.Words
import AdjustableRobust.Report.Failure
import AdjustableRobust.Scalar.Binary64

/-!
# Reports of exchanged documents

What becomes of a document when it is read and written back.
-/

namespace AdjustableRobust

/-- A value read from a document, written back and printed. -/
def exchanged {β : Type} (toJson : β → Json) (print : β → String) : Option β → Report
  | some x => .record [("json", report (toJson x).text), ("text", report (print x))]
  | none => report (Failure.mk "Serde" none)

/-- A word read from a document, written back and printed. -/
def exchangedWord {β : Type} [Wording β] [DecidableEq β] (print : β → String)
    (document? : Option Json) : Report :=
  exchanged Wording.toJson print (document?.bind Wording.ofJson?)

/-- A document read as a value of a type that is given by name. -/
def exchangedAs? (type : String) (document : String) : Option Report :=
  let document? := Json.ofText? document
  match type with
  | "NormKind" => some (exchangedWord NormKind.text document?)
  | "ConstraintSense" => some (exchangedWord ConstraintSense.text document?)
  | "ObjectiveSense" => some (exchangedWord ObjectiveSense.text document?)
  | "OptimizationStatus" => some (exchangedWord OptimizationStatus.text document?)
  | "SpecialSetType" => some (exchangedWord SpecialSetType.text document?)
  | "UncertaintyMode" => some (exchangedWord UncertaintyMode.text document?)
  | "VariableType" => some (exchangedWord VariableType.text document?)
  | "Diagnostic" =>
    some (exchanged Diagnostic.toJson Diagnostic.text (document?.bind Diagnostic.ofJson?))
  | _ => none

/-- Realizations in a file: before it exists, and with the given contents. The mean is taken over
the realizations in the file. -/
def Realizations.fileReport (contents : String) : Report :=
  let read (contents? : Option String) : Except (ExchangeError Float) (List (List Float)) :=
    ofContents contents?
  let mean : Except (ExchangeError Float) (Except (ModelError Float) (List Float)) :=
    (distributionOfContents (some contents)).map fun d => d.expectedVector pure
  .record [("missing", report (read none)), ("written", .null),
    ("read", report (read (some contents))), ("mean", report mean)]

end AdjustableRobust
