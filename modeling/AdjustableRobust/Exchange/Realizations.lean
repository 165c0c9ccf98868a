import AdjustableRobust.Exchange.Number
import AdjustableRobust.Robust.Distribution

/-!
# Exchanged realizations

Realizations are exchanged as an array of arrays of numbers, one inner array for each realization
with the values in the order of the uncertainties.
-/

namespace AdjustableRobust

/-- Why a document cannot be exchanged. -/
inductive ExchangeError (α : Type) where
  | unableToRead
  | unableToParse
  | model (cause : ModelError α)

/-- Text of errors that models cause; the others have none of their own. -/
def ExchangeError.message? {α : Type} : ExchangeError α → Option String
  | .unableToRead | .unableToParse => none
  | .model _ => some "Unable to resolve a model entity"

namespace Realizations

variable {α : Type} [ScalarExchange α]

/-- The document of realizations. -/
def toJson (rows : List (List α)) : Json :=
  .array (rows.map fun row => .array (row.map ScalarExchange.toJson))

/-- Text of the document of realizations. -/
def toText (rows : List (List α)) : String := (toJson rows).text

/-- A realization in a document. -/
def rowOfJson? : Json → Option (List α)
  | .array items => items.mapM ScalarExchange.ofJson?
  | _ => none

/-- The realizations in a document. -/
def ofJson? : Json → Option (List (List α))
  | .array items => items.mapM rowOfJson?
  | _ => none

/-- The realizations in the text of a document. -/
def ofText (text : String) : Except (ExchangeError α) (List (List α)) :=
  match (Json.ofText? text).bind ofJson? with
  | some rows => .ok rows
  | none => .error .unableToParse

/-- The realizations in a file with the given contents; a file that does not exist has none. -/
def ofContents : Option String → Except (ExchangeError α) (List (List α))
  | some text => ofText text
  | none => .error .unableToRead

/-- The uniform distribution on the realizations in a file. -/
def distributionOfContents [Scalar α] (contents? : Option String) :
    Except (ExchangeError α) (Distribution α) := do
  let rows ← ofContents contents?
  (Distribution.ofRealizations rows).mapError .model

end Realizations

end AdjustableRobust
