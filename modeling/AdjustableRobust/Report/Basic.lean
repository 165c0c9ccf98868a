import AdjustableRobust.Decimal.Format
import AdjustableRobust.Json.Basic
import AdjustableRobust.Scalar.Extended
import AdjustableRobust.Store

/-!
# Reports

A report is a document about objects of the library. Its numbers stay doubles until it is
written, so they can be rounded first. Numbers are written in full; a number that is not finite
is written as a word.
-/

namespace AdjustableRobust

/-- A document whose numbers are still doubles. -/
inductive Report where
  | json (value : Json)
  | number (x : Float)
  | list (items : List Report)
  | record (fields : List (String × Report))

namespace Report

/-- Nothing to say. -/
def null : Report := .json .null

/-- Numbers in reports are written in full, and both zeros alike. -/
def format : Decimal.NumberFormat := { Decimal.NumberFormat.plain with minusZero := "0" }

/-- A number in a report. -/
def numberJson (x : Float) : Json :=
  if x.isFinite then .number (format.print x).toList
  else if x.isNaN then .string "nan"
  else .string (if x < 0 then "-inf" else "inf")

/-- Round to a number of decimal places, halves away from zero. -/
def roundTo (places : Nat) (x : Float) : Float :=
  let factor := (Nat.pow 10 places).toFloat
  (x * factor).round / factor

mutual

/-- The document of a report, with a change applied to each number. -/
def toJson (change : Float → Float) : Report → Json
  | .json value => value
  | .number x => numberJson (change x)
  | .list items => .array (itemsToJson change items)
  | .record fields => .object (fieldsToJson change fields)

/-- The documents of the items of a list. -/
def itemsToJson (change : Float → Float) : List Report → List Json
  | [] => []
  | item :: items => toJson change item :: itemsToJson change items

/-- The members of a record. -/
def fieldsToJson (change : Float → Float) : List (String × Report) → List (String × Json)
  | [] => []
  | (name, field) :: fields => (name, toJson change field) :: fieldsToJson change fields

end

end Report

/-- Types with reports. -/
class Reported (β : Type) where
  report : β → Report

export Reported (report)

instance : Reported Report := ⟨id⟩

instance : Reported Unit := ⟨fun _ => .null⟩

instance : Reported Float := ⟨.number⟩

instance : Reported Nat := ⟨fun n => .json (.number (Nat.toDigits 10 n))⟩

instance : Reported Bool := ⟨fun b => .json (.bool b)⟩

instance : Reported String := ⟨fun s => .json (.string s)⟩

/-- An object that does not exist is reported as null. -/
instance {β : Type} [Reported β] : Reported (Option β) := ⟨fun x? => (x?.map report).getD .null⟩

instance {β : Type} [Reported β] : Reported (List β) := ⟨fun xs => .list (xs.map report)⟩

/-- A handle is reported by its position. -/
instance {κ : EntityKind} : Reported (Handle κ) := ⟨fun h => report h.slot⟩

instance : Reported Ordering where
  report
    | .lt => .number (-1)
    | .eq => .number 0
    | .gt => .number 1

/-- Whether two handles are equal, and how they and their owners are ordered. -/
def Handle.comparison {κ : EntityKind} (a b : Handle κ) : Report :=
  .record [("eq", report (a == b)), ("same_hash", report (a == b)),
    ("cmp", report (a.compare b)), ("partial", report (a.compare b)),
    ("same_owner", report (a.owner == b.owner)),
    ("owner_cmp", report (Ord.compare a.owner.number b.owner.number))]

/-- An extended number is reported as the double it stands for. -/
instance : Reported (Extended Float) where
  report
    | .negInf => .number (-1 / 0)
    | .finite x => .number x
    | .posInf => .number (1 / 0)
    | .undefined => .number (0 / 0)

/-- A range is reported by its ends. -/
instance : Reported (Interval Float) := ⟨fun i => .list [report i.lower, report i.upper]⟩

end AdjustableRobust
