import AdjustableRobust.Diagnostics
import AdjustableRobust.Json.Reader
import AdjustableRobust.Solver.Backend
import AdjustableRobust.Uncertainty.Set

/-!
# Exchanged words

Enumerations stand in documents as fixed words. A word may also be the only member of an object,
with a null value. Diagnostics are objects, or arrays of their two fields.
-/

namespace AdjustableRobust

/-- The words of an enumeration. -/
class Wording (β : Type) where
  /-- Every value with its word. -/
  words : List (β × String)

namespace Wording

variable {β : Type} [Wording β]

/-- The value of a word. -/
def ofWord? (word : String) : Option β := (words.find? (·.2 == word)).map (·.1)

/-- The value in a document. -/
def ofJson? : Json → Option β
  | .string word => ofWord? word
  | .object [(word, .null)] => ofWord? word
  | _ => none

/-- The document of a value. -/
def toJson [DecidableEq β] (x : β) : Json :=
  match (words (β := β)).find? (·.1 = x) with
  | some (_, word) => .string word
  | none => .null

end Wording

instance : Wording NormKind where
  words := [(.one, "One"), (.two, "Two"), (.infinity, "Infinity")]

instance : Wording ConstraintSense where
  words := [(.leq, "Leq"), (.geq, "Geq"), (.eq, "Eq")]

instance : Wording ObjectiveSense where
  words := [(.minimize, "Minimize"), (.maximize, "Maximize")]

instance : Wording OptimizationStatus where
  words := [(.unsolved, "Unsolved"), (.optimal, "Optimal"), (.timeLimit, "TimeLimit"),
    (.memoryLimit, "MemoryLimit")]

instance : Wording SpecialSetType where
  words := [(.box, "Box"), (.ball, "Ball"), (.budget, "Budget"), (.other, "Other")]

instance : Wording UncertaintyMode where
  words := [(.union, "Union"), (.average, "Average"), (.stochastic, "Stochastic")]

instance : Wording VariableType where
  words := [(.continuous, "Continuous"), (.integer, "Integer"), (.binary, "Binary")]

instance : Wording DiagnosticLevel where
  words := [(.info, "Info"), (.warning, "Warning")]

namespace Diagnostic

/-- The string in a document. -/
def stringOfJson? : Json → Option String
  | .string s => some s
  | _ => none

/-- The diagnostic in a document. Each of its fields occurs once; other members are ignored. -/
def ofJson? : Json → Option Diagnostic
  | .object members =>
    match members.filter (·.1 == "level"), members.filter (·.1 == "message") with
    | [(_, level)], [(_, message)] => do
      return ⟨← Wording.ofJson? level, ← stringOfJson? message⟩
    | _, _ => none
  | .array [level, message] => do
    return ⟨← Wording.ofJson? level, ← stringOfJson? message⟩
  | _ => none

/-- The document of a diagnostic. -/
def toJson (d : Diagnostic) : Json :=
  .object [("level", Wording.toJson d.level), ("message", .string d.message)]

end Diagnostic

end AdjustableRobust
