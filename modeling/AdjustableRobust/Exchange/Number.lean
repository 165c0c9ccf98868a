import AdjustableRobust.Decimal.Format
import AdjustableRobust.Json.Reader

/-!
# Exchanged numbers

How scalars stand in JSON documents.
-/

namespace AdjustableRobust

/-- Scalars that can be exchanged. -/
class ScalarExchange (α : Type) where
  /-- The scalar as a JSON value; what is not finite has no number. -/
  toJson : α → Json
  /-- The scalar of a number literal, unless it is out of range. -/
  ofLiteral? : List Char → Option α

/-- Doubles are exchanged as their shortest decimals. A literal is rounded to the nearest double; a
reader that makes only a best effort in the last place may take one next to it, for literals of many
digits above all. A literal beyond the finite range is refused, one below it is zero. -/
instance : ScalarExchange Float where
  toJson x :=
    if x.isFinite then .number (Decimal.NumberFormat.exchange.print x).toList else .null
  ofLiteral? literal :=
    let (negative, digits, exponent) := Json.literalParts literal
    let x := Decimal.toFloat negative digits exponent
    if x.isFinite then some x else none

/-- The scalar of a JSON number. -/
def ScalarExchange.ofJson? {α : Type} [ScalarExchange α] : Json → Option α
  | .number literal => ofLiteral? literal
  | _ => none

end AdjustableRobust
