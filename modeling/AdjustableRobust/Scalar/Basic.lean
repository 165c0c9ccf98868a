/-!
# Scalars

The numbers that models are written in. Every model, compiler and solver of the library takes its
scalars from this class, so one definition serves binary floating point, where it runs, and an
exact ordered field, where it is reasoned about. Arithmetic is never reassociated: each fold
below goes from left to right and starts at zero.
-/

namespace AdjustableRobust

/-- Ordered arithmetic with square roots. Comparisons may fail to be total: a scalar that is not
equal to itself stands for an undefined result. -/
class Scalar (α : Type) extends Add α, Sub α, Mul α, Div α, Neg α, Zero α, One α, NatCast α,
    LT α, LE α, BEq α where
  decLt : DecidableLT α
  decLe : DecidableLE α
  abs : α → α
  sqrt : α → α
  /-- The `n`-th root, for positive `n`. -/
  root : Nat → α → α
  /-- Largest natural number not above a non-negative scalar. -/
  floor : α → Nat
  /-- A total order that agrees with `≤` wherever both scalars are defined, used for sorting. -/
  precedes : α → α → Bool

/-- Scalars with a printed form. -/
class ScalarText (α : Type) where
  text : α → String

namespace Scalar

variable {α : Type} [Scalar α]

instance : DecidableLT α := decLt

instance : DecidableLE α := decLe

/-- Whether the scalar is a defined value, that is, equal to itself. -/
def isDefined (x : α) : Bool := x == x

/-- Whether the scalar is defined and finite: only then does it cancel against itself. -/
def isFinite (x : α) : Bool := x - x == 0

/-- The larger of two scalars. An undefined operand yields the other one. -/
def max (x y : α) : α :=
  if isDefined x then
    if isDefined y then if x < y then y else x else x
  else y

/-- The smaller of two scalars. An undefined operand yields the other one. -/
def min (x y : α) : α :=
  if isDefined x then
    if isDefined y then if y < x then y else x else x
  else y

/-- Sum of a list from left to right, starting at zero. -/
def sum (xs : List α) : α := xs.foldl (· + ·) 0

/-- The empty sum is zero. -/
@[simp] theorem sum_nil : sum ([] : List α) = 0 := rfl

end Scalar

end AdjustableRobust
