import AdjustableRobust.Scalar.Basic

/-!
# Scalars with infinities

Bounds range over the scalars extended by two infinities and by one undefined value, which
absorbs `∞ - ∞` and `0 * ∞`. The extended scalars are scalars again, so norms, sums and extrema
are shared with the plain ones. A finite result that overflows becomes the infinity of its sign.
-/

namespace AdjustableRobust

/-- A scalar, an infinity, or no defined value. -/
inductive Extended (α : Type) where
  | negInf
  | finite (value : α)
  | posInf
  /-- The result of an operation that has none. -/
  | undefined
  deriving Inhabited

namespace Extended

variable {α : Type} [Scalar α]

/-- Sort a scalar into its class: only finite scalars stay scalars. -/
def ofScalar (x : α) : Extended α :=
  if Scalar.isFinite x then .finite x
  else if x < 0 then .negInf
  else if 0 < x then .posInf
  else .undefined

/-- Lower bound with the given value, minus infinity when there is none. -/
def ofLower : Option α → Extended α
  | none => .negInf
  | some x => ofScalar x

/-- Upper bound with the given value, infinity when there is none. -/
def ofUpper : Option α → Extended α
  | none => .posInf
  | some x => ofScalar x

/-- The infinity with the sign of the given scalar; a zero has none. -/
def infinityLike (x : α) : Extended α :=
  if 0 < x then .posInf else if x < 0 then .negInf else .undefined

/-- Sum. Opposite infinities have none. -/
def add : Extended α → Extended α → Extended α
  | .finite x, .finite y => ofScalar (x + y)
  | .undefined, _ => .undefined
  | _, .undefined => .undefined
  | .negInf, .posInf => .undefined
  | .posInf, .negInf => .undefined
  | .negInf, _ => .negInf
  | _, .negInf => .negInf
  | .posInf, _ => .posInf
  | _, .posInf => .posInf

/-- Opposite. -/
def neg : Extended α → Extended α
  | .negInf => .posInf
  | .finite x => .finite (-x)
  | .posInf => .negInf
  | .undefined => .undefined

/-- Product. Zero times an infinity has none. -/
def mul : Extended α → Extended α → Extended α
  | .finite x, .finite y => ofScalar (x * y)
  | .undefined, _ => .undefined
  | _, .undefined => .undefined
  | .posInf, .finite y => infinityLike y
  | .negInf, .finite y => infinityLike (-y)
  | .finite x, .posInf => infinityLike x
  | .finite x, .negInf => infinityLike (-x)
  | .posInf, .posInf => .posInf
  | .negInf, .negInf => .posInf
  | .posInf, .negInf => .negInf
  | .negInf, .posInf => .negInf

/-- Quotient. An infinity divided by an infinity has none. -/
def div : Extended α → Extended α → Extended α
  | .finite x, .finite y => ofScalar (x / y)
  | .undefined, _ => .undefined
  | _, .undefined => .undefined
  | .finite _, _ => .finite 0
  | .posInf, .finite y => if y < 0 then .negInf else .posInf
  | .negInf, .finite y => if y < 0 then .posInf else .negInf
  | _, _ => .undefined

/-- Strict comparison; the undefined value is not comparable. -/
def less : Extended α → Extended α → Bool
  | .finite x, .finite y => decide (x < y)
  | .negInf, .finite _ => true
  | .negInf, .posInf => true
  | .finite _, .posInf => true
  | _, _ => false

/-- Equality of values; the undefined value is not equal to itself. -/
def equal : Extended α → Extended α → Bool
  | .finite x, .finite y => x == y
  | .negInf, .negInf => true
  | .posInf, .posInf => true
  | _, _ => false

/-- Magnitude. -/
def magnitude : Extended α → Extended α
  | .negInf => .posInf
  | .finite x => .finite (Scalar.abs x)
  | .posInf => .posInf
  | .undefined => .undefined

/-- Square root of a scalar or of infinity. -/
def squareRoot : Extended α → Extended α
  | .finite x => ofScalar (Scalar.sqrt x)
  | .posInf => .posInf
  | _ => .undefined

/-- Extended scalars are scalars again. -/
instance : Scalar (Extended α) where
  add := add
  sub x y := add x (neg y)
  mul := mul
  div := div
  neg := neg
  zero := .finite 0
  one := .finite 1
  natCast n := .finite (n : α)
  lt x y := less x y = true
  le x y := (less x y || equal x y) = true
  beq := equal
  decLt _ _ := inferInstanceAs (Decidable (_ = true))
  decLe _ _ := inferInstanceAs (Decidable (_ = true))
  abs := magnitude
  sqrt := squareRoot
  root n
    | .finite x => ofScalar (Scalar.root n x)
    | .posInf => .posInf
    | _ => .undefined
  floor
    | .finite x => Scalar.floor x
    | _ => 0
  precedes
    | .finite x, .finite y => Scalar.precedes x y
    | .negInf, _ => true
    | .finite _, .negInf => false
    | .finite _, _ => true
    | .posInf, .posInf => true
    | .posInf, .undefined => true
    | .posInf, _ => false
    | .undefined, .undefined => true
    | .undefined, _ => false

end Extended

/-- The range between two extended scalars. -/
structure Interval (α : Type) where
  lower : Extended α
  upper : Extended α

namespace Interval

variable {α : Type} [Scalar α]

/-- The interval multiplied by a scalar. A zero factor yields the zero interval, also for
unbounded intervals, and a negative one swaps the ends. -/
def scale (factor : α) (i : Interval α) : Interval α :=
  if factor == 0 then ⟨.finite 0, .finite 0⟩
  else
    let k := Extended.ofScalar factor
    if 0 < factor then ⟨k * i.lower, k * i.upper⟩ else ⟨k * i.upper, k * i.lower⟩

/-- Product of two ends, in which a zero absorbs an infinity. -/
def endProduct (x y : Extended α) : Extended α :=
  if x == 0 || y == 0 then 0 else x * y

/-- The interval of all products of two values: its ends are among the products of the ends. -/
def product (i j : Interval α) : Interval α :=
  let corners := [endProduct i.lower j.lower, endProduct i.lower j.upper,
    endProduct i.upper j.lower, endProduct i.upper j.upper]
  ⟨corners.foldl Scalar.min .posInf, corners.foldl Scalar.max .negInf⟩

end Interval

end AdjustableRobust
