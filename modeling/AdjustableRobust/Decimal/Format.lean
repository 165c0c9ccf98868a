import AdjustableRobust.Decimal.Shortest
import AdjustableRobust.Scalar.Basic

/-!
# Printed numbers

A number format fixes everything about a printed number that its shortest decimal leaves open.
Two formats are used: `plain`, for names, expressions and messages, and `exchange`, for numbers
in exchanged documents.
-/

namespace AdjustableRobust.Decimal

/-- What a double holds. -/
inductive Content where
  | zero (negative : Bool)
  | number (negative : Bool) (m : Nat) (q : Int)
  | infinite (negative : Bool)
  | undefined

/-- Read the fields of a double: sign, eleven exponent bits and 52 fraction bits. -/
def Content.ofFloat (x : Float) : Content :=
  let bits := x.toBits.toNat
  let negative := bits / Nat.pow 2 63 == 1
  let exponent : Nat := bits / Nat.pow 2 52 % Nat.pow 2 11
  let fraction : Nat := bits % Nat.pow 2 52
  if exponent == 2047 then
    if fraction == 0 then .infinite negative else .undefined
  else if exponent == 0 then
    if fraction == 0 then .zero negative else .number negative fraction (-1074)
  else .number negative (Nat.pow 2 52 + fraction) ((exponent : Int) - 1075)

/-- The decisions of a way to print numbers. -/
structure NumberFormat where
  /-- Choice between two shortest decimals that are equally near. -/
  tie : TieRule
  /-- Powers of ten of the first digit for which the number is written without an exponent. -/
  positional : Int → Bool
  /-- Whether whole numbers end in a point and a zero. -/
  keepsPoint : Bool
  zero : String
  minusZero : String
  infinity : String
  minusInfinity : String
  undefined : String

namespace NumberFormat

/-- Numbers in names, expressions and messages are written in full, and minus zero keeps its
sign. -/
def plain : NumberFormat where
  tie := .up
  positional _ := true
  keepsPoint := false
  zero := "0"
  minusZero := "-0"
  infinity := "inf"
  minusInfinity := "-inf"
  undefined := "NaN"

/-- Numbers in exchanged documents are written in full from `1e-5` up to below `1e16`, always
with a fraction, and with a signed exponent otherwise. What is not finite is null. -/
def exchange : NumberFormat where
  tie := .even
  positional e := -5 ≤ e && e < 16
  keepsPoint := true
  zero := "0.0"
  minusZero := "-0.0"
  infinity := "null"
  minusInfinity := "null"
  undefined := "null"

/-- Digits and point of a decimal written in full. -/
def digitsInFull (f : NumberFormat) (digits : List Char) (exponent : Int) : List Char :=
  let point := (digits.length : Int) + exponent
  if 0 ≤ exponent then
    digits ++ List.replicate exponent.toNat '0' ++ (if f.keepsPoint then ['.', '0'] else [])
  else if 0 < point then
    digits.take point.toNat ++ '.' :: digits.drop point.toNat
  else '0' :: '.' :: List.replicate (-point).toNat '0' ++ digits

/-- Digits of a decimal with a signed exponent; the point follows the first digit. -/
def digitsWithExponent (digits : List Char) (first : Int) : List Char :=
  let sign := if first < 0 then '-' else '+'
  let mantissa := match digits with
    | [] => []
    | [d] => [d]
    | d :: rest => d :: '.' :: rest
  mantissa ++ 'e' :: sign :: (Nat.toDigits 10 first.natAbs)

/-- Text of a positive decimal. -/
def decimal (f : NumberFormat) (d : Decimal) : List Char :=
  let digits := Nat.toDigits 10 d.digits
  let first := (digits.length : Int) + d.exponent - 1
  if f.positional first then f.digitsInFull digits d.exponent
  else digitsWithExponent digits first

/-- Text of a double: the shortest digits that read back to it, laid out by the format. -/
def print (f : NumberFormat) (x : Float) : String :=
  match Content.ofFloat x with
  | .zero negative => if negative then f.minusZero else f.zero
  | .number negative m q =>
    let body := f.decimal (shortest f.tie m q)
    String.ofList (if negative then '-' :: body else body)
  | .infinite negative => if negative then f.minusInfinity else f.infinity
  | .undefined => f.undefined

end NumberFormat

/-- The double nearest to `± digits * 10 ^ exponent`. Exponents so large that the result is an
infinity, or so small that it is a zero, are settled without computing the power. -/
def toFloat (negative : Bool) (digits : Nat) (exponent : Int) : Float :=
  let first := ((Nat.toDigits 10 digits).length : Int) + exponent
  let magnitude :=
    if digits = 0 then 0
    else if 400 < first then 1 / 0
    else if first < -400 then 0
    else Float.ofScientific digits (exponent < 0) exponent.natAbs
  if negative then -magnitude else magnitude

/-- Doubles print in full. -/
instance : ScalarText Float where
  text := NumberFormat.plain.print

end AdjustableRobust.Decimal
