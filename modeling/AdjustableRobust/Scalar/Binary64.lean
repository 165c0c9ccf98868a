import AdjustableRobust.Scalar.Basic

/-!
# Binary floating point as scalars

The double precision instance of `Scalar`, in which the library runs.
-/

namespace AdjustableRobust

/-- Position of a double in the total order of its encodings: negative ones are reversed and
precede the others, so minus zero precedes zero and every undefined value stands at an end. -/
def totalOrderKey (x : Float) : Int :=
  let bits := x.toBits.toNat
  if bits < Nat.pow 2 63 then bits else -((bits - Nat.pow 2 63 : Nat) : Int) - 1

/-- Double precision arithmetic, rounding each operation once. -/
instance : Scalar Float where
  natCast := Float.ofNat
  decLt := Float.decLt
  decLe := Float.decLe
  abs := Float.abs
  sqrt := Float.sqrt
  root n x := Float.pow x (1 / Float.ofNat n)
  floor x := x.floor.toUInt64.toNat
  precedes x y := decide (totalOrderKey x ≤ totalOrderKey y)

end AdjustableRobust
