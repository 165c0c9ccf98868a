/-!
# Shortest decimals of binary numbers

A positive binary number `m * 2 ^ q` owns the interval of reals that round to it. Of all decimals
in that interval the shortest is the one on the coarsest grid of powers of ten; if the grid holds
two neighbours of the number, the nearer one is taken, and a tie goes by the given rule. All
comparisons are exact, in natural numbers.
-/

namespace AdjustableRobust

/-- The positive decimal `digits * 10 ^ exponent`. -/
structure Decimal where
  /-- The digits, read as a natural number. -/
  digits : Nat
  /-- Power of ten of the last digit. -/
  exponent : Int
  deriving DecidableEq, Repr

namespace Decimal

/-- Where a number goes that lies halfway between two decimals of a grid. -/
inductive TieRule where
  /-- To the larger neighbour. -/
  | up
  /-- To the neighbour with an even last digit. -/
  | even
  deriving DecidableEq

/-- A positive binary number with its rounding interval, in units of `2 ^ unit`. -/
structure Rounding where
  low : Nat
  value : Nat
  high : Nat
  /-- Power of two of the unit. -/
  unit : Int
  /-- Whether the ends round to the number too. -/
  closed : Bool

/-- Rounding interval of `m * 2 ^ q` for precision 53 and least exponent -1074. The gap below a
power of two is half the gap above it, and ends round to even significands. -/
def Rounding.ofBinary (m : Nat) (q : Int) : Rounding where
  low := if m = Nat.pow 2 52 ∧ q ≠ -1074 then 4 * m - 1 else 4 * m - 2
  value := 4 * m
  high := 4 * m + 2
  unit := q - 2
  closed := m % 2 = 0

/-- Positive and negative parts of a power, so that `b ^ e` is a quotient of naturals. -/
def powerParts (b : Nat) (e : Int) : Nat × Nat := (Nat.pow b e.toNat, Nat.pow b (-e).toNat)

/-- The shortest decimal on the grid `10 ^ k`, if one of the two neighbours of the number on this
grid lies in its rounding interval. -/
def onGrid? (tie : TieRule) (r : Rounding) (k : Int) : Option Decimal :=
  let (twoNum, twoDen) := powerParts 2 r.unit
  let (tenNum, tenDen) := powerParts 10 k
  -- the grid point `c` lies at `c * scale` and the number at `value * factor`
  let factor := twoNum * tenDen
  let scale := twoDen * tenNum
  let value := r.value * factor
  let below := value / scale
  let above := below + 1
  let inside (c : Nat) : Bool :=
    if r.closed then r.low * factor ≤ c * scale && c * scale ≤ r.high * factor
    else r.low * factor < c * scale && c * scale < r.high * factor
  if value % scale = 0 then some ⟨below, k⟩
  else
    match inside below, inside above with
    | false, false => none
    | true, false => some ⟨below, k⟩
    | false, true => some ⟨above, k⟩
    | true, true =>
      let down := value - below * scale
      let up := above * scale - value
      let takeBelow := down < up ||
        (down == up && (match tie with
          | .up => false
          | .even => below % 2 == 0))
      some ⟨if takeBelow then below else above, k⟩

/-- The first grid with a hit, from `10 ^ k` downwards through at most `fuel` grids. -/
def firstGrid (tie : TieRule) (r : Rounding) : Nat → Int → Option Decimal
  | 0, _ => none
  | fuel + 1, k =>
    match onGrid? tie r k with
    | some d => some d
    | none => firstGrid tie r fuel (k - 1)

/-- A grid whose step exceeds `value * 2 ^ unit`: `log₁₀ 2` lies below 30103 / 100000. -/
def coarsestGrid (r : Rounding) : Int :=
  ((r.value.log2 + 1 : Int) + r.unit) * 30103 / 100000 + 1

/-- The shortest decimal that rounds to `m * 2 ^ q`. Seventeen digits always suffice. -/
def shortest (tie : TieRule) (m : Nat) (q : Int) : Decimal :=
  let r := Rounding.ofBinary m q
  (firstGrid tie r 24 (coarsestGrid r)).getD ⟨0, 0⟩

end Decimal

end AdjustableRobust
