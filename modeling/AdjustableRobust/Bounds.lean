import AdjustableRobust.ModelError
import AdjustableRobust.Scalar.Extended

/-!
# Variable bounds

A variable may have a lower bound, an upper bound, both or none. Bounds are only made when the
lower one does not exceed the upper one, and keep the proof of it.
-/

namespace AdjustableRobust

/-- Optional bounds in the right order. -/
structure Bounds (α : Type) [Scalar α] where
  lower? : Option α
  upper? : Option α
  ordered : ∀ l u, lower? = some l → upper? = some u → ¬u < l

namespace Bounds

variable {α : Type} [Scalar α]

/-- A lower end, unless it is the infinity that bounds nothing. -/
def lowerEnd? (lower? : Option α) : Option α :=
  lower?.filter fun l => Scalar.isFinite l || !(l < 0)

/-- An upper end, unless it is the infinity that bounds nothing. -/
def upperEnd? (upper? : Option α) : Option α :=
  upper?.filter fun u => Scalar.isFinite u || !(0 < u)

/-- Bounds with the given ends, refused when they are in the wrong order. -/
def make (lower? upper? : Option α) : Except (ModelError α) (Bounds α) :=
  match lowerEnd? lower?, upperEnd? upper? with
  | some l, some u =>
    if h : u < l then .error .invalidVariableBounds
    else .ok ⟨some l, some u, fun _ _ hl hu => by cases hl; cases hu; exact h⟩
  | none, upper? => .ok ⟨none, upper?, fun _ _ hl _ => by cases hl⟩
  | lower?, none => .ok ⟨lower?, none, fun _ _ _ hu => by cases hu⟩

/-- No bounds. -/
def free : Bounds α := ⟨none, none, fun _ _ h _ => by cases h⟩

/-- A lower bound alone. -/
def atLeast (l : α) : Bounds α := ⟨some l, none, fun _ _ _ h => by cases h⟩

/-- An upper bound alone. -/
def atMost (u : α) : Bounds α := ⟨none, some u, fun _ _ h _ => by cases h⟩

/-- The range between the bounds. -/
def interval (b : Bounds α) : Interval α := ⟨.ofLower b.lower?, .ofUpper b.upper?⟩

/-- Whether the variable ranges over exactly `[0, 1]`. -/
def isZeroOne (b : Bounds α) : Bool :=
  match b.lower?, b.upper? with
  | some l, some u => l == 0 && u == 1
  | _, _ => false

/-- Whether both bounds are finite. -/
def isBounded (b : Bounds α) : Bool :=
  b.lower?.any Scalar.isFinite && b.upper?.any Scalar.isFinite

/-- Whether the variable cannot be negative. -/
def isNonNegative (b : Bounds α) : Bool := b.lower?.any fun l => 0 ≤ l

/-- Whether the bounds are symmetric around zero. -/
def isSymmetric (b : Bounds α) : Bool :=
  match b.lower?, b.upper? with
  | none, none => true
  | some l, some u => -l == u
  | _, _ => false

/-- Equality of optional scalars. -/
def sameEnd : Option α → Option α → Bool
  | none, none => true
  | some x, some y => x == y
  | _, _ => false

/-- Whether two variables have the same bounds. -/
def same (b c : Bounds α) : Bool := sameEnd b.lower? c.lower? && sameEnd b.upper? c.upper?

/-- Whether a value lies between the bounds. -/
def admits (b : Bounds α) (x : α) : Bool :=
  b.lower?.all (fun l => l ≤ x) && b.upper?.all (fun u => x ≤ u)

/-- Whether a value violates a bound by more than the tolerance. -/
def violated (b : Bounds α) (tolerance x : α) : Bool :=
  b.lower?.any (fun l => x < l - tolerance) || b.upper?.any (fun u => u + tolerance < x)

/-- Text of the lower bound. -/
def lowerText [ScalarText α] (b : Bounds α) : String :=
  match b.lower? with
  | some l => ScalarText.text l
  | none => "-inf"

/-- Text of the upper bound. -/
def upperText [ScalarText α] (b : Bounds α) : String :=
  match b.upper? with
  | some u => ScalarText.text u
  | none => "inf"

end Bounds

end AdjustableRobust
