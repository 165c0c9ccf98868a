import AdjustableRobust.Policy.Error
import AdjustableRobust.Uncertainty.Set

/-!
# Breakpoints

A series of breakpoints splits the range of a direction into consecutive pieces. Given points
outside the open range and repeated ones are dropped, so every piece has a positive width when
the range has one. Lifting fills the pieces with a value from the lower end on.
-/

namespace AdjustableRobust

/-- Increasing breakpoints inside the range of a direction. -/
structure BreakpointSeries (α : Type) where
  breakPoints : List α
  /-- The direction, simplified. -/
  direction : LinearExpr α UncertaintyRef
  /-- Smallest value of the direction. -/
  lower : α
  /-- Largest value of the direction. -/
  upper : α

namespace BreakpointSeries

variable {α : Type} [Scalar α]

/-- Whether a point lies below its predecessor. -/
def decreases : List α → Bool
  | x :: y :: rest => y < x || decreases (y :: rest)
  | _ => false

/-- The points strictly inside a range that exceed the last one kept. -/
def keepInside (lower upper : α) : Option α → List α → List α
  | _, [] => []
  | last, b :: bs =>
    if lower < b && b < upper && last.all (fun l => l < b) then
      b :: keepInside lower upper (some b) bs
    else keepInside lower upper last bs

/-- The series of the given points along a direction with finite range. -/
def make (points : List α) (direction : LinearExpr α UncertaintyRef)
    (scope : Scope α UncertaintyRef) :
    Except (PolicyError α) (BreakpointSeries α) := do
  let direction := direction.simplify
  let lower ← PolicyError.fromModel (direction.lower scope)
  let upper ← PolicyError.fromModel (direction.upper scope)
  match lower, upper with
  | .finite lower, .finite upper =>
    if decreases points then throw .unorderedBreakpoints
    return ⟨keepInside lower upper none points, direction, lower, upper⟩
  | _, _ => throw .unboundedDirection

/-- Number of pieces, one more than the number of breakpoints. -/
def numPieces (s : BreakpointSeries α) : Nat := s.breakPoints.length + 1

/-- End of a piece; the last piece ends at the upper end of the range. -/
def pieceEnd (s : BreakpointSeries α) (i : Nat) : α := s.breakPoints[i]?.getD s.upper

/-- Start of a piece; the first piece starts at the lower end of the range. -/
def pieceStart (s : BreakpointSeries α) : Nat → α
  | 0 => s.lower
  | i + 1 => s.pieceEnd i

/-- Width of a piece. -/
def pieceWidth (s : BreakpointSeries α) (i : Nat) : α := s.pieceEnd i - s.pieceStart i

/-- Whether the direction is a single variable with coefficient one. -/
def isAxisAligned (s : BreakpointSeries α) : Bool :=
  match s.direction.terms with
  | [t] => t.scale == 1
  | _ => false

/-- The variable of an axis aligned direction. -/
def axis (s : BreakpointSeries α) : Except (PolicyError α) UncertaintyRef :=
  match s.direction.terms with
  | [t] => if t.scale == 1 then .ok t.var else .error .notAxisAligned
  | _ => .error .notAxisAligned

/-- Whether the breakpoints are symmetric around zero. -/
def isSymmetric (s : BreakpointSeries α) : Bool :=
  (s.breakPoints.reverse.zip s.breakPoints).all fun (x, y) => x == -y

/-- The part of a value that falls into a piece. -/
def portion (s : BreakpointSeries α) (value : α) (i : Nat) : α :=
  Scalar.max (Scalar.min value (s.pieceEnd i) - s.pieceStart i) 0

/-- The parts of a value that fall into the pieces. -/
def lifted (s : BreakpointSeries α) (value : α) : List α :=
  (List.range s.numPieces).map (s.portion value)

/-- The parts of the value that the direction has at a realization. -/
def liftedRealization (s : BreakpointSeries α) (a : Assignment α UncertaintyRef) :
    Except (ModelError α) (List α) := do
  return s.lifted (← s.direction.value a)

/-- Lifting yields one part for each piece. -/
@[simp] theorem length_lifted (s : BreakpointSeries α) (value : α) :
    (s.lifted value).length = s.numPieces := by
  simp [lifted]

end BreakpointSeries

end AdjustableRobust
