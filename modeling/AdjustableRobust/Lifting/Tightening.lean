import AdjustableRobust.Lifting.Map
import AdjustableRobust.Robust.Model

/-!
# Tightening lifted sets

The pieces of an axis do not know of each other, so the lifted set is larger than the set of lifted
realizations. Box alternatives are tightened axis by axis, either by clipping every piece to the
box or by bounding the mass outside of it. Sets that stay the same under permutations are tightened
across axes: the mass beyond a breakpoint is bounded for all axes together.
-/

namespace AdjustableRobust

namespace LiftedAxis

variable {α : Type}

/-- The lifted variable of a piece. -/
def variableAt (axis : LiftedAxis α) (i : Nat) : Except StoreError UncertaintyRef :=
  match axis.vars[i]? with
  | some v => .ok v
  | none => .error (.outOfRange i axis.vars.length)

end LiftedAxis

/-! ## Boxes -/

/-- The optional ends of the range of a variable in a box. -/
structure BoxRange (α : Type) where
  lower? : Option α
  upper? : Option α

namespace BoxRange

variable {α : Type} [Scalar α]

/-- Lower the upper end to a bound. -/
def boundAbove (r : BoxRange α) (b : α) : BoxRange α :=
  { r with upper? := match r.upper? with
    | some u => some (Scalar.min u b)
    | none => if Scalar.isDefined b then some b else none }

/-- Raise the lower end to a bound. -/
def boundBelow (r : BoxRange α) (b : α) : BoxRange α :=
  { r with lower? := match r.lower? with
    | some l => some (Scalar.max l b)
    | none => if Scalar.isDefined b then some b else none }

/-- Intersect with `scale * u + constant` in relation to zero. A negative scale turns the
relation around. -/
def intersect (r : BoxRange α) (sense : ConstraintSense) (scale constant : α) : BoxRange α :=
  let b := -constant / scale
  match sense, decide (0 < scale) with
  | .leq, true | .geq, false => r.boundAbove b
  | .geq, true | .leq, false => r.boundBelow b
  | .eq, _ => (r.boundAbove b).boundBelow b

/-- Intersect the ranges of all variables with a constraint that bounds a single one. Other
constraints change nothing. -/
def addConstraint (set : UncertaintySet α) (ranges : List (BoxRange α))
    (c : UncertaintyConstraint α) : Except (ModelError α) (List (BoxRange α)) := do
  match c.expression.affine.linear.simplify.terms with
  | [t] =>
    let _ ← set.variableAt t.var
    return ranges.modify t.var.slot (·.intersect c.sense t.scale c.expression.affine.constant)
  | _ => return ranges

/-- The variable bounds intersected with the constraints of a box alternative. -/
def ofAlternative (set : UncertaintySet α) (alternative : ConstraintSet α) :
    Except (ModelError α) (List (BoxRange α)) :=
  alternative.constraints.foldlM (addConstraint set) (set.bounds.map fun b => ⟨b.lower?, b.upper?⟩)

end BoxRange

/-- One lifted axis inside one box alternative. -/
structure BoxPieces (α : Type) where
  /-- The alternative of the lifted set. -/
  set : ConstraintSetRef
  /-- Name of the base variable. -/
  name : String
  series : BreakpointSeries α
  axis : LiftedAxis α
  lower : α
  upper : α

namespace BoxPieces

variable {α : Type} [Scalar α]

/-- A named affine constraint of the lifted set. -/
abbrev NamedConstraint (α : Type) := String × RawConstraint (AffineExpr α UncertaintyRef)

/-- A value clipped to the range of a piece, as a distance from its start. -/
def clip (b : BoxPieces α) (i : Nat) (x : α) : α :=
  Scalar.min (Scalar.max (x - b.series.pieceStart i) 0) (b.series.pieceWidth i)

/-- Clip a piece to the box. A piece that ends inside the box has to be filled before the next
one; both are measured by what the box leaves of them. -/
def clippedPiece (b : BoxPieces α) (piece : UncertaintyRef) (i : Nat) :
    Except StoreError (List (NamedConstraint α)) := do
  let pieceEnd := b.series.pieceEnd i
  let lower := b.clip i b.lower
  let upper := b.clip i b.upper
  let v : AffineExpr α UncertaintyRef := .var piece
  let bounds := [
    (s!"BoundLiftedBoxLB{b.set.slot}_{b.name}_{i}", v.relateValue .geq lower),
    (s!"BoundLiftedBoxUB{b.set.slot}_{b.name}_{i}", v.relateValue .leq upper)]
  if b.lower < pieceEnd && pieceEnd < b.upper then
    let next ← b.axis.variableAt (i + 1)
    let nextUpper := Scalar.min (b.upper - pieceEnd) (b.series.pieceEnd (i + 1) - pieceEnd)
    let remaining := b.series.pieceWidth i - lower
    let fill := ((AffineExpr.term (1 / remaining) piece).addConstant (-lower / remaining)).addTerm
      (-1 / nextUpper) next
    return bounds ++ [(s!"BoundLiftedWithPreviousBox{b.set.slot}_{b.name}_{i}",
      fill.relateValue .geq 0)]
  return bounds

/-- Clip every piece to the box. -/
def clipped (b : BoxPieces α) : Except StoreError (List (NamedConstraint α)) := do
  return (← b.axis.vars.zipIdx.mapM fun (piece, i) => b.clippedPiece piece i).flatten

/-- The mass missing from the pieces below the box plus the mass in the pieces above it, with the
position of the first piece that is not below and the number of pieces that are not above. -/
def outside (b : BoxPieces α) : AffineExpr α UncertaintyRef × Nat × Nat :=
  b.axis.vars.zipIdx.foldl (fun (outer, first, stop) (piece, i) =>
    let start := b.series.pieceStart i
    let stopPoint := b.series.pieceEnd i
    let (outer, first) :=
      if stopPoint ≤ b.lower then
        ((outer.addTerm (-1) piece).addConstant (stopPoint - start), first + 1)
      else (outer, first)
    if b.upper ≤ start then (outer.addTerm 1 piece, first, stop - 1) else (outer, first, stop))
    (.zero, 0, b.series.numPieces)

/-- Bound the mass outside of the box and in the two pieces that hold the ends of the box. -/
def accumulated (b : BoxPieces α) : Except StoreError (List (NamedConstraint α)) := do
  let (outer, first, stop) := b.outside
  let name (label : String) := s!"LiftedBoxConstrOuter{label}_{b.name}_US{b.set.slot}"
  let outermost := if outer.linear.isEmpty then [] else [(name "", outer.relateValue .leq 0)]
  if stop ≤ first then return outermost
  let lowerReach := b.series.pieceEnd first - b.lower
  let upperReach := b.upper - b.series.pieceStart (stop - 1)
  let lowerPiece ← b.axis.variableAt first
  let upperPiece ← b.axis.variableAt (stop - 1)
  let width := b.series.pieceWidth first
  let below := (outer.addConstant width).addTerm (-1) lowerPiece
  let lowerEnd := if lowerReach < upperReach then
    [(name "Smaller", below.relateValue .leq lowerReach)] else []
  let upperEnd := if upperReach < lowerReach || lowerPiece = upperPiece then
    [(name "Smaller", (outer.addTerm 1 upperPiece).relateValue .leq upperReach)] else []
  let full := if lowerPiece = upperPiece then [] else
    [(name "Full", (below.addTerm 1 upperPiece).relateValue .leq
      (Scalar.max lowerReach upperReach))]
  return outermost ++ lowerEnd ++ upperEnd ++ full

end BoxPieces

/-! ## Rotational invariance -/

namespace LiftedAxis

variable {α : Type} [Scalar α]

/-- The breakpoints that all axes share, if they do. -/
def sharedSeries? (axes : List (LiftedAxis α)) : Option (BreakpointSeries α) := do
  let first ← axes.head?
  let series ← first.series?
  let same (xs ys : List α) : Bool :=
    xs.length == ys.length && (xs.zip ys).all fun (x, y) => x == y
  if axes.all fun axis => axis.series?.any fun s => same s.breakPoints series.breakPoints then
    some series
  else none

end LiftedAxis

namespace UncertaintySet

variable {α : Type} [Scalar α]

/-- Largest sum of what magnitudes exceed a threshold by, over all numbers of variables. -/
def outsideBudget (s : UncertaintySet α) (threshold : α) : Except (ModelError α) α :=
  (List.range s.numVariables).foldlM (fun budget i => do
    let k := i + 1
    return Scalar.max budget ((← s.maxOneNorm k) - (k : α) * threshold)) 0

end UncertaintySet

namespace RotationalCut

variable {α : Type} [Scalar α]

/-- A cap on an expression, under the name of the cuts at a breakpoint. -/
def cap (lifted : RobustModel α) (i : Nat) (e : AffineExpr α UncertaintyRef) (budget : α) :
    Except (PolicyError α) (RobustModel α) :=
  PolicyError.fromModel <| lifted.addUncertaintyConstraint s!"RotationalBound_BP{i}"
    (e.relateValue .leq budget).toConic

/-- Symmetric sets: for each pair of opposite breakpoints, what is missing below the lower one
and present above the upper one. Sums run from the outermost pair inwards. -/
def addSymmetric (set : UncertaintySet α) (series : BreakpointSeries α)
    (axes : List (LiftedAxis α)) (lifted : RobustModel α) :
    Except (PolicyError α) (RobustModel α) := do
  let n := series.numPieces
  let (lifted, _) ← (List.range (n / 2)).foldlM (fun (lifted, outer) i => do
    let outer ← axes.foldlM (fun (outer : AffineExpr α UncertaintyRef) axis => do
      let low ← PolicyError.fromStore (axis.variableAt i)
      let high ← PolicyError.fromStore (axis.variableAt (n - i - 1))
      return ((outer.addConstant (series.pieceWidth i)).addTerm (-1) low).addTerm 1 high) outer
    let budget ← PolicyError.fromModel (set.outsideBudget (-series.pieceEnd i))
    return (← cap lifted i outer budget, outer)) (lifted, .zero)
  return lifted

/-- Non-negative sets: for each breakpoint, what is present above it. Sums run downwards from the
last piece. -/
def addNonNegative (set : UncertaintySet α) (series : BreakpointSeries α)
    (axes : List (LiftedAxis α)) (lifted : RobustModel α) :
    Except (PolicyError α) (RobustModel α) := do
  let (lifted, _) ← (List.range series.numPieces).reverse.foldlM (fun (lifted, outer) i => do
    let outer ← axes.foldlM (fun (outer : AffineExpr α UncertaintyRef) axis => do
      return outer.addTerm 1 (← PolicyError.fromStore (axis.variableAt i))) outer
    let budget ← PolicyError.fromModel (set.outsideBudget (series.pieceStart i))
    return (← cap lifted i outer budget, outer)) (lifted, .zero)
  return lifted

end RotationalCut

end AdjustableRobust
