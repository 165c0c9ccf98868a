import AdjustableRobust.Solver.InteriorPoint.Newton
import AdjustableRobust.Solver.InteriorPoint.Termination

/-!
# The interior point method

A primal-dual method on the homogeneous embedding. Each iteration predicts a step to the boundary,
chooses from it how far to return to the center, and corrects the step for its curvature.
-/

namespace AdjustableRobust

/-- A direction of the embedding. -/
abbrev Direction := Iterate

/-- How the method ends on a balanced program. -/
inductive Ending where
  | solved (t : Iterate)
  /-- With a point that is a solution up to the tolerances only. -/
  | rough (t : Iterate)
  /-- With a ray, which shows that there is no solution. -/
  | ray
  | timeOver
  | undecided

/-- What is found out about a program. -/
inductive Outcome where
  | solved (point : Triple)
  | timeOver
  | failed

namespace ConeProgram

variable (p : ConeProgram)

/-- The first point: the least residuals that a Newton system yields without scaling, shifted into
the cones. -/
def start (plan : Array Elimination) : Option Iterate := do
  let k := p.newtonSystem plan p.cones.identity
  let zero := p.constant 0
  let forRows ← p.solveSystem k { p.data with x := zero.x }
  let forColumns ← p.solveSystem k { zero with x := p.costs.scale (-1) }
  return ⟨⟨forRows.x, forColumns.y, p.cones.shiftInside forColumns.z⟩,
    p.cones.shiftInside (forRows.z.scale (-1)), 1, 1⟩

/-- Mean product of slacks and multipliers. -/
def centrality (t : Iterate) (r : Residuals) : Float :=
  (r.products + t.factor * t.factorSlack) / (p.cones.degree + 1).toFloat

/-- What stays the same for both directions of an iteration. -/
structure Frame where
  system : NewtonSystem
  /-- Response to the common factor. -/
  response : Triple

/-- Prepare an iteration. -/
def frame (plan : Array Elimination) (W : ConeProduct.Scaling) : Option Frame := do
  let system := p.newtonSystem plan W
  return ⟨system, ← p.solveSystem system ⟨p.costs.scale (-1), p.equationRhs, p.coneRhs⟩⟩

/-- The direction that takes a share of the residuals away, changes slacks by a given offset more
than the multipliers ask for, and reduces the product of the common factor by a given amount. -/
def direction (t : Iterate) (r : Residuals) (f : Frame) (share : Float) (offset : Vec)
    (factorProduct : Float) : Option Direction := do
  let step ← p.solveSystem f.system ⟨r.triple.x.scale share, r.triple.y.scale (-share),
    offset.addScaled (-share) r.triple.z⟩
  let change (d : Triple) : Float := p.costs.dot d.x + p.data.rowDot d
  let factorStep := (share * r.factor - factorProduct / t.factor + change step) /
    (t.factorSlack / t.factor - change f.response)
  let step := step.addScaled factorStep f.response
  let slackStep := ((p.cones.scaleTwice f.system.scaling step.z).addScaled 1 offset).scale (-1)
  return ⟨step, slackStep, factorStep,
    -(factorProduct + t.factorSlack * factorStep) / t.factor⟩

/-- The largest step along a direction, up to one, that keeps everything in its cone. -/
def maxStep (t : Iterate) (d : Direction) : Float :=
  let limit (value change limit : Float) : Float :=
    if change < 0 && -value / change < limit then -value / change else limit
  let common := limit t.factorSlack d.factorSlack (limit t.factor d.factor 1)
  p.cones.maxStep t.slack d.slack (p.cones.maxStep t.point.z d.point.z common)

/-- The direction to the boundary, with the step that reaches it. -/
def predictor (t : Iterate) (r : Residuals) (f : Frame) : Option (Direction × Float) := do
  let d ← p.direction t r f 1 t.slack (t.factor * t.factorSlack)
  return (d, p.maxStep t d)

/-- The direction of an iteration. It aims at products of slacks and multipliers that are a share
of their mean, and takes a weight of the curvature along the predictor into account. -/
def corrector (t : Iterate) (r : Residuals) (f : Frame) (predictor : Direction)
    (centering weight : Float) : Option Direction :=
  let W := f.system.scaling
  let target := centering * p.centrality t r
  let curvature := p.cones.product (p.cones.unscale W predictor.slack)
    (p.cones.scale W (predictor.point.z.scale weight))
  let products := (p.cones.product W.image W.image).addScaled 1 (p.cones.shift curvature (-target))
  p.direction t r f (1 - centering) (p.cones.scale W (p.cones.divide W.image products))
    (weight * predictor.factor * predictor.factorSlack + t.factor * t.factorSlack - target)

/-- The next point, unless the arithmetic breaks down or the step is too short. The first
iteration has a smaller weight on curvature, as its point may be far from the center. -/
def advance (plan : Array Elimination) (first : Bool) (t : Iterate) (r : Residuals) :
    Option Iterate := do
  let f ← p.frame plan (← p.cones.scaling? t.slack t.point.z)
  let (predictor, reach) ← p.predictor t r f
  let rest := 1 - reach
  let d ← p.corrector t r f predictor (rest * rest * rest) (if first then reach else 1)
  let step := 0.99 * p.maxStep t d
  if step ≤ 1e-4 then none else some (t.addScaled step d).normalize

end ConeProgram

namespace BalancedProgram

variable (b : BalancedProgram)

/-- What nearly is a solution or a ray does not count as a matter of time. -/
def coarse : Tolerances := ⟨5e-5, 1e-4, 5e-5, 1e-4⟩

/-- Points without progress after which polishing ends. -/
def patience : Nat := 4

/-- The best point that is met when the method goes on from a solution. It ends when the distance
from a solution has not dropped by a tenth for a while. -/
def polish (plan : Array Elimination) : Nat → Nat → Iterate → Float → Iterate → Iterate
  | 0, _, best, _, _ => best
  | _, 0, best, _, _ => best
  | fuel + 1, rest + 1, best, distance, t =>
    match b.program.advance plan false t (b.program.residuals t) with
    | none => best
    | some next =>
      let d := (b.program.residuals next).distance next
      if d < distance * 0.9 then polish plan fuel patience next d next
      else polish plan fuel rest best distance next

/-- End with a solution, which is polished first. -/
def finish (plan : Array Elimination) (t : Iterate) : Ending :=
  let t := b.polish plan 30 patience t ((b.program.residuals t).distance t) t
  if (b.program.residuals t).isPrecise t then .solved t else .rough t

/-- Iterate until a point is a solution or a ray, time is over, or there is no progress. -/
def run (tol : Tolerances) (timeOver : Bool) (plan : Array Elimination) :
    Nat → Bool → Iterate → Ending
  | 0, _, _ => .undecided
  | fuel + 1, first, t =>
    let r := b.program.residuals t
    let q := b.quality t r
    if q.isSolution tol then b.finish plan t
    else if q.isRay tol then .ray
    else if timeOver then
      if q.isSolution coarse || q.isRay coarse then .undecided else .timeOver
    else match b.program.advance plan first t r with
      | some next => run tol timeOver plan fuel false next
      | none => .undecided

/-- Run the method on a balanced program. -/
def solve (tolerance : Float) (timeOver : Bool) : Ending :=
  let plan := b.program.plan
  match b.program.start plan with
  | some t => b.run ⟨tolerance, tolerance, 1e-8, 1e-6⟩ timeOver plan 201 true t
  | none => .undecided

/-- The solution that a point of the embedding stands for. -/
def solution (t : Iterate) : Triple := (b.unscaled t.point).map (· * (1 / t.factor))

end BalancedProgram

namespace ConeProgram

variable (p : ConeProgram)

/-- Solve a program, balanced in one way after the other until the method comes to a decision. When
it never does, the first rough solution is accepted. -/
def solveBy (tolerance : Float) (timeOver : Bool) : List Balancing → Option Triple → Outcome
  | [], rough? => rough?.elim .failed .solved
  | way :: ways, rough? =>
    let b := BalancedProgram.ofProgram way p
    match b.solve tolerance timeOver with
    | .solved t => .solved (b.solution t)
    | .rough t => solveBy tolerance timeOver ways (rough?.or (some (b.solution t)))
    | .ray => .failed
    | .timeOver => .timeOver
    | .undecided => solveBy tolerance timeOver ways rough?

/-- Solve a program with a tolerance for gap and residuals. -/
def solve (tolerance : Float) (timeOver : Bool) : Outcome :=
  p.solveBy tolerance timeOver Balancing.all none

end ConeProgram

end AdjustableRobust
