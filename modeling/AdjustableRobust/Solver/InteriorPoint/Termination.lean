import AdjustableRobust.Solver.InteriorPoint.Equilibration

/-!
# Points and their quality

Points of the homogeneous embedding: the program and its dual are scaled by a common factor, so
that iterates converge to a pair of solutions, or to a ray that shows that there is none. How good
a point is, is measured on the program before it was scaled.
-/

namespace AdjustableRobust

/-- A point of the embedding. -/
structure Iterate where
  /-- Columns, and multipliers of equations and cone rows. -/
  point : Triple
  slack : Vec
  factor : Float
  factorSlack : Float

/-- Sum of two points, the second one scaled. -/
def Iterate.addScaled (t : Iterate) (step : Float) (d : Iterate) : Iterate :=
  ⟨t.point.addScaled step d.point, t.slack.addScaled step d.slack,
    t.factor + step * d.factor, t.factorSlack + step * d.factorSlack⟩

/-- The multiple of a point whose common factor or its slack, whichever is larger, is one. The
embedding is homogeneous, so multiples of a point are equally good. -/
def Iterate.normalize (t : Iterate) : Iterate :=
  let f := 1 / (if t.factor < t.factorSlack then t.factorSlack else t.factor)
  ⟨t.point.map (· * f), t.slack.scale f, t.factor * f, t.factorSlack * f⟩

/-- Residuals of the embedding at a point. -/
structure Residuals where
  /-- Residuals of columns and rows without costs and right hand sides. -/
  homogeneous : Triple
  /-- Residuals of columns and rows. -/
  triple : Triple
  factor : Float
  costs : Float
  /-- Inner product of right hand sides and multipliers. -/
  rhs : Float
  /-- Inner product of slacks and multipliers. -/
  products : Float

/-- Residuals at a point. -/
def ConeProgram.residuals (p : ConeProgram) (t : Iterate) : Residuals :=
  let homogeneous : Triple :=
    ⟨(p.transposed t.point).scale (-1), p.equations.apply t.point.x,
      t.slack.addScaled 1 (p.coneRows.apply t.point.x)⟩
  let costs := p.costs.dot t.point.x
  let rhs := p.data.rowDot t.point
  { homogeneous
    triple := homogeneous.addScaled (-t.factor) p.data
    factor := costs + rhs + t.factorSlack
    costs, rhs
    products := t.slack.dot t.point.z }

/-- The larger of one and a number. -/
def atLeastOne (x : Float) : Float := if 1 < x then x else 1

namespace Residuals

/-- How far a point is from a solution of the program: products of slacks and multipliers, and
residuals. -/
def distance (r : Residuals) (t : Iterate) : Float :=
  (r.products / t.factor + r.triple.rowNorm + r.triple.columnNorm) / t.factor

/-- Whether the gap between the two objectives and the residuals of the program are small. -/
def isPrecise (r : Residuals) (t : Iterate) : Bool :=
  let primal := r.costs / t.factor
  let dual := -r.rhs / t.factor
  Vec.larger ((primal - dual).abs / atLeastOne primal.abs) (r.triple.largest / t.factor) < 1e-6

end Residuals

/-- What is accepted as a solution or as a ray. -/
structure Tolerances where
  /-- For the gap between the two objectives, absolute and relative. -/
  gap : Float
  residual : Float
  /-- For rays, absolute and relative. -/
  ray : Float
  /-- For the ratio of the common factor's slack and the factor. -/
  ratio : Float

/-- How good a point is. -/
structure Quality where
  gap : Float
  /-- The same, relative to the smaller objective. -/
  relativeGap : Float
  rowResidual : Float
  columnResidual : Float
  /-- Ratio of the common factor's slack and the factor. -/
  ratio : Float
  /-- Inner product of right hand sides and multipliers, and how far the multipliers are from a
  ray. -/
  dualRay : Float × Float
  /-- Costs of the columns, and how far the columns are from a ray. -/
  primalRay : Float × Float

/-- Quality of a point of the scaled program. -/
def BalancedProgram.quality (b : BalancedProgram) (t : Iterate) (r : Residuals) : Quality :=
  let scale := 1 / t.factor
  let primal := b.unscaledObjective r.costs * scale
  let dual := -(b.unscaledObjective r.rhs) * scale
  let gap := (primal - dual).abs
  let smaller := if primal.abs < dual.abs then primal.abs else dual.abs
  -- norms before scaling
  let data := b.unscaledResiduals b.program.data
  let point := b.unscaled t.point
  let x := point.columnNorm
  let z := point.rowNorm
  let s := (b.unscaledResiduals ⟨FloatArray.empty, FloatArray.empty, t.slack⟩).rowNorm
  let homogeneous := b.unscaledResiduals r.homogeneous
  let residual := b.unscaledResiduals r.triple
  { gap
    relativeGap := gap / atLeastOne smaller
    rowResidual := residual.rowNorm * scale /
      atLeastOne (Vec.larger data.y.largest data.z.largest + x * scale + s * scale)
    columnResidual := residual.columnNorm * scale /
      atLeastOne (data.x.largest + x * scale + z * scale)
    ratio := t.factorSlack * scale
    dualRay := (r.rhs, homogeneous.columnNorm / atLeastOne z)
    primalRay := (r.costs, homogeneous.rowNorm / atLeastOne (x + s)) }

namespace Quality

/-- Whether a point is as good as a solution. -/
def isSolution (q : Quality) (tol : Tolerances) : Bool :=
  q.ratio ≤ 1 && (q.gap < tol.gap || q.relativeGap < tol.gap) &&
    q.rowResidual < tol.residual && q.columnResidual < tol.residual

/-- Whether a point shows that there is no solution, or no bound. -/
def isRay (q : Quality) (tol : Tolerances) : Bool :=
  let shows : Float × Float → Bool
    | (value, distance) => value < -tol.ray && distance < -tol.ray * value
  1000 / tol.ratio < q.ratio && (shows q.dualRay || shows q.primalRay)

end Quality

end AdjustableRobust
