import AdjustableRobust.Solver.InteriorPoint.Program

/-!
# Equilibration

Programs are solved with rows and columns scaled so that their values are close to one: first by
geometric means, which brings values of different magnitude close to each other, then by largest
magnitudes, which bounds them. Rows of one cone have a common factor, as nothing else leaves the
cone as it is. Costs and right hand sides are scaled on their own, as only the ratios of costs and
the ratios of right hand sides decide about the solution.
-/

namespace AdjustableRobust

/-- How a program is balanced. -/
structure Balancing where
  /-- Whether right hand sides count as values of their rows. -/
  countsRhs : Bool
  /-- Whether right hand sides are scaled on their own. -/
  scalesRhs : Bool

/-- The ways to balance a program, from the one that suits most programs on. -/
def Balancing.all : List Balancing := [⟨true, true⟩, ⟨false, true⟩, ⟨false, false⟩]

/-- A program with scaled rows, columns, costs and right hand sides. -/
structure BalancedProgram where
  program : ConeProgram
  factors : Triple
  costFactor : Float
  rhsFactor : Float

namespace ConeProgram

variable (p : ConeProgram)

/-- A number for each column and each row. It is found from the values of the column, those of an
equation, or those of all rows of a cone. Rows of which a column is the only one say little about
its scale: they count only for a column without other rows. When right hand sides count, rows in
which they are not zero come first. -/
def measure (countsRhs : Bool) (f : SparseRow → Float) : Triple :=
  let rows := p.equations ++ p.coneRows
  let rhs (i : Nat) : Float :=
    if i < p.equations.size then p.equationRhs.coord i
    else p.coneRhs.coord (i - p.equations.size)
  let columns (used : Nat → SparseRow → Bool) : Vec :=
    (rows.columns p.numColumns used).measure f
  let counted (first i : Nat) (row : SparseRow) : SparseRow :=
    if countsRhs then row.push (p.numColumns, rhs (first + i)) else row
  let coneRows := p.coneRows.mapIdx (counted p.equations.size)
  { x := (columns fun i _ => countsRhs && rhs i != 0).orElse
      ((columns fun _ row => 2 ≤ row.size).orElse (columns fun _ _ => true))
    y := SparseRows.measure (p.equations.mapIdx (counted 0)) f
    z := p.cones.uniform fun c => f (coneRows.extract c.start (c.start + c.dimension)).flatten }

end ConeProgram

namespace BalancedProgram

/-- Scale rows and columns further. -/
def rescale (b : BalancedProgram) (f : Triple) : BalancedProgram :=
  { b with
    program := { b.program with
      costs := b.program.costs.weighted f.x
      equations := b.program.equations.rescale f.y f.x
      equationRhs := b.program.equationRhs.weighted f.y
      coneRows := b.program.coneRows.rescale f.z f.x
      coneRhs := b.program.coneRhs.weighted f.z }
    factors := b.factors.weighted f }

/-- The factor that takes a number to one; zero is left as it is. -/
def normalizer (x : Float) : Float := if x == 0 then 1 else 1 / x

/-- Take the geometric means of rows to one, then those of columns. -/
def centerValues (b : BalancedProgram) : BalancedProgram :=
  let means (b : BalancedProgram) : Triple :=
    (b.program.measure false SparseRow.geometricMean).map normalizer
  let b := b.rescale { means b with x := Vec.constant b.program.numColumns 1 }
  b.rescale { b.program.constant 1 with x := (means b).x }

/-- Take the largest magnitudes in rows and columns closer to one. Values have both factors, so
each of them is a root. -/
def boundValues (countsRhs : Bool) (b : BalancedProgram) : BalancedProgram :=
  b.rescale ((b.program.measure countsRhs SparseRow.largest).map fun size =>
    normalizer size.sqrt)

/-- Take the largest cost to one. -/
def normalizeCosts (b : BalancedProgram) : BalancedProgram :=
  let f := normalizer b.program.costs.largest
  { b with
    program := { b.program with costs := b.program.costs.scale f }
    costFactor := b.costFactor * f }

/-- Take the largest right hand side to one. -/
def normalizeRhs (b : BalancedProgram) : BalancedProgram :=
  let p := b.program
  let f := normalizer (Vec.larger p.equationRhs.largest p.coneRhs.largest)
  { b with
    program := { p with equationRhs := p.equationRhs.scale f, coneRhs := p.coneRhs.scale f }
    rhsFactor := b.rhsFactor * f }

/-- Scale a program. -/
def ofProgram (way : Balancing) (p : ConeProgram) : BalancedProgram :=
  let centered := Nat.repeat centerValues 20 ⟨p, p.constant 1, 1, 1⟩
  let bounded := (Nat.repeat (boundValues way.countsRhs) 10 centered).normalizeCosts
  if way.scalesRhs then bounded.normalizeRhs else bounded

/-- The point of the program before it was scaled, for a point of the scaled program. -/
def unscaled (b : BalancedProgram) (t : Triple) : Triple :=
  let t := t.weighted b.factors
  let f := 1 / b.costFactor
  ⟨t.x.scale (1 / b.rhsFactor), t.y.scale f, t.z.scale f⟩

/-- Residuals of the program before it was scaled, for residuals of the scaled program. -/
def unscaledResiduals (b : BalancedProgram) (r : Triple) : Triple :=
  let r := r.weighted (b.factors.map (1 / ·))
  let f := 1 / b.rhsFactor
  ⟨r.x.scale (1 / b.costFactor), r.y.scale f, r.z.scale f⟩

/-- The objective of the program before it was scaled, for an objective of the scaled program. -/
def unscaledObjective (b : BalancedProgram) (value : Float) : Float :=
  value * (1 / b.costFactor / b.rhsFactor)

end BalancedProgram

end AdjustableRobust
