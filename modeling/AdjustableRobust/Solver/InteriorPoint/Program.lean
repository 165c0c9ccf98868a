import AdjustableRobust.Solver.InteriorPoint.ConeAlgebra
import AdjustableRobust.Solver.InteriorPoint.SparseRow

/-!
# Cone programs

The programs that the interior point method solves, and their points: values of columns and
multipliers of rows.
-/

namespace AdjustableRobust

/-- Minimize `c x` subject to `A x = b` and `h - G x` in a product of cones. -/
structure ConeProgram where
  numColumns : Nat
  costs : Vec
  equations : SparseRows
  equationRhs : Vec
  coneRows : SparseRows
  coneRhs : Vec
  cones : ConeProduct

/-- Values of columns, of multipliers of equations and of multipliers of cone rows. -/
structure Triple where
  /-- Columns. -/
  x : Vec
  /-- Equations. -/
  y : Vec
  /-- Cone rows. -/
  z : Vec

namespace Triple

/-- Sum of two triples, the second one scaled. -/
def addScaled (p : Triple) (scale : Float) (q : Triple) : Triple :=
  ⟨p.x.addScaled scale q.x, p.y.addScaled scale q.y, p.z.addScaled scale q.z⟩

/-- Apply a function to each coordinate. -/
def map (f : Float → Float) (p : Triple) : Triple := ⟨p.x.map f, p.y.map f, p.z.map f⟩

/-- Products of the coordinates of two triples. -/
def weighted (p q : Triple) : Triple := ⟨p.x.weighted q.x, p.y.weighted q.y, p.z.weighted q.z⟩

/-- Inner product over the rows. -/
def rowDot (p q : Triple) : Float := p.y.dot q.y + p.z.dot q.z

/-- Inner product. -/
def dot (p q : Triple) : Float := p.x.dot q.x + p.rowDot q

/-- Euclidean norm over the columns. -/
def columnNorm (p : Triple) : Float := (p.x.dot p.x).sqrt

/-- Euclidean norm over the rows. -/
def rowNorm (p : Triple) : Float := (p.rowDot p).sqrt

/-- Largest magnitude. -/
def largest (p : Triple) : Float := Vec.larger (Vec.larger p.x.largest p.y.largest) p.z.largest

end Triple

namespace ConeProgram

variable (p : ConeProgram)

/-- Costs and right hand sides. -/
def data : Triple := ⟨p.costs, p.equationRhs, p.coneRhs⟩

/-- The triple with equal coordinates. -/
def constant (x : Float) : Triple :=
  ⟨Vec.constant p.numColumns x, Vec.constant p.equations.size x, Vec.constant p.coneRows.size x⟩

/-- Product of the transposed rows and multipliers. -/
def transposed (t : Triple) : Vec :=
  p.coneRows.addTransposed t.z (p.equations.addTransposed t.y (Vec.zeros p.numColumns))

end ConeProgram

end AdjustableRobust
