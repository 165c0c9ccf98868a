import AdjustableRobust.Solver.InteriorPoint.Factorization
import AdjustableRobust.Solver.InteriorPoint.Program

/-!
# Newton systems

The linear systems of the interior point method. The unknowns are the columns and the multipliers
of equations and of cone rows. The matrix is factored with its diagonal moved away from zero; the
solution is then refined until the residual of the system itself stops shrinking.
-/

namespace AdjustableRobust

namespace ConeProgram

variable (p : ConeProgram)

/-- Number of unknowns. -/
def numUnknowns : Nat := p.numColumns + p.equations.size + p.coneRows.size

/-- Visit the coefficients of all rows, with their positions in the system. -/
@[inline] def foldRows {β : Type} (f : β → Nat → Nat → Float → β) (start : β) : β :=
  let n := p.numColumns
  let visit (rows : SparseRows) (first : Nat) (acc : β) : β :=
    rows.size.fold (fun i h acc =>
      rows[i].foldl (fun acc (column, a) => f acc (first + i) column a) acc) acc
  visit p.coneRows (n + p.equations.size) (visit p.equations n start)

/-- Visit all pairs of rows of the same cone, the later one first, with their positions in the
system. -/
@[inline] def foldCones {β : Type} (f : β → Nat → Nat → Nat → ConeBlock → β) (start : β) : β :=
  p.cones.blocks.size.fold (fun c hc acc =>
    let b := p.cones.blocks[c]
    b.dimension.fold (fun i _ acc => (i + 1).fold (fun j _ acc => f acc c i j b) acc) acc) start

/-- Position of the first cone row in the system. -/
def firstConeRow : Nat := p.numColumns + p.equations.size

/-- The order of elimination for the systems of the program. -/
def plan : Array Elimination :=
  let size := p.numUnknowns
  let mark (linked : ByteArray) (i j : Nat) : ByteArray :=
    (linked.set! (i * size + j) 1).set! (j * size + i) 1
  let linked : ByteArray := ⟨Array.replicate (size * size) 0⟩
  let linked := p.foldRows (fun linked i j _ => mark linked i j) linked
  let first := p.firstConeRow
  Elimination.order size (p.foldCones (fun linked _ i j b =>
    mark linked (first + b.start + i) (first + b.start + j)) linked)

/-- An entry of the squared scaling of a cone. -/
def squareEntry (W : ConeProduct.Scaling) (c i j : Nat) (b : ConeBlock) : Float :=
  let stretch := W.stretch.coord c
  let square := stretch * stretch
  if b.dimension == 1 then square
  else
    let outer := 2 * W.reflector.coord (b.start + i) * W.reflector.coord (b.start + j)
    square * (if i != j then outer else if i == 0 then outer - 1 else outer + 1)

/-- The matrix of the system. -/
def systemMatrix (W : ConeProduct.Scaling) : SymmetricMatrix :=
  let first := p.firstConeRow
  p.foldCones (fun m c i j b =>
    m.put (first + b.start + i) (first + b.start + j) (-(squareEntry W c i j b)))
    (p.foldRows (fun m i j a => m.put i j a) (SymmetricMatrix.zero p.numUnknowns))

/-- Move the diagonal of a system away from zero. -/
def regularized (m : SymmetricMatrix) : SymmetricMatrix :=
  let largest := m.size.fold (fun i _ size => Vec.larger size (m.entry i i).abs) 0
  let shift := 1e-9 + 4.930380657631324e-32 * largest
  m.size.fold (fun i _ m => m.add i i (if i < p.numColumns then shift else -shift)) m

/-- The system at a scaling, with its factorization. -/
structure NewtonSystem where
  scaling : ConeProduct.Scaling
  /-- The regularized system. -/
  factorization : Factorization

/-- Factor the system at a scaling. -/
def newtonSystem (plan : Array Elimination) (W : ConeProduct.Scaling) : NewtonSystem :=
  ⟨W, .ofMatrix plan p.numColumns (p.regularized (p.systemMatrix W))⟩

/-- Product of the system and a triple. -/
def applySystem (W : ConeProduct.Scaling) (t : Triple) : Triple where
  x := p.transposed t
  y := p.equations.apply t.x
  z := (p.coneRows.apply t.x).addScaled (-1) (p.cones.scaleTwice W t.z)

/-- Solve the regularized system. -/
def solveRegularized (k : NewtonSystem) (rhs : Triple) : Triple :=
  let n := p.numColumns
  let first := p.firstConeRow
  let solution := k.factorization.solve
    (Vec.tabulate p.numUnknowns fun i =>
      if i < n then rhs.x.coord i
      else if i < first then rhs.y.coord (i - n)
      else rhs.z.coord (i - first))
  ⟨Vec.tabulate n solution.coord,
    Vec.tabulate p.equations.size fun i => solution.coord (n + i),
    Vec.tabulate p.coneRows.size fun i => solution.coord (first + i)⟩

/-- Refine a solution while its residual shrinks to a half and is above rounding errors. The length
of each correction is the one that leaves the least residual. There is no result when the residual
is not finite. -/
def refine (k : NewtonSystem) (rhs : Triple) : Nat → Triple → Triple → Float → Option Triple
  | 0, t, _, _ => some t
  | fuel + 1, t, residual, size =>
    if !size.isFinite then none
    else if size ≤ 1e-16 * rhs.largest then some t
    else
      let correction := p.solveRegularized k residual
      let image := p.applySystem k.scaling correction
      let square := image.dot image
      let length := if square == 0 then 1 else residual.dot image / square
      let next := t.addScaled length correction
      let nextResidual := rhs.addScaled (-1) (p.applySystem k.scaling next)
      let nextSize := nextResidual.largest
      let ratio := size / nextSize
      if ratio < 2 then some (if 1 < ratio then next else t)
      else refine k rhs fuel next nextResidual nextSize

/-- Solve the system. -/
def solveSystem (k : NewtonSystem) (rhs : Triple) : Option Triple :=
  let t := p.solveRegularized k rhs
  let residual := rhs.addScaled (-1) (p.applySystem k.scaling t)
  p.refine k rhs 10 t residual residual.largest

end ConeProgram

end AdjustableRobust
