import AdjustableRobust.Solver.InteriorPoint.Vector

/-!
# Sparse matrices

Matrices by rows, each row as a list of different columns with their values.
-/

namespace AdjustableRobust

/-- Columns and values of a row. -/
abbrev SparseRow := Array (Nat × Float)

/-- Rows of a matrix. -/
abbrev SparseRows := Array SparseRow

namespace SparseRow

/-- Add a value to a column. -/
def add (row : SparseRow) (column : Nat) (a : Float) : SparseRow :=
  match row.findIdx? (·.1 == column) with
  | some i => row.modify i fun (column, b) => (column, b + a)
  | none => row.push (column, a)

/-- Inner product of a row and a vector. -/
def dot (row : SparseRow) (x : Vec) : Float :=
  row.foldl (fun total (column, a) => total + a * x.coord column) 0

/-- Largest magnitude of a value. -/
def largest (row : SparseRow) : Float := row.foldl (fun m (_, a) => Vec.larger m a.abs) 0

/-- Geometric mean of the magnitudes of the nonzero values; zero when there are none. -/
def geometricMean (row : SparseRow) : Float :=
  let (total, count) := row.foldl (fun ((total, count) : Float × Nat) (_, a) =>
    if a == 0 then (total, count) else (total + a.abs.log, count + 1)) (0, 0)
  if count = 0 then 0 else (total / count.toFloat).exp

end SparseRow

namespace SparseRows

/-- Product of the matrix and a vector. -/
def apply (rows : SparseRows) (x : Vec) : Vec :=
  rows.foldl (fun y row => y.push (row.dot x)) (FloatArray.emptyWithCapacity rows.size)

/-- Sum of a vector and the product of the transposed matrix and another one. -/
def addTransposed (rows : SparseRows) (y : Vec) (total : Vec) : Vec :=
  rows.size.fold (fun i h total =>
    let factor := y.coord i
    rows[i].foldl (fun total (column, a) => total.bump column (a * factor)) total) total

/-- The vector of a number for each row. -/
@[inline] def measure (rows : SparseRows) (f : SparseRow → Float) : Vec :=
  rows.foldl (fun v row => v.push (f row)) (FloatArray.emptyWithCapacity rows.size)

/-- The columns of the matrix, each with the nonzero values in the rows that are used. -/
def columns (numColumns : Nat) (used : Nat → SparseRow → Bool) (rows : SparseRows) : SparseRows :=
  rows.size.fold (fun i h (columns : SparseRows) =>
    if used i rows[i] then
      rows[i].foldl (fun (columns : SparseRows) (j, a) =>
        if a == 0 then columns else columns.modify j (·.push (i, a))) columns
    else columns) (Array.replicate numColumns #[])

/-- Scale rows and columns. -/
def rescale (rows : SparseRows) (rowFactors columnFactors : Vec) : SparseRows :=
  rows.mapIdx fun i row =>
    row.map fun (column, a) => (column, a * (rowFactors.coord i * columnFactors.coord column))

end SparseRows

end AdjustableRobust
