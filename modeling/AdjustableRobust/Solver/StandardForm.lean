import AdjustableRobust.Conic.Model
import AdjustableRobust.Solver.Error

/-!
# Standard form

Conic models as rows `A x + s = b` with `s` in a product of cones. Affine constraints and bounds
become rows of zero or nonnegative cones, Euclidean norms second order cones. The other two norms
become linear rows, sums of magnitudes with one auxiliary column for each row of the norm.
-/

namespace AdjustableRobust

/-- Entries of a row: columns and coefficients. -/
abbrev Row (α : Type) := List (Nat × α)

/-- A factor of the product of cones, with its dimension. -/
inductive Cone where
  | zero (dimension : Nat)
  | nonnegative (dimension : Nat)
  /-- The first coordinate is at least the Euclidean norm of the others. -/
  | secondOrder (dimension : Nat)
  deriving DecidableEq, Repr

/-- Number of rows of a cone. -/
def Cone.dimension : Cone → Nat
  | .zero n | .nonnegative n | .secondOrder n => n

/-- Cones whose rows are linear constraints of their own. -/
inductive LinearCone where
  /-- Equations. -/
  | zero
  /-- Inequalities. -/
  | nonnegative
  deriving DecidableEq, Repr

/-- An entry of the matrix. -/
structure Entry (α : Type) where
  row : Nat
  column : Nat
  value : α

/-- Rows in cones. Entries of one cell are summed. -/
structure ConeRows (α : Type) where
  entries : List (Entry α)
  rhs : List α
  /-- The cones, in the order of their rows. -/
  cones : List Cone

namespace ConeRows

variable {α : Type}

/-- No rows. -/
def empty : ConeRows α := ⟨[], [], []⟩

/-- Number of rows. -/
def numRows (r : ConeRows α) : Nat := r.rhs.length

/-- Append a row without giving it a cone. -/
def pushRow (r : ConeRows α) (row : Row α) (b : α) : ConeRows α :=
  { r with
    entries := r.entries ++ row.map fun (column, value) => ⟨r.numRows, column, value⟩
    rhs := r.rhs ++ [b] }

/-- Give one more row to the last cone if it is of the same kind, else to a new one. -/
def extendCones (kind : LinearCone) : List Cone → List Cone
  | [] => match kind with
    | .zero => [.zero 1]
    | .nonnegative => [.nonnegative 1]
  | [last] => match last, kind with
    | .zero n, .zero => [.zero (n + 1)]
    | .nonnegative n, .nonnegative => [.nonnegative (n + 1)]
    | last, .zero => [last, .zero 1]
    | last, .nonnegative => [last, .nonnegative 1]
  | cone :: cones => cone :: extendCones kind cones

/-- Append a linear row. -/
def pushLinear (r : ConeRows α) (row : Row α) (b : α) (kind : LinearCone) : ConeRows α :=
  let r := r.pushRow row b
  { r with cones := extendCones kind r.cones }

/-- Append a second order cone; its first row is the bound. -/
def pushSecondOrder (r : ConeRows α) (rows : List (Row α × α)) : ConeRows α :=
  let r := rows.foldl (fun r (row, b) => r.pushRow row b) r
  { r with cones := r.cones ++ [.secondOrder rows.length] }

end ConeRows

/-- An objective over the columns. -/
structure ColumnObjective (α : Type) where
  sense : ObjectiveSense
  coefficients : Row α
  constant : α

/-- Value of an objective at a list of column values; missing columns count as zero. -/
def ColumnObjective.value {α : Type} [Scalar α] (o : ColumnObjective α) (x : List α) : α :=
  o.constant + Scalar.sum (o.coefficients.map fun (column, c) => c * x[column]?.getD 0)

/-- A conic model in standard form. -/
structure StandardForm (α : Type) where
  /-- Number of columns of model variables; auxiliary columns follow them. -/
  numVariables : Nat
  numColumns : Nat
  rows : ConeRows α
  /-- The objectives, the most important one first. -/
  objectives : List (ColumnObjective α)
  /-- Row and sign of the dual of each constraint, unless a constraint takes several rows. -/
  dualRows? : Option (List (Nat × α))

namespace StandardForm

variable {α : Type} [Scalar α]

/-- Rows under construction. -/
structure Draft (α : Type) where
  rows : ConeRows α
  numColumns : Nat
  dualRows? : Option (List (Nat × α))

/-- Columns and coefficients of the variable part of an expression, times a factor. -/
def rowOf (m : ConicModel α) (e : AffineExpr α ConicRef) (factor : α) :
    Except (SolverError α) (Row α) :=
  e.linear.simplify.terms.mapM fun t => do
    let _ ← m.variableAt t.var
    return (t.var.slot, factor * t.scale)

/-- A row with all signs turned. -/
def opposite (row : Row α) : Row α := row.map fun (column, value) => (column, -value)

/-- An affine constraint as a row, with the sign that turns the multiplier of the row into the
dual of the constraint. -/
def addAffine (m : ConicModel α) (c : ConicConstraint α) (rows : ConeRows α) :
    Except (SolverError α) (ConeRows α × α) := do
  let e := c.expression.affine
  match c.sense with
  | .geq => return (rows.pushLinear (← rowOf m e (-1)) e.constant .nonnegative, -1)
  | .leq => return (rows.pushLinear (← rowOf m e 1) (-e.constant) .nonnegative, 1)
  | .eq => return (rows.pushLinear (← rowOf m e (-1)) e.constant .zero, -1)

/-- A norm below a bound. The bound is `-(bound · x + k)`. -/
def addNorm (m : ConicModel α) (n : NormedVector α ConicRef) (bound : Row α) (k : α)
    (rows : ConeRows α) (numColumns : Nat) : Except (SolverError α) (ConeRows α × Nat) := do
  match n.norm with
  | .two =>
    let body ← n.rows.mapM fun row => return (← rowOf m row (-1), row.constant)
    return (rows.pushSecondOrder ((bound, -k) :: body), numColumns)
  | .infinity =>
    let rows ← n.rows.foldlM (fun rows row => do
      let r ← rowOf m row 1
      let rows := rows.pushLinear (bound ++ r) (-k - row.constant) .nonnegative
      return rows.pushLinear (bound ++ opposite r) (-k + row.constant) .nonnegative) rows
    return (rows, numColumns)
  | .one =>
    let (rows, total, numColumns) ← n.rows.foldlM (fun (rows, total, aux) row => do
      let r ← rowOf m row 1
      let rows := rows.pushLinear ((aux, -1) :: r) (-row.constant) .nonnegative
      let rows := rows.pushLinear ((aux, -1) :: opposite r) row.constant .nonnegative
      return (rows, total ++ [(aux, 1)], aux + 1)) (rows, bound, numColumns)
    return (rows.pushLinear total (-k) .nonnegative, numColumns)

/-- Add the rows of a constraint. -/
def addConstraint (m : ConicModel α) (d : Draft α) (c : ConicConstraint α) :
    Except (SolverError α) (Draft α) := do
  match c.expression.normed? with
  | none =>
    let (rows, sign) ← addAffine m c d.rows
    return { d with rows, dualRows? := d.dualRows?.map (· ++ [(d.rows.numRows, sign)]) }
  | some n =>
    if c.sense ≠ .leq then throw (.nonConvex c.name)
    let bound ← rowOf m c.expression.affine 1
    let (rows, numColumns) ← addNorm m n bound c.expression.affine.constant d.rows d.numColumns
    return ⟨rows, numColumns, none⟩

/-- Add the rows of the bounds of a variable. -/
def addBounds (rows : ConeRows α) (column : Nat) (b : Bounds α) : ConeRows α :=
  let rows := match b.lower? with
    | some l => rows.pushLinear [(column, -1)] (-l) .nonnegative
    | none => rows
  match b.upper? with
  | some u => rows.pushLinear [(column, 1)] u .nonnegative
  | none => rows

/-- The standard form of a continuous model without exclusive groups. -/
def ofModel (m : ConicModel α) : Except (SolverError α) (StandardForm α) := do
  if !m.isContinuous then throw .unsupportedIntegers
  if !m.exclusiveGroups.isEmpty then throw .unsupportedSos
  let draft ← m.constraints.foldlM (addConstraint m) ⟨.empty, m.numVariables, some []⟩
  let rows := m.vars.items.zipIdx.foldl (fun rows (v, column) =>
    addBounds rows column v.bounds) draft.rows
  let objectives ← m.objectives.mapM fun o =>
    return ⟨o.sense, ← rowOf m o.expression 1, o.expression.constant⟩
  return ⟨m.numVariables, draft.numColumns, rows, objectives, draft.dualRows?⟩

end StandardForm

end AdjustableRobust
