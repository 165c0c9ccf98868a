import AdjustableRobust.Solver.InteriorPoint.Vector

/-!
# Factorization of quasi-definite matrices

A symmetric matrix whose leading block is positive definite and whose trailing block is negative
definite is a product of a unit lower triangular matrix, a diagonal one and the transpose of the
first, in any order of elimination. The order is chosen once from the pattern of the nonzero
entries: the row with the fewest neighbours comes first. Pivots that rounding has taken too close
to zero are moved away from it; the solution of a system is refined afterwards.
-/

namespace AdjustableRobust

/-- A symmetric matrix, given by its lower triangle. -/
structure SymmetricMatrix where
  size : Nat
  /-- The entries by rows; those above the diagonal are not used. -/
  entries : Vec

namespace SymmetricMatrix

/-- Position of an entry. -/
@[inline] def position (size i j : Nat) : Nat := if j ≤ i then i * size + j else j * size + i

/-- The zero matrix. -/
def zero (size : Nat) : SymmetricMatrix := ⟨size, Vec.zeros (size * size)⟩

/-- An entry. -/
@[inline] def entry (m : SymmetricMatrix) (i j : Nat) : Float :=
  m.entries.coord (position m.size i j)

/-- Put an entry. -/
@[inline] def put (m : SymmetricMatrix) (i j : Nat) (x : Float) : SymmetricMatrix :=
  ⟨m.size, m.entries.set! (position m.size i j) x⟩

/-- Add to an entry. -/
@[inline] def add (m : SymmetricMatrix) (i j : Nat) (x : Float) : SymmetricMatrix :=
  ⟨m.size, m.entries.bump (position m.size i j) x⟩

end SymmetricMatrix

/-- One step of an elimination. -/
structure Elimination where
  row : Nat
  /-- Its neighbours among the rows that are left. -/
  later : Array Nat

namespace Elimination

/-- Connect the neighbours of an eliminated row with each other. -/
def connect (size : Nat) (later : Array Nat) (linked : ByteArray) : ByteArray :=
  later.foldl (fun linked i =>
    later.foldl (fun linked j => linked.set! (i * size + j) 1) linked) linked

/-- Neighbours of a row among the rows that are left. -/
def neighbours (size : Nat) (linked : ByteArray) (left : Array Nat) (k : Nat) : Array Nat :=
  left.filter fun i => i != k && linked.get! (k * size + i) == 1

/-- An order of elimination for a matrix whose nonzero entries are marked, in both triangles. -/
def order (size : Nat) (linked : ByteArray) : Array Elimination :=
  let all := Array.range size
  let degrees := all.map fun k => (neighbours size linked all k).size
  let (plan, _) := size.fold (fun _ _ (plan, left, linked, (degrees : Array Nat)) =>
    let degree (k : Nat) : Nat := degrees.getD k 0
    let k := left.foldl (fun best i => if degree i < degree best then i else best)
      (left.getD 0 0)
    let left := left.erase k
    let later := neighbours size linked left k
    let linked := connect size later linked
    let degrees := later.foldl (fun (degrees : Array Nat) i =>
      degrees.setIfInBounds i (neighbours size linked left i).size) degrees
    (plan.push ⟨k, later⟩, left, linked, degrees))
    ((#[] : Array Elimination), all, linked, degrees)
  plan

/-- Subtract the outer product of the eliminated row from the rows that are left, then divide it
by the pivot. -/
def apply (e : Elimination) (pivot : Float) (m : SymmetricMatrix) : SymmetricMatrix :=
  let n := e.later.size
  n.fold (fun t ht m =>
    let i := e.later[t]
    let factor := m.entry i e.row / pivot
    let m := (n - t).fold (fun u _ m =>
      let j := e.later.getD (t + u) 0
      m.add i j (-(factor * m.entry j e.row))) m
    m.put i e.row factor) m

end Elimination

/-- A factored matrix. -/
structure Factorization where
  plan : Array Elimination
  /-- The factor of each row that was eliminated later, in the column of the earlier one. -/
  factors : SymmetricMatrix
  pivots : Vec

namespace Factorization

/-- A pivot of the positive definite block that is not too close to zero. -/
def safePivot (pivot : Float) : Float := if pivot ≤ 1e-13 then 2e-7 else pivot

/-- Factor a matrix whose leading `positive` rows belong to the positive definite block. -/
def ofMatrix (plan : Array Elimination) (positive : Nat) (a : SymmetricMatrix) : Factorization :=
  let (factors, pivots) := plan.foldl (fun (m, (pivots : Vec)) e =>
    let k := e.row
    let pivot := if k < positive then safePivot (m.entry k k) else -(safePivot (-(m.entry k k)))
    (e.apply pivot m, pivots.set! k pivot)) (a, Vec.zeros a.size)
  ⟨plan, factors, pivots⟩

/-- Solve the system of the factored matrix. -/
def solve (f : Factorization) (b : Vec) : Vec :=
  let y := f.plan.foldl (fun (y : Vec) e =>
    let value := y.coord e.row
    e.later.foldl (fun (y : Vec) i => y.bump i (-(f.factors.entry i e.row * value))) y) b
  f.plan.foldr (fun e (y : Vec) =>
    let total := e.later.foldl (fun total i => total + f.factors.entry i e.row * y.coord i) 0
    y.set! e.row (y.coord e.row / f.pivots.coord e.row - total)) y

end Factorization

end AdjustableRobust
