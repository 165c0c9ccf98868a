import AdjustableRobust.Scalar.Binary64
import AdjustableRobust.Solver.Hierarchy
import AdjustableRobust.Solver.InteriorPoint.Method

/-!
# The interior point backend

Standard forms as programs of the interior point method. Rows of zero cones become equations,
rows of nonnegative cones become cones of dimension one. A row without a finite right hand side
demands nothing and is left out.
-/

namespace AdjustableRobust

namespace InteriorPoint

/-- Rows sorted into equations and cones. Row numbers say where the multipliers belong. -/
structure Sorted where
  /-- Numbers of the rows of equations. -/
  equations : Array Nat
  /-- Numbers of the rows of cones. -/
  coneRows : Array Nat
  blocks : Array ConeBlock

/-- Right hand sides from here on count as infinite. -/
def infiniteRhs : Float := 1e20

/-- Sort rows by their cones. -/
def sortRows (rhs : Vec) (cones : List Cone) : Sorted :=
  let (_, sorted) := cones.foldl (fun (row, (s : Sorted)) cone =>
    let next := row + cone.dimension
    match cone with
    | .zero n => (next, { s with equations := s.equations ++ (Array.range n).map (row + ·) })
    | .nonnegative n =>
      let finite := ((Array.range n).map (row + ·)).filter fun i => !(infiniteRhs ≤ rhs.coord i)
      let first := s.coneRows.size
      let blocks := finite.mapIdx fun i _ => ConeBlock.mk (first + i) 1
      (next, { s with coneRows := s.coneRows ++ finite, blocks := s.blocks ++ blocks })
    | .secondOrder n =>
      let block := ConeBlock.mk s.coneRows.size n
      (next, { s with
        coneRows := s.coneRows ++ (Array.range n).map (row + ·)
        blocks := if n = 0 then s.blocks else s.blocks.push block })) (0, ⟨#[], #[], #[]⟩)
  sorted

/-- Rows of a matrix given by its entries. -/
def rowsOf (numRows : Nat) (entries : List (Entry Float)) : SparseRows :=
  entries.foldl (fun rows e => rows.modify e.row (·.add e.column e.value))
    (Array.replicate numRows #[])

/-- The program of a standard form. -/
def program (numColumns : Nat) (rows : ConeRows Float) (costs : List Float) (sorted : Sorted) :
    ConeProgram :=
  let matrix := rowsOf rows.numRows rows.entries
  let rhs := Vec.ofList rows.rhs
  let select (numbers : Array Nat) : SparseRows := numbers.map fun i => matrix.getD i #[]
  let selectRhs (numbers : Array Nat) : Vec :=
    Vec.tabulate numbers.size fun i =>
      let b := rhs.coord (numbers.getD i 0)
      if infiniteRhs < b then infiniteRhs else b
  { numColumns
    costs := Vec.ofList costs
    equations := select sorted.equations
    equationRhs := selectRhs sorted.equations
    coneRows := select sorted.coneRows
    coneRhs := selectRhs sorted.coneRows
    cones := ⟨sorted.blocks, sorted.coneRows.size⟩ }

/-- Put the multipliers of a point back to their rows. -/
def multipliers (numRows : Nat) (sorted : Sorted) (t : Triple) : Vec :=
  let place (numbers : Array Nat) (values : Vec) (out : Vec) : Vec :=
    numbers.size.fold (fun i h out => out.set! numbers[i] (values.coord i)) out
  place sorted.coneRows t.z (place sorted.equations t.y (Vec.zeros numRows))

/-- A time limit below this many seconds is over before the first iteration ends. -/
def shortestTime : Float := 1e-6

/-- Minimize costs subject to rows. -/
def solve : SingleSolver Float := fun settings numColumns rows costs =>
  let sorted := sortRows (Vec.ofList rows.rhs) rows.cones
  let timeOver := settings.runtimeLimit?.any (· ≤ shortestTime)
  match (program numColumns rows costs sorted).solve settings.tolerance timeOver with
  | .solved t => ⟨.solved, t.x.toList, (multipliers rows.numRows sorted t).toList, 0⟩
  | .timeOver => ⟨.timeLimit, [], [], 0⟩
  | .failed => ⟨.failed, [], [], 0⟩

end InteriorPoint

/-- The backend that solves standard forms by the interior point method. -/
def ConeBackend.interiorPoint : ConeBackend Float := ⟨InteriorPoint.solve, none⟩

end AdjustableRobust
