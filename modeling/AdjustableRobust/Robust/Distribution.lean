import AdjustableRobust.Lifting.Map

/-!
# Distributions of the uncertainty

Expectations of scalar, vector and matrix valued functions of the uncertainty, under the uniform
distribution on finitely many realizations or under the image of a distribution by a lifting.
-/

namespace AdjustableRobust

/-- A distribution of realizations. -/
inductive Distribution (α : Type) where
  /-- Uniform on the given realizations. -/
  | empirical (realizations : List (List α))
  /-- Lifted realizations of another distribution. -/
  | lifted (base : Distribution α) (lifting : Lifting α)

namespace Distribution

variable {α : Type} [Scalar α]

/-- The uniform distribution on at least one realization. -/
def ofRealizations (rows : List (List α)) : Except (ModelError α) (Distribution α) :=
  if rows.isEmpty then .error .emptyRealizations else .ok (.empirical rows)

/-- The realizations that carry equal weight; a lifting may refuse some of them. -/
def outcomes : Distribution α → List (Except (ModelError α) (List α))
  | .empirical rows => rows.map .ok
  | .lifted base lifting => (outcomes base).map fun r => r >>= lifting.lift

/-- Values of a function at the outcomes, up to the first failure. -/
def evaluate {β : Type} (d : Distribution α) (f : List α → Except (ModelError α) β) :
    Except (ModelError α) (List β) :=
  d.outcomes.mapM fun r => r >>= f

/-- Number of outcomes. -/
def count (d : Distribution α) : α := (d.outcomes.length : α)

/-- Expected value of a scalar function. -/
def expectedValue (d : Distribution α) (f : List α → Except (ModelError α) α) :
    Except (ModelError α) α := do
  return Scalar.sum (← d.evaluate f) / d.count

/-- Add values of one shape from left to right, where `add?` refuses different shapes. -/
def total {β : Type} (add? : β → β → Option β) (f : List α → Except (ModelError α) β) :
    List (Except (ModelError α) (List α)) → Option β → Except (ModelError α) β
  | [], none => .error .emptyRealizations
  | [], some sum => .ok sum
  | r :: rs, sum? => do
    let value ← r >>= f
    match sum? with
    | none => total add? f rs (some value)
    | some sum =>
      match add? sum value with
      | some sum => total add? f rs (some sum)
      | none => throw .inconsistentExpectationShape

/-- Sum of vectors of the same length. -/
def addVectors? (xs ys : List α) : Option (List α) :=
  if xs.length = ys.length then some (List.zipWith (· + ·) xs ys) else none

/-- Sum of matrices of the same shape, row by row. -/
def addMatrices? (xs ys : List (List α)) : Option (List (List α)) :=
  if xs.map List.length = ys.map List.length then
    some (List.zipWith (List.zipWith (· + ·)) xs ys)
  else none

/-- Expected value of a vector valued function. -/
def expectedVector (d : Distribution α) (f : List α → Except (ModelError α) (List α)) :
    Except (ModelError α) (List α) := do
  return (← total addVectors? f d.outcomes none).map (· / d.count)

/-- Expected value of a matrix valued function; matrices are lists of rows. -/
def expectedMatrix (d : Distribution α) (f : List α → Except (ModelError α) (List (List α))) :
    Except (ModelError α) (List (List α)) := do
  return (← total addMatrices? f d.outcomes none).map fun row => row.map (· / d.count)

end Distribution

end AdjustableRobust
