import AdjustableRobust.Lifting.Breakpoints

/-!
# Placing breakpoints

Where to put the breakpoints of all uncertainties at once: at equal distances, at percentiles of
samples, or where the largest sum of magnitudes of few variables bends.
-/

namespace AdjustableRobust

namespace Placement

variable {α : Type} [Scalar α]

/-- Points that cut a range into pieces of equal width. -/
def equidistant (lower upper : α) (pieces : Nat) : List α :=
  let width := upper - lower
  (List.range' 1 (pieces - 1)).map fun (i : Nat) => lower + (i : α) * width / (pieces : α)

/-- Interpolated percentile of sorted samples. -/
def percentile (sorted : List α) (p : α) : α :=
  let last := sorted.length - 1
  let index := p * (last : α)
  let low := Scalar.floor index
  let high := Nat.min (low + 1) last
  let x := sorted[low]?.getD 0
  let y := sorted[high]?.getD 0
  x + (y - x) * (index - (low : α))

/-- Percentiles that cut samples into pieces of equal frequency. -/
def percentiles (samples : List α) (pieces : Nat) : List α :=
  let sorted := samples.mergeSort Scalar.precedes
  (List.range' 1 (pieces - 1)).map fun (i : Nat) => percentile sorted ((i : α) / (pieces : α))

/-- How much the largest sum of magnitudes grows when one more variable may be active than a
share of the variables. -/
def kappaStep (set : UncertaintySet α) (pieces i : Nat) : Except (ModelError α) (α × α) := do
  let k := i * set.numVariables / pieces
  let x ← set.maxOneNorm k
  let y ← set.maxOneNorm (k + 1)
  return (x, y)

/-- Points at the growth of the largest sum of magnitudes, from the largest share of active
variables to the smallest. Symmetric sets get their opposites and zero in front. -/
def kappaInduced (set : UncertaintySet α) (symmetric : Bool) (pieces : Nat) :
    Except (ModelError α) (List α) := do
  let shares := List.range' 1 (pieces - 1)
  let opposites ← if symmetric then do
      let points ← shares.mapM fun i => do
        let (x, y) ← kappaStep set pieces i
        return x - y
      pure (points ++ [0])
    else pure []
  let points ← shares.reverse.mapM fun i => do
    let (x, y) ← kappaStep set pieces i
    return y - x
  return opposites ++ points

end Placement

end AdjustableRobust
