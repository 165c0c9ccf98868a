import AdjustableRobust.Step
import AdjustableRobust.Uncertainty.Set

/-!
# Sampling

Random realizations of ball and budget sets, from any source of random draws. Candidates that
violate a variable bound are drawn again, a limited number of times.
-/

namespace AdjustableRobust

/-- A source of random draws with states `γ`. -/
structure RandomSource (α γ : Type) where
  normal : γ → α × γ
  /-- A draw that is uniform on `[0, 1)`. -/
  uniform : γ → α × γ
  /-- An exponential draw with mean one. -/
  exponential : γ → α × γ
  coin : γ → Bool × γ

namespace RandomSource

/-- Repeat a draw. -/
def repeated {β γ : Type} (draw : γ → β × γ) : Nat → γ → List β × γ
  | 0, g => ([], g)
  | n + 1, g =>
    let (x, g) := draw g
    let (xs, g) := repeated draw n g
    (x :: xs, g)

end RandomSource

namespace UncertaintySet

variable {α γ : Type} [Scalar α]

/-- A point of the Euclidean ball: a normal direction, at a radius whose `n`-th power is
uniform. -/
def sampleBall (r : RandomSource α γ) (n : Nat) (budget : α) (nonNegative : Bool) (g : γ) :
    List α × γ :=
  let draw (g : γ) :=
    let (x, g) := r.normal g
    (if nonNegative then Scalar.abs x else x, g)
  let (xs, g) := RandomSource.repeated draw n g
  let norm := NormKind.two.apply xs
  let (u, g) := r.uniform g
  let radius := Scalar.root n u * budget
  let scale := if 0 < norm then radius / norm else 0
  (xs.map (· * scale), g)

/-- A point of the budget set: exponential magnitudes with random signs, scaled by their sum. One
more draw goes into the sum, so the point falls inside of the set and not on its surface. -/
def sampleBudget (r : RandomSource α γ) (n : Nat) (budget : α) (nonNegative : Bool) (g : γ) :
    List α × γ :=
  let draw (g : γ) :=
    let (x, g) := r.exponential g
    if nonNegative then ((x, x), g)
    else
      let (heads, g) := r.coin g
      ((x, (if heads then 1 else -1) * x), g)
  let (extra, g) := r.exponential g
  let (xs, g) := RandomSource.repeated draw n g
  let oneNorm := (xs.map (·.1)).foldl (· + ·) extra
  let scale := budget / oneNorm
  (xs.map (·.2 * scale), g)

/-- Whether values lie between the variable bounds. -/
def withinBounds (s : UncertaintySet α) (xs : List α) : Bool :=
  (s.bounds.zip xs).all fun (b, x) => b.admits x

/-- Candidates per realization before sampling gives up. -/
def maxSampleAttempts : Nat := 10000

/-- Draw candidates until one lies between the variable bounds. -/
def sampleWithin (s : UncertaintySet α) (candidate : γ → List α × γ) :
    Nat → Step γ (ModelError α) (List α)
  | 0 => throw .invalidSample
  | attempts + 1 => do
    let xs ← modifyGet candidate
    if s.withinBounds xs then return xs else sampleWithin s candidate attempts

/-- Draw realizations of a ball or a budget set. -/
def sample (s : UncertaintySet α) (r : RandomSource α γ) (count : Nat) :
    Step γ (ModelError α) (List (List α)) := do
  let type := s.specialType
  let draw ← match type with
    | .ball => pure (sampleBall r)
    | .budget => pure (sampleBudget r)
    | .box | .other => throw (.unsupportedSetShape
        s!"sampling is only implemented for BALL and BUDGET sets, not {type.text}")
  if !s.allBounded then throw .unboundedSampling
  let budget ← Step.ofExcept id s.budget
  let candidate := draw s.numVariables budget s.nonNegative
  (List.replicate count ()).mapM fun _ => s.sampleWithin candidate maxSampleAttempts

end UncertaintySet

end AdjustableRobust
