import AdjustableRobust.Uncertainty.Sampling

/-!
# A pseudo random generator

A counter in steps of an odd constant, whose bits are mixed by multiplications and shifts. It is
the source of draws for sampling when any generator will do.
-/

namespace AdjustableRobust

/-- State of the generator. -/
structure MixedCounter where
  counter : UInt64

namespace MixedCounter

/-- The generator that starts from a seed. -/
def seeded (seed : Nat) : MixedCounter := ⟨UInt64.ofNat seed⟩

/-- The next 64 bits. -/
def next (g : MixedCounter) : UInt64 × MixedCounter :=
  let counter := g.counter + 0x9E3779B97F4A7C15
  let z := (counter ^^^ (counter >>> 30)) * 0xBF58476D1CE4E5B9
  let z := (z ^^^ (z >>> 27)) * 0x94D049BB133111EB
  (z ^^^ (z >>> 31), ⟨counter⟩)

/-- A double that is uniform on `[0, 1)`: the upper 53 bits as a fraction. -/
def uniform (g : MixedCounter) : Float × MixedCounter :=
  let (bits, g) := g.next
  ((bits >>> 11).toNat.toFloat / (Nat.pow 2 53).toFloat, g)

/-- Exponential draw by inversion. -/
def exponential (g : MixedCounter) : Float × MixedCounter :=
  let (u, g) := g.uniform
  (-Float.log (1 - u), g)

/-- Normal draw: a coordinate of a plane vector with a uniform angle, whose squared length is
exponential with mean two. -/
def normal (g : MixedCounter) : Float × MixedCounter :=
  let (e, g) := g.exponential
  let (u, g) := g.uniform
  (Float.sqrt (2 * e) * Float.cos (2 * Float.acos (-1) * u), g)

/-- A fair coin. -/
def coin (g : MixedCounter) : Bool × MixedCounter :=
  let (bits, g) := g.next
  (bits >>> 63 == 1, g)

/-- The generator as a source of draws. -/
def source : RandomSource Float MixedCounter where
  normal := normal
  uniform := uniform
  exponential := exponential
  coin := coin

end MixedCounter

end AdjustableRobust
