/-!
# Dense vectors

Packed lists of doubles for numerical work. A coordinate beyond the end counts as zero.
-/

namespace AdjustableRobust

/-- A packed list of doubles. -/
abbrev Vec := FloatArray

namespace Vec

/-- A coordinate. -/
@[inline] def coord (v : Vec) (i : Nat) : Float := if h : i < v.size then v.get i h else 0

/-- The vector with the given coordinates. -/
@[inline] def tabulate (n : Nat) (f : Nat → Float) : Vec :=
  n.fold (fun i _ v => v.push (f i)) (FloatArray.emptyWithCapacity n)

/-- A sum over positions below `n`. -/
@[inline] def sumTo (n : Nat) (f : Nat → Float) : Float := n.fold (fun i _ total => total + f i) 0

/-- The vector with equal coordinates. -/
def constant (n : Nat) (x : Float) : Vec := tabulate n fun _ => x

/-- The zero vector. -/
def zeros (n : Nat) : Vec := constant n 0

/-- The vector of a list. -/
def ofList (xs : List Float) : Vec := xs.foldl FloatArray.push FloatArray.empty

/-- The coordinates in order. -/
def toList (v : Vec) : List Float := (List.range v.size).map v.coord

/-- Apply a function to each coordinate. -/
@[inline] def map (f : Float → Float) (v : Vec) : Vec := tabulate v.size fun i => f (v.coord i)

/-- Sum of two vectors, the second one scaled. -/
def addScaled (v : Vec) (scale : Float) (w : Vec) : Vec :=
  tabulate v.size fun i => v.coord i + scale * w.coord i

/-- A multiple of a vector. -/
def scale (v : Vec) (factor : Float) : Vec := v.map (· * factor)

/-- Products of the coordinates of two vectors. -/
def weighted (v w : Vec) : Vec := tabulate v.size fun i => v.coord i * w.coord i

/-- Inner product. -/
def dot (v w : Vec) : Float := sumTo v.size fun i => v.coord i * w.coord i

/-- The larger of two magnitudes; not defined if one of them is not. -/
@[inline] def larger (a b : Float) : Float := if b ≤ a || a.isNaN then a else b

/-- Largest magnitude of a coordinate; not defined if a coordinate is not. -/
def largest (v : Vec) : Float := v.size.fold (fun i _ m => larger m (v.coord i).abs) 0

/-- The coordinates of the first vector; where they are zero, those of the second one. -/
def orElse (v w : Vec) : Vec :=
  tabulate v.size fun i => if v.coord i == 0 then w.coord i else v.coord i

/-- Add to a coordinate. -/
@[inline] def bump (v : Vec) (i : Nat) (x : Float) : Vec := v.set! i (v.coord i + x)

end Vec

end AdjustableRobust
