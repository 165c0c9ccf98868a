import AdjustableRobust.Solver.InteriorPoint.Vector

/-!
# Second order cones

The product of second order cones with its algebra: a product of vectors whose unit is the axis of
each cone, division by interior points, and scalings under which two interior points have the same
image. The half line of nonnegative numbers is the cone of dimension one.
-/

namespace AdjustableRobust

/-- The coordinates of a cone in a vector. -/
structure ConeBlock where
  /-- First coordinate, that of the axis. -/
  start : Nat
  dimension : Nat

namespace ConeBlock

variable (b : ConeBlock)

/-- Coordinate on the axis. -/
@[inline] def axis (v : Vec) : Float := v.coord b.start

/-- Number of coordinates off the axis. -/
@[inline] def offAxis : Nat := b.dimension - 1

/-- A coordinate off the axis. -/
@[inline] def tail (v : Vec) (i : Nat) : Float := v.coord (b.start + 1 + i)

/-- Inner product off the axis. -/
def tailDot (v w : Vec) : Float := Vec.sumTo b.offAxis fun i => b.tail v i * b.tail w i

/-- The quadratic form that is positive inside of the cone. -/
def determinant (v : Vec) : Float := b.axis v * b.axis v - b.tailDot v v

/-- Root of a determinant; zero outside of the cone. -/
def rootOf (determinant : Float) : Float := if 0 < determinant then determinant.sqrt else 0

/-- Root of the determinant; on the half line the number itself. -/
def depth (v : Vec) : Float :=
  if b.dimension == 1 then b.axis v else rootOf (b.determinant v)

/-- How far the axis coordinate exceeds the rest. -/
def margin (v : Vec) : Float := b.axis v - (b.tailDot v v).sqrt

/-- Append the coordinates of the cone to a vector. -/
@[inline] def push (out : Vec) (first : Float) (rest : Nat → Float) : Vec :=
  b.offAxis.fold (fun i _ out => out.push (rest i)) (out.push first)

/-- The least positive root of `a t² + b t + c`, for `c` positive, up to a limit. The root is
computed in the way that does not cancel. -/
def firstRoot (limit a b c : Float) : Float :=
  let d := b * b - 4 * a * c
  if (0 < a && 0 < b) || d < 0 then limit
  else if a == 0 then limit
  else if c == 0 then (if 0 ≤ a then limit else 0)
  else
    let t := if 0 ≤ b then -b - d.sqrt else -b + d.sqrt
    let cut (limit root : Float) : Float := if 0 ≤ root && root < limit then root else limit
    cut (cut limit (2 * c / t)) (t / (2 * a))

/-- The largest step from an interior point along a direction that stays inside of the cone, up to
a limit. -/
def maxStep (v d : Vec) (limit : Float) : Float :=
  if b.dimension == 1 then
    if b.axis d < 0 then
      let step := -(b.axis v) / b.axis d
      if step < limit then step else limit
    else limit
  else
    let c := b.determinant v
    firstRoot limit (b.determinant d) (2 * (b.axis v * b.axis d - b.tailDot v d))
      (if 0 < c then c else 0)

end ConeBlock

/-- A product of cones. -/
structure ConeProduct where
  blocks : Array ConeBlock
  size : Nat

namespace ConeProduct

variable (K : ConeProduct)

/-- Build a vector cone by cone. -/
@[inline] def build (f : ConeBlock → Vec → Vec) : Vec :=
  K.blocks.foldl (fun out b => f b out) (FloatArray.emptyWithCapacity K.size)

/-- The vector with equal coordinates in each cone. -/
def uniform (f : ConeBlock → Float) : Vec :=
  K.build fun b out => let x := f b; b.push out x fun _ => x

/-- Number of cones. -/
def degree : Nat := K.blocks.size

/-- Add to the axis coordinate of each cone. -/
def shift (v : Vec) (x : Float) : Vec := K.build fun b out => b.push out (b.axis v + x) (b.tail v)

/-- Shift a vector far enough into the cones for a first iterate. -/
def shiftInside (v : Vec) : Vec :=
  let (least, total) := K.blocks.foldl (fun ((least, total) : Float × Float) b =>
    let m := b.margin v
    (if m < least then m else least, if 0 < m then total + m else total)) (1 / 0, 0)
  let mean := 0.1 * total / K.degree.toFloat
  let target := if 1 < mean then mean else 1
  -- in two stages, so that a large shift does not cancel against it
  if least ≤ 0 then K.shift (K.shift v (-least)) target
  else if least < target then K.shift v (target - least)
  else v

/-- Product of two vectors. -/
def product (v w : Vec) : Vec := K.build fun b out =>
  b.push out (b.axis v * b.axis w + b.tailDot v w) fun i =>
    b.axis v * b.tail w i + b.axis w * b.tail v i

/-- The vector whose product with an interior point is the given vector. -/
def divide (v w : Vec) : Vec := K.build fun b out =>
  if b.dimension == 1 then out.push (b.axis w / b.axis v)
  else
    let first := (b.axis v * b.axis w - b.tailDot v w) / b.determinant v
    b.push out first fun i => (b.tail w i - first * b.tail v i) / b.axis v

/-- The largest step from an interior point along a direction, up to the given one. -/
def maxStep (v d : Vec) (limit : Float) : Float :=
  K.blocks.foldl (fun limit b => b.maxStep v d limit) limit

/-- A linear map that keeps the cones: on each cone a stretched reflection of the cone. -/
structure Scaling where
  /-- Stretch of each cone. -/
  stretch : Vec
  /-- The reflected axes; each has determinant one. -/
  reflector : Vec
  /-- Common image of the two points that the scaling was made for. -/
  image : Vec

/-- The scaling that changes nothing. -/
def identity : Scaling :=
  let unit := K.shift (Vec.zeros K.size) 1
  ⟨Vec.constant K.degree 1, unit, unit⟩

/-- Add a cone to the scaling of two interior points. -/
def addScaling (s z : Vec) (W : Scaling) (b : ConeBlock) : Option Scaling :=
  let p := b.depth s
  let q := b.depth z
  if b.dimension == 1 then
    some ⟨W.stretch.push (p / q).sqrt, W.reflector.push 1, W.image.push (p * q).sqrt⟩
  else if p == 0 || q == 0 then none
  else
    let sum := b.axis s / p + b.axis z / q
    let rest (i : Nat) : Float := b.tail s i / p - b.tail z i / q
    let size := ConeBlock.rootOf (sum * sum - Vec.sumTo b.offAxis fun i => rest i * rest i)
    if size == 0 then none
    else
      let tail (i : Nat) : Float := rest i / size
      let axis := (1 + Vec.sumTo b.offAxis fun i => tail i * tail i).sqrt
      let half := size / 2
      let c := (half + b.axis z / q) / p
      let d := (half + b.axis s / p) / q
      let root := (p * q).sqrt
      some ⟨W.stretch.push (p / q).sqrt, b.push W.reflector axis tail,
        b.push W.image (root * half) fun i =>
          root * ((c * b.tail s i + d * b.tail z i) / (sum + size))⟩

/-- The scaling under which two interior points have the same image, the first one by its inverse
and the second one by itself. There is none when one of them is not inside. -/
def scaling? (s z : Vec) : Option Scaling :=
  K.blocks.foldlM (fun W b => addScaling s z W b)
    ⟨FloatArray.emptyWithCapacity K.degree, FloatArray.emptyWithCapacity K.size,
      FloatArray.emptyWithCapacity K.size⟩

variable (W : Scaling)

/-- Build a vector cone by cone, with the stretch of each cone. -/
@[inline] def buildScaled (f : ConeBlock → Float → Vec → Vec) : Vec :=
  K.blocks.size.fold (fun i h out => f K.blocks[i] (W.stretch.coord i) out)
    (FloatArray.emptyWithCapacity K.size)

/-- Apply a scaling. -/
def scale (v : Vec) : Vec := K.buildScaled W fun b stretch out =>
  let w := W.reflector
  let inner := b.tailDot w v
  let factor := b.axis v + inner / (1 + b.axis w)
  b.push out (stretch * (b.axis w * b.axis v + inner)) fun i =>
    stretch * (b.tail v i + factor * b.tail w i)

/-- Apply the inverse of a scaling. -/
def unscale (v : Vec) : Vec := K.buildScaled W fun b stretch out =>
  let w := W.reflector
  let inner := b.tailDot w v
  let factor := inner / (1 + b.axis w) - b.axis v
  b.push out ((b.axis w * b.axis v - inner) / stretch) fun i =>
    (b.tail v i + factor * b.tail w i) / stretch

/-- Apply a scaling twice. -/
def scaleTwice (v : Vec) : Vec := K.buildScaled W fun b stretch out =>
  if b.dimension == 1 then out.push (stretch * (stretch * b.axis v))
  else
    let w := W.reflector
    let inner := 2 * (b.axis w * b.axis v + b.tailDot w v)
    let square := stretch * stretch
    b.push out (square * (inner * b.axis w - b.axis v)) fun i =>
      square * (b.tail v i + inner * b.tail w i)

end ConeProduct

end AdjustableRobust
