import AdjustableRobust.Conic.Model
import AdjustableRobust.Diagnostics
import AdjustableRobust.Uncertainty.ConstraintSet
import AdjustableRobust.Uncertainty.Variable

/-!
# Uncertainty sets

Uncertainty variables and the alternatives they may realize in. A realization belongs to the set
when it respects the bound of every variable and all constraints of at least one alternative.
-/

namespace AdjustableRobust

/-- Shapes of uncertainty sets with a known structure. -/
inductive SpecialSetType where
  /-- Nothing but bounds, and every variable has both. -/
  | box
  /-- A bound on the Euclidean norm. -/
  | ball
  /-- A bound on the sum of magnitudes. -/
  | budget
  /-- Anything else. -/
  | other
  deriving DecidableEq, Repr

/-- Word for the shape in printed sets. -/
def SpecialSetType.text : SpecialSetType → String
  | .box => "BOX"
  | .ball => "BALL"
  | .budget => "BUDGET"
  | .other => "OTHER"

/-- Variables with alternative regions. -/
structure UncertaintySet (α : Type) [Scalar α] where
  modelName : String
  vars : Store .uncertainty (UncertaintyVariable α)
  alternatives : Store .alternative (ConstraintSet α)

namespace UncertaintySet

variable {α : Type} [Scalar α]

/-- No variables, and a single alternative without constraints. -/
def new (modelName : String) (owner : OwnerId) : UncertaintySet α :=
  ⟨modelName, .new owner, ((Store.new owner).add .empty).2⟩

/-! ## Variables -/

/-- Add a variable. -/
def addVariable (s : UncertaintySet α) (v : UncertaintyVariable α) :
    UncertaintyRef × UncertaintySet α :=
  let (h, vars) := s.vars.add v
  (h, { s with vars })

/-- The variable behind a handle. -/
def variableAt (s : UncertaintySet α) (h : UncertaintyRef) :
    Except (ModelError α) (UncertaintyVariable α) :=
  s.vars.get h

/-- Number of variables. -/
def numVariables (s : UncertaintySet α) : Nat := s.vars.size

/-- Bounds and names of the variables. -/
def scope (s : UncertaintySet α) : Scope α UncertaintyRef where
  bounds h := return (← s.variableAt h).bounds.interval
  label h := return (← s.variableAt h).name

/-- The bounds of all variables. -/
def bounds (s : UncertaintySet α) : List (Bounds α) := s.vars.items.map (·.bounds)

/-! ## Alternatives -/

/-- Add a constraint to an alternative. -/
def addConstraintTo (s : UncertaintySet α) (set : ConstraintSetRef) (name : String)
    (c : RawConstraint (ConicExpr α UncertaintyRef)) :
    Except (ModelError α) (UncertaintySet α) := do
  return { s with alternatives := ← s.alternatives.modify set (·.add name c) }

/-- Add a constraint to the alternative that was added last. -/
def addConstraint (s : UncertaintySet α) (name : String)
    (c : RawConstraint (ConicExpr α UncertaintyRef)) :
    Except (ModelError α) (UncertaintySet α) := do
  s.addConstraintTo (← s.alternatives.handleAt (s.alternatives.size - 1)) name c

/-- Add an alternative without constraints. -/
def addAlternative (s : UncertaintySet α) : ConstraintSetRef × UncertaintySet α :=
  let (h, alternatives) := s.alternatives.add .empty
  (h, { s with alternatives })

/-- The alternative behind a handle. -/
def alternativeAt (s : UncertaintySet α) (h : ConstraintSetRef) :
    Except (ModelError α) (ConstraintSet α) :=
  s.alternatives.get h

/-- Drop all constraints and go back to a single alternative. -/
def clearConstraints (s : UncertaintySet α) : UncertaintySet α :=
  { s with alternatives := (s.alternatives.clear.add .empty).2 }

/-- The alternative, if it is the only one. -/
def single (s : UncertaintySet α) : Except (ModelError α) (ConstraintSet α) :=
  match s.alternatives.items with
  | [set] => .ok set
  | sets => .error (.multipleConstraintSets sets.length)

/-- Bound the norm that defines a ball or a budget set. -/
def addSpecialConstraint (s : UncertaintySet α) (type : SpecialSetType) (budget : α) :
    Except (ModelError α) (UncertaintySet α) :=
  let add (norm : NormKind) (name : String) :=
    s.addConstraint name ((ConicExpr.normOf norm s.vars.handles).relateValue .leq budget)
  match type with
  | .ball => add .two "BallConstraint"
  | .budget => add .one "BudgetConstraint"
  | .box | .other => .error (.noSpecialConstraint type.text)

/-! ## Shape -/

/-- Whether every variable has two finite bounds. -/
def allBounded (s : UncertaintySet α) : Bool := s.bounds.all (·.isBounded)

/-- Whether every variable ranges over exactly `[0, 1]`. -/
def allZeroOne (s : UncertaintySet α) : Bool := s.bounds.all (·.isZeroOne)

/-- Whether no variable can be negative. -/
def nonNegative (s : UncertaintySet α) : Bool := s.bounds.all (·.isNonNegative)

/-- Whether all variables have the same bounds. -/
def equalBounds (s : UncertaintySet α) : Bool :=
  match s.bounds with
  | [] => true
  | first :: bs => (first :: bs).all fun b => b.same first

/-- The norm and the radius, if the set has a single alternative that bounds a norm of all
variables. -/
def normBall? (s : UncertaintySet α) : Option (NormKind × α) :=
  match s.single with
  | .ok set => set.normBall? s.vars.handles
  | .error _ => none

/-- Shape of the set, read off its constraints. -/
def specialType (s : UncertaintySet α) : SpecialSetType :=
  match s.single with
  | .error _ => .other
  | .ok set =>
    if set.isEmpty && s.allBounded then .box
    else match set.normBall? s.vars.handles with
      | some (.two, _) => .ball
      | some (.one, _) => .budget
      | _ => .other

/-- Radius of a norm ball. -/
def budget (s : UncertaintySet α) : Except (ModelError α) α := do
  match (← s.single).normBall? s.vars.handles with
  | some (_, radius) => return radius
  | none => throw (.unsupportedSetShape "a budget only exists for norm balls")

/-- Whether the set stays the same when its variables are permuted. -/
def rotationalInvariance (s : UncertaintySet α) : Verdict :=
  if s.specialType = .other then
    .undecided "Rotational invariance is only checked for special sets"
  else .decided s.equalBounds

/-- Whether the set stays the same when all signs are turned. -/
def symmetry (s : UncertaintySet α) : Verdict :=
  if s.specialType = .other then .undecided "Symmetry is only checked for special sets"
  else .decided (s.bounds.all (·.isSymmetric))

/-- The smaller of a bound and a cap, when there is a bound. Without a bound an undefined cap
leaves everything open. -/
def capped (cap : α) : Option α → α
  | some x => Scalar.min x cap
  | none => if Scalar.isDefined cap then cap else 1 / 0

/-- Largest sum of magnitudes of `k` variables, when bounds and shape allow to tell. -/
def maxOneNorm (s : UncertaintySet α) (k : Nat) : Except (ModelError α) α := do
  if k = 0 then return 0
  let n := s.numVariables
  if n < k then throw (.tooManyActive k n)
  let type := s.specialType
  if type = .other || !s.equalBounds then
    throw (.unsupportedSetShape "k active bounds need a rotationally invariant special set")
  let first ← s.variableAt (← s.vars.handleAt 0)
  let boxBound? : Option α :=
    match first.bounds.lower?, first.bounds.upper? with
    | some l, some u => some ((k : α) * Scalar.max (-l) u)
    | _, _ => none
  match type with
  | .box => match boxBound? with
    | some x => return x
    | none => throw (.unsupportedSetShape type.text)
  | .budget => return capped (← s.budget) boxBound?
  | .ball => return capped (Scalar.sqrt (k : α) * (← s.budget)) boxBound?
  | .other => throw (.unsupportedSetShape type.text)

/-! ## Membership -/

/-- Whether one of the alternatives is satisfied. Alternatives after the first one that is are
not looked at. -/
def someSatisfied (a : Assignment α UncertaintyRef) (tolerance : α) :
    List (ConstraintSet α) → Except (ModelError α) Bool
  | [] => .ok false
  | set :: sets => do
    if ← set.satisfied a tolerance then return true else someSatisfied a tolerance sets

/-- Whether every variable respects its bounds up to a tolerance. -/
def boundsRespected (a : Assignment α UncertaintyRef) (tolerance : α) :
    List (UncertaintyRef × UncertaintyVariable α) → Except (ModelError α) Bool
  | [] => .ok true
  | (h, v) :: vs => do
    if v.bounds.violated tolerance (← a h) then return false
    else boundsRespected a tolerance vs

/-- Whether a realization belongs to the set, up to a tolerance. -/
def contains (s : UncertaintySet α) (a : Assignment α UncertaintyRef) (tolerance : α) :
    Except (ModelError α) Bool := do
  if ← boundsRespected a tolerance s.vars.entries then
    someSatisfied a tolerance s.alternatives.items
  else return false

/-! ## Conversion -/

/-- The only alternative as a conic model: its variables are the uncertainties, in order. -/
def toConicModel (s : UncertaintySet α) (owner : OwnerId) :
    Except (ModelError α) (ConicModel α) := do
  let set ← s.single
  let empty : ConicModel α := .new s!"Uncertainty{s.modelName}" owner
  let model := s.vars.items.foldl (fun m v => (m.addVariable v.name v.bounds).2) empty
  let handles := model.vars.handles
  set.constraints.foldlM (fun m c => do
    let e ← c.expression.rename fun u => do
      let _ ← s.variableAt u
      u.lookup handles
    return m.addConstraint c.name ⟨c.sense, e⟩) model

/-- The printed set: its shape, the constraints unless the shape says them, and the bounds. -/
def text [ScalarText α] (s : UncertaintySet α) : Except (ModelError α) String := do
  let type := s.specialType
  let many : Bool := 1 < s.alternatives.size
  let sets ← if type = .other then
      s.alternatives.items.zipIdx.mapM fun (set, i) => do
        let lines ← set.constraints.mapM fun c => return "\n" ++ (← c.text s.scope)
        return (if many then s!"\nConstraint set {i}" else "") ++ String.join lines
    else pure []
  let vars := s.vars.items.map fun v => boundsLine v.name v.period? v.bounds
  return s!"Uncertainty Set of {s.modelName}\n{type.text}" ++ String.join (sets ++ vars)

end UncertaintySet

end AdjustableRobust
