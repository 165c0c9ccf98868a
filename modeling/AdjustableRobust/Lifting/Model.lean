import AdjustableRobust.Lifting.Tightening
import AdjustableRobust.Step

/-!
# Lifted models

The lifted model replaces each uncertainty that has breakpoints by one variable for each piece.
The base uncertainty is recovered as the lower end plus the sum of the pieces; this retraction
is substituted everywhere. Constraints make a piece fill up before the next one, and tighten the
lifted set to what lifted realizations can reach.
-/

namespace AdjustableRobust

/-- Choices in building a lifted model. -/
structure LiftingOptions where
  /-- Whether to add cuts across axes where set and breakpoints allow them. -/
  breakpointTightening : Bool
  /-- Whether box alternatives bound the mass outside of the box instead of clipping pieces. -/
  useOldBoxConstraints : Bool
  deriving DecidableEq, Repr

/-- Cuts across axes, and clipped pieces. -/
def LiftingOptions.standard : LiftingOptions := ⟨true, false⟩

namespace LiftedModel

variable {α : Type} [Scalar α]

/-- The series of each uncertainty, if it has one. No uncertainty may have two. -/
def assignSeries (set : UncertaintySet α) (series : List (BreakpointSeries α)) :
    Except (PolicyError α) (List (Option (BreakpointSeries α))) :=
  series.foldlM (fun table s => do
    let axis ← s.axis
    let v ← PolicyError.fromModel (set.variableAt axis)
    match ← PolicyError.fromStore (axis.lookup table) with
    | some _ => throw (.duplicateBreakpointDirection v.name)
    | none => return table.set axis.slot (some s)) (List.replicate set.numVariables none)

/-- A lifted model under construction: axes and retractions of the uncertainties so far. -/
structure Draft (α : Type) [Scalar α] where
  lifted : RobustModel α
  axes : List (LiftedAxis α)
  retractions : List (AffineExpr α UncertaintyRef)

/-- Lift an uncertainty: one variable for each piece, from zero to the width of the piece. -/
def Draft.addPieces (d : Draft α) (v : UncertaintyVariable α) (s : BreakpointSeries α) :
    Except (ModelError α) (Draft α) := do
  let (lifted, pieces) ← (List.range s.numPieces).foldlM (fun (lifted, pieces) i => do
    let (piece, lifted) ← RobustModel.addUncertainty lifted s!"{v.name}_L{i}" v.period?
      (some 0) (some (s.pieceWidth i))
    return (lifted, pieces ++ [piece])) (d.lifted, [])
  let retraction := pieces.foldl (fun e piece => e.addTerm 1 piece) (AffineExpr.const s.lower)
  return ⟨lifted, d.axes ++ [⟨some s, pieces⟩], d.retractions ++ [retraction]⟩

/-- Copy an uncertainty without breakpoints. -/
def Draft.addCopy (d : Draft α) (v : UncertaintyVariable α) :
    Except (ModelError α) (Draft α) := do
  let (copy, lifted) ← d.lifted.addUncertainty v.name v.period? v.bounds.lower? v.bounds.upper?
  return ⟨lifted, d.axes ++ [⟨none, [copy]⟩], d.retractions ++ [.var copy]⟩

/-- Lift or copy every uncertainty. -/
def liftUncertainties (model : RobustModel α) (series : List (BreakpointSeries α))
    (owner : OwnerId) : Except (PolicyError α) (Draft α) := do
  let table ← assignSeries model.uncertainty series
  let empty : Draft α := ⟨.new s!"{model.name}_lifted" owner, [], []⟩
  PolicyError.fromModel <| (model.uncertainty.vars.items.zip table).foldlM
    (fun d (v, s?) => match s? with
      | some s => d.addPieces v s
      | none => d.addCopy v) empty

/-- Base uncertainties in terms of lifted ones; handles of other models are refused. -/
def retract (model : RobustModel α) (retractions : List (AffineExpr α UncertaintyRef))
    (u : UncertaintyRef) : Except (ModelError α) (AffineExpr α UncertaintyRef) := do
  let _ ← model.uncertainty.variableAt u
  u.lookup retractions

/-- Decisions of the lifted model for those of the base model; handles of other models are
refused. -/
def liftedDecision (model : RobustModel α) (decisions : List DecisionRef) (d : DecisionRef) :
    Except (ModelError α) DecisionRef := do
  let _ ← model.decisionAt d
  d.lookup decisions

/-- Each piece is filled at most to the fraction to which the piece before it is filled. -/
def addFill (lifted : RobustModel α) (set : ConstraintSetRef) (name : String)
    (s : BreakpointSeries α) (axis : LiftedAxis α) : Except (ModelError α) (RobustModel α) :=
  ((axis.vars.zip axis.vars.tail).zipIdx 1).foldlM (fun lifted ((previous, piece), i) =>
    let fill := (AffineExpr.term (1 / s.pieceWidth i) piece).addTerm
      (-1 / s.pieceWidth (i - 1)) previous
    lifted.addUncertaintyConstraintTo set s!"BoundLiftedWithPrevious{name}_{i}"
      (fill.relateValue .leq 0).toConic) lifted

/-- Lift an alternative: fill constraints of all lifted axes, then the base constraints on
the retraction. -/
def addAlternative (model : RobustModel α) (axes : List (LiftedAxis α))
    (retractions : List (AffineExpr α UncertaintyRef)) (lifted : RobustModel α)
    (alternative : ConstraintSet α) (set : ConstraintSetRef) :
    Except (ModelError α) (RobustModel α) := do
  let lifted ← (model.uncertainty.vars.items.zip axes).foldlM (fun lifted (v, axis) =>
    match axis.series? with
    | some s => addFill lifted set v.name s axis
    | none => pure lifted) lifted
  alternative.constraints.foldlM (fun lifted c => do
    let e ← c.expression.substitute (retract model retractions)
    lifted.addUncertaintyConstraintTo set c.name ⟨c.sense, e⟩) lifted

/-- Add the decision that stands for a decision of the base model. With a period it is wired
to the lifted uncertainties; without one its dependencies are lifted one by one. -/
def addDecision (axes : List (LiftedAxis α)) (lifted : RobustModel α) (d : DecisionVariable α) :
    Except (PolicyError α) (DecisionRef × RobustModel α) := do
  match d.period? with
  | some period => PolicyError.fromModel <|
    lifted.addDecision d.name (some period) d.bounds.lower? d.bounds.upper?
  | none =>
    let lists ← d.dependencies.mapM fun u => PolicyError.fromStore (u.lookup axes)
    PolicyError.fromModel <| lifted.addDecisionDependingOn d.name
      (lists.flatMap (·.vars)) d.bounds.lower? d.bounds.upper?

/-- Add all decisions. -/
def addDecisions (model : RobustModel α) (axes : List (LiftedAxis α)) (lifted : RobustModel α) :
    Except (PolicyError α) (List DecisionRef × RobustModel α) :=
  model.decisions.items.foldlM (fun (hs, lifted) d => do
    let (h, lifted) ← addDecision axes lifted d
    return (hs ++ [h], lifted)) ([], lifted)

/-- Substitute the retraction in constraints and objective. -/
def addConstraints (model : RobustModel α) (retractions : List (AffineExpr α UncertaintyRef))
    (decisions : List DecisionRef) (lifted : RobustModel α) :
    Except (ModelError α) (RobustModel α) := do
  let image (e : UncertainExpr α) := e.substitute (liftedDecision model decisions)
    (retract model retractions)
  let lifted ← model.constraints.foldlM (fun (lifted : RobustModel α) c => do
    return lifted.addConstraint c.name ⟨c.sense, ← image c.expression⟩) lifted
  let objective ← model.objective
  return lifted.setObjective (.new objective.sense (← image objective.expression))

/-- Tighten a box alternative along every lifted axis. -/
def tightenBox (model : RobustModel α) (options : LiftingOptions) (axes : List (LiftedAxis α))
    (lifted : RobustModel α) (alternative : ConstraintSet α) (set : ConstraintSetRef) :
    Except (PolicyError α) (RobustModel α) := do
  if !alternative.isBox then return lifted
  let ranges ← PolicyError.fromModel (BoxRange.ofAlternative model.uncertainty alternative)
  let rows := model.uncertainty.vars.items.zip (axes.zip ranges)
  rows.foldlM (fun lifted (v, axis, range) =>
    match axis.series? with
    | none => pure lifted
    | some s => do
      let pieces : BoxPieces α :=
        ⟨set, v.name, s, axis, range.lower?.getD s.lower, range.upper?.getD s.upper⟩
      let constraints ← PolicyError.fromStore <|
        if options.useOldBoxConstraints then pieces.accumulated else pieces.clipped
      constraints.foldlM (fun lifted (name, c) => PolicyError.fromModel <|
        RobustModel.addUncertaintyConstraintTo lifted set name c.toConic) lifted) lifted

/-- Add the cuts across axes, where all axes share their breakpoints and the set is known to stay
the same under permutations. -/
def tightenRotational (model : RobustModel α) (axes : List (LiftedAxis α))
    (lifted : RobustModel α) : Step Diagnostics (PolicyError α) (RobustModel α) := do
  let set := model.uncertainty
  match LiftedAxis.sharedSeries? axes with
  | none => return lifted
  | some series =>
    if !(← Step.ofChange (·.settle set.rotationalInvariance)) then return lifted
    let symmetric ←
      if series.isSymmetric then Step.ofChange (·.settle set.symmetry) else pure false
    let lifted ←
      if symmetric then Step.ofExcept id (RotationalCut.addSymmetric set series axes lifted)
      else pure lifted
    if set.nonNegative then Step.ofExcept id (RotationalCut.addNonNegative set series axes lifted)
    else return lifted

/-- The lifted model before the cuts across axes, with its axes. -/
def buildAxes (model : RobustModel α) (series : List (BreakpointSeries α))
    (options : LiftingOptions) (owner : OwnerId) :
    Except (PolicyError α) (RobustModel α × List (LiftedAxis α)) := do
  let alternatives := model.uncertainty.alternatives.items
  let d ← liftUncertainties model series owner
  let lifted := (alternatives.drop 1).foldl
    (fun (lifted : RobustModel α) _ => lifted.addAlternative.2) d.lifted
  let sets := alternatives.zip lifted.uncertainty.alternatives.handles
  let lifted ← PolicyError.fromModel <| sets.foldlM (fun lifted (alternative, set) =>
    addAlternative model d.axes d.retractions lifted alternative set) lifted
  let (decisions, lifted) ← addDecisions model d.axes lifted
  let lifted ← PolicyError.fromModel (addConstraints model d.retractions decisions lifted)
  let lifted ← sets.foldlM (fun lifted (alternative, set) =>
    tightenBox model options d.axes lifted alternative set) lifted
  return (lifted, d.axes)

/-- The lifted model and the lifting map. Questions about the uncertainty set that stay open
leave warnings. -/
def build (model : RobustModel α) (series : List (BreakpointSeries α)) (options : LiftingOptions)
    (owner : OwnerId) : Step Diagnostics (PolicyError α) (RobustModel α × Lifting α) := do
  let (lifted, axes) ← Step.ofExcept id (buildAxes model series options owner)
  let lifted ←
    if options.breakpointTightening then tightenRotational model axes lifted else pure lifted
  let lifting : Lifting α := ⟨axes⟩
  match model.distribution? with
  | some base => return (lifted.setDistribution (.lifted base lifting), lifting)
  | none => return (lifted, lifting)

end LiftedModel

end AdjustableRobust
