import AdjustableRobust.Proofs.Lifting.Checks
import AdjustableRobust.Proofs.Robust.Edits

/-!
# Lifting without faults

Lifting a model with all its divisions, positions, entries and bounds checked. For breakpoints that
are accepted, whatever the options, the checked lifting has the results and failures of the one that
it checks: it divides by nothing that is zero, finds every entry that it asks for, and adds no
variable with its lower bound above its upper bound.
-/

namespace AdjustableRobust

namespace CheckedLifting

open Checked (Agrees plain entry inOrder lookUps)
open LiftedModel (Draft)

/-! ## Uncertainties -/

/-- Add an uncertainty, with its bounds in order. -/
noncomputable def addUncertainty (m : RobustModel ℝ) (name : String) (period? : Option ℕ)
    (lower? upper? : Option ℝ) : Checked (ModelError ℝ) (UncertaintyRef × RobustModel ℝ) := do
  inOrder lower? upper?
  plain (m.addUncertainty name period? lower? upper?)

/-- The series of each uncertainty, if it has one. No uncertainty may have two. -/
noncomputable def assignSeries (set : UncertaintySet ℝ) (series : List (BreakpointSeries ℝ)) :
    Checked (PolicyError ℝ) (List (Option (BreakpointSeries ℝ))) :=
  series.foldlM (fun table s => do
    let axis ← plain s.axis
    let v ← plain (PolicyError.fromModel (set.variableAt axis))
    match ← entry table axis.slot with
    | some _ => throw (.failed (.duplicateBreakpointDirection v.name))
    | none => return table.set axis.slot (some s)) (List.replicate set.numVariables none)

/-- Lift an uncertainty: one variable for each piece, from zero to the width of the piece. -/
noncomputable def addPieces (d : Draft ℝ) (v : UncertaintyVariable ℝ) (s : BreakpointSeries ℝ) :
    Checked (ModelError ℝ) (Draft ℝ) := do
  let (lifted, pieces) ← (List.range s.numPieces).foldlM (fun (lifted, pieces) i => do
    let (piece, lifted) ← addUncertainty lifted s!"{v.name}_L{i}" v.period?
      (some 0) (some (s.pieceWidth i))
    return (lifted, pieces ++ [piece])) (d.lifted, [])
  let retraction := pieces.foldl (fun e piece => e.addTerm 1 piece) (AffineExpr.const s.lower)
  return ⟨lifted, d.axes ++ [⟨some s, pieces⟩], d.retractions ++ [retraction]⟩

/-- Copy an uncertainty without breakpoints. -/
noncomputable def addCopy (d : Draft ℝ) (v : UncertaintyVariable ℝ) :
    Checked (ModelError ℝ) (Draft ℝ) := do
  let (copy, lifted) ← addUncertainty d.lifted v.name v.period? v.bounds.lower? v.bounds.upper?
  return ⟨lifted, d.axes ++ [⟨none, [copy]⟩], d.retractions ++ [.var copy]⟩

/-- Lift or copy every uncertainty. -/
noncomputable def liftUncertainties (model : RobustModel ℝ) (series : List (BreakpointSeries ℝ))
    (owner : OwnerId) : Checked (PolicyError ℝ) (Draft ℝ) := do
  let table ← assignSeries model.uncertainty series
  let empty : Draft ℝ := ⟨.new s!"{model.name}_lifted" owner, [], []⟩
  Checked.relabel .model <| (model.uncertainty.vars.items.zip table).foldlM
    (fun d (v, s?) => match s? with
      | some s => addPieces d v s
      | none => addCopy d v) empty

private theorem agrees_addUncertainty {lower? upper? : Option ℝ}
    (h : ∀ l u, lower? = some l → upper? = some u → l ≤ u) (m : RobustModel ℝ) (name : String)
    (period? : Option ℕ) : Agrees (addUncertainty m name period? lower? upper?)
      (m.addUncertainty name period? lower? upper?) :=
  .bind_ok (Checked.inOrder_of_le h) .plain

private theorem agrees_assignSeries (set : UncertaintySet ℝ) (series : List (BreakpointSeries ℝ)) :
    Agrees (assignSeries set series) (LiftedModel.assignSeries set series) := by
  refine Agrees.foldlM_invariant
    (I := fun table : List (Option (BreakpointSeries ℝ)) => table.length = set.numVariables)
    (fun table s _ table' hlength hstep => ?_) (fun table hlength s _ => ?_)
    List.length_replicate
  · obtain ⟨u, -, hstep⟩ := bind_eq_ok_iff.1 hstep
    obtain ⟨v, -, hstep⟩ := bind_eq_ok_iff.1 hstep
    obtain ⟨s?, -, hstep⟩ := bind_eq_ok_iff.1 hstep
    cases s? with
    | some _ => exact absurd hstep throw_ne_ok
    | none =>
      obtain rfl := pure_eq_ok_iff.1 hstep
      exact List.length_set.trans hlength
  · refine Agrees.plain.bind fun u _ => Agrees.plain.bind fun v hv => ?_
    have hslot := UncertaintySet.slot_lt_of_variableAt (mapError_eq_ok_iff.1 hv)
    refine (Agrees.lookup (hlength ▸ hslot) PolicyError.store).bind fun s? _ => ?_
    cases s? with
    | some _ => exact .throw
    | none => exact .pure

private theorem agrees_addPieces {s : BreakpointSeries ℝ} (hs : s.Ordered) (d : Draft ℝ)
    (v : UncertaintyVariable ℝ) : Agrees (addPieces d v s) (d.addPieces v s) := by
  refine Agrees.bind (Agrees.foldlM ?_) fun _ _ => .pure
  rintro ⟨lifted, pieces⟩ i -
  refine (agrees_addUncertainty ?_ _ _ _).bind fun _ _ => .pure
  rintro _ _ ⟨⟩ ⟨⟩
  exact hs.pieceWidth_nonneg i

private theorem agrees_addCopy (d : Draft ℝ) (v : UncertaintyVariable ℝ) :
    Agrees (addCopy d v) (d.addCopy v) :=
  (agrees_addUncertainty (fun l u hl hu => not_lt.1 (v.bounds.ordered l u hl hu)) _ _ _).bind
    fun _ _ => .pure

variable {model : RobustModel ℝ} {series : List (BreakpointSeries ℝ)}

private theorem agrees_liftUncertainties (hseries : ∀ s ∈ series, s.IsOver model.uncertainty)
    (owner : OwnerId) : Agrees (liftUncertainties model series owner)
      (LiftedModel.liftUncertainties model series owner) := by
  refine (agrees_assignSeries _ _).bind fun table htable => Agrees.relabel PolicyError.model ?_
  refine Agrees.foldlM ?_
  rintro d ⟨v, s?⟩ hrow
  cases s? with
  | none => exact agrees_addCopy d v
  | some s =>
    obtain ⟨i, hi⟩ := List.mem_iff_getElem?.1 (List.of_mem_zip hrow).2
    obtain ⟨hs, u, w, hu, -, hw⟩ := (LiftedModel.assignSeries_eq_ok htable).2 i s hi
    exact agrees_addPieces ((hseries s hs).along_axis hu hw).1 d v

/-! ## Alternatives -/

/-- Lift an alternative: fill constraints of all lifted axes, then the base constraints on
the retraction. -/
noncomputable def addAlternative (model : RobustModel ℝ) (axes : List (LiftedAxis ℝ))
    (retractions : List (AffineExpr ℝ UncertaintyRef)) (lifted : RobustModel ℝ)
    (alternative : ConstraintSet ℝ) (set : ConstraintSetRef) :
    Checked (ModelError ℝ) (RobustModel ℝ) := do
  let lifted ← (model.uncertainty.vars.items.zip axes).foldlM (fun lifted (v, axis) =>
    match axis.series? with
    | some s => addFill lifted set v.name s axis
    | none => pure lifted) lifted
  alternative.constraints.foldlM (fun lifted c => do
    lookUps model.uncertainty.vars retractions c.expression.vars
    let e ← plain (c.expression.substitute (LiftedModel.retract model retractions))
    plain (lifted.addUncertaintyConstraintTo set c.name ⟨c.sense, e⟩)) lifted

section

variable {axes : List (LiftedAxis ℝ)} {retractions : List (AffineExpr ℝ UncertaintyRef)}

private theorem agrees_addAlternative (haxes : (⟨axes⟩ : Lifting ℝ).IsOver model.uncertainty)
    (hretractions : retractions.length = model.uncertainty.vars.size) (lifted : RobustModel ℝ)
    (alternative : ConstraintSet ℝ) (set : ConstraintSetRef) :
    Agrees (addAlternative model axes retractions lifted alternative set)
      (LiftedModel.addAlternative model axes retractions lifted alternative set) := by
  refine Agrees.bind (Agrees.foldlM ?_) fun lifted _ => Agrees.foldlM fun lifted c _ => ?_
  · rintro lifted ⟨v, axis⟩ hrow
    have haxis : axis.Represents v := List.forall₂_zip haxes.represents hrow
    cases hs : axis.series? with
    | none =>
      simp only [hs]
      exact .pure
    | some s =>
      simp only [hs]
      exact agrees_addFill (haxis.hasPieces hs) _ _ _
  · exact .bind_ok (Checked.lookUps_of_length hretractions _) <|
      Agrees.plain.bind fun _ _ => .plain

end

/-- Tighten a box alternative along every lifted axis. -/
noncomputable def tightenBox (model : RobustModel ℝ) (options : LiftingOptions)
    (axes : List (LiftedAxis ℝ)) (lifted : RobustModel ℝ) (alternative : ConstraintSet ℝ)
    (set : ConstraintSetRef) : Checked (PolicyError ℝ) (RobustModel ℝ) := do
  if !alternative.isBox then return lifted
  let ranges ← Checked.relabel .model (ofAlternative model.uncertainty alternative)
  let rows := model.uncertainty.vars.items.zip (axes.zip ranges)
  rows.foldlM (fun lifted (v, axis, range) =>
    match axis.series? with
    | none => pure lifted
    | some s => do
      let pieces : BoxPieces ℝ :=
        ⟨set, v.name, s, axis, range.lower?.getD s.lower, range.upper?.getD s.upper⟩
      let constraints ← Checked.relabel .store <|
        if options.useOldBoxConstraints then accumulated pieces else clipped pieces
      constraints.foldlM (fun lifted (name, c) => plain <| PolicyError.fromModel <|
        RobustModel.addUncertaintyConstraintTo lifted set name c.toConic) lifted) lifted

private theorem agrees_tightenBox {axes : List (LiftedAxis ℝ)}
    (haxes : (⟨axes⟩ : Lifting ℝ).IsOver model.uncertainty) (options : LiftingOptions)
    (lifted : RobustModel ℝ) (alternative : ConstraintSet ℝ) (set : ConstraintSetRef) :
    Agrees (tightenBox model options axes lifted alternative set)
      (LiftedModel.tightenBox model options axes lifted alternative set) := by
  rw [tightenBox, LiftedModel.tightenBox]
  cases hbox : alternative.isBox with
  | false => exact .pure
  | true =>
    simp only [Bool.not_true, Bool.false_eq_true, if_false]
    refine (Agrees.relabel _ (agrees_ofAlternative _ _)).bind fun ranges hranges =>
      Agrees.foldlM ?_
    rw [mapError_eq_ok_iff] at hranges
    rintro lifted ⟨v, axis, range⟩ hrow
    obtain ⟨i, hi⟩ := List.mem_iff_getElem?.1 hrow
    obtain ⟨hv, hi⟩ := List.getElem?_zip_eq_some.1 hi
    obtain ⟨haxis, hrange⟩ := List.getElem?_zip_eq_some.1 hi
    have hrepresents : axis.Represents v := List.forall₂_zip haxes.represents
      (List.mem_iff_getElem?.2 ⟨i, List.getElem?_zip_eq_some.2 ⟨hv, haxis⟩⟩)
    cases hs : axis.series? with
    | none => exact .pure
    | some s =>
      obtain ⟨-, -, hbound⟩ := hrepresents.pieces s hs
      obtain ⟨u, hu, hle⟩ := BoxRange.endsBy_of_ofAlternative hranges hv hbound hrange
      have hupper : range.upper?.getD s.upper ≤ s.upper := by rwa [hu, Option.getD_some]
      refine (Agrees.relabel _ ?_).bind fun _ _ => Agrees.foldlM fun _ _ _ => .plain
      split
      · exact agrees_accumulated (hrepresents.hasPieces hs)
      · exact agrees_clipped (hrepresents.hasPieces hs) hupper

/-! ## Decisions, constraints and objective -/

/-- Add the decision that stands for a decision of the base model. With a period it is wired
to the lifted uncertainties; without one its dependencies are lifted one by one. -/
noncomputable def addDecision (axes : List (LiftedAxis ℝ)) (lifted : RobustModel ℝ)
    (d : DecisionVariable ℝ) : Checked (PolicyError ℝ) (DecisionRef × RobustModel ℝ) := do
  match d.period? with
  | some period => plain <| PolicyError.fromModel <|
    lifted.addDecision d.name (some period) d.bounds.lower? d.bounds.upper?
  | none =>
    let lists ← d.dependencies.mapM fun u => entry axes u.slot
    plain <| PolicyError.fromModel <| lifted.addDecisionDependingOn d.name
      (lists.flatMap (·.vars)) d.bounds.lower? d.bounds.upper?

/-- Add all decisions. -/
noncomputable def addDecisions (model : RobustModel ℝ) (axes : List (LiftedAxis ℝ))
    (lifted : RobustModel ℝ) : Checked (PolicyError ℝ) (List DecisionRef × RobustModel ℝ) :=
  model.decisions.items.foldlM (fun (hs, lifted) d => do
    let (h, lifted) ← addDecision axes lifted d
    return (hs ++ [h], lifted)) ([], lifted)

/-- The image of an expression. -/
noncomputable def image (model : RobustModel ℝ) (retractions : List (AffineExpr ℝ UncertaintyRef))
    (decisions : List DecisionRef) (e : UncertainExpr ℝ) :
    Checked (ModelError ℝ) (UncertainExpr ℝ) := do
  lookUps model.decisions decisions (e.decisions.vars ++ e.products.vars.map (·.decision))
  lookUps model.uncertainty.vars retractions
    (e.uncertainties.vars ++ e.products.vars.map (·.uncertainty))
  plain (e.substitute (LiftedModel.liftedDecision model decisions)
    (LiftedModel.retract model retractions))

/-- Substitute the retraction in constraints and objective. -/
noncomputable def addConstraints (model : RobustModel ℝ)
    (retractions : List (AffineExpr ℝ UncertaintyRef)) (decisions : List DecisionRef)
    (lifted : RobustModel ℝ) : Checked (ModelError ℝ) (RobustModel ℝ) := do
  let lifted ← model.constraints.foldlM (fun (lifted : RobustModel ℝ) c => do
    return lifted.addConstraint c.name
      ⟨c.sense, ← image model retractions decisions c.expression⟩) lifted
  let objective ← plain model.objective
  return lifted.setObjective
    (.new objective.sense (← image model retractions decisions objective.expression))

section

variable {axes : List (LiftedAxis ℝ)} {retractions : List (AffineExpr ℝ UncertaintyRef)}
variable {decisions : List DecisionRef}

private theorem agrees_addDecisions
    (haxes : ∀ d ∈ model.decisions.items, ∀ u ∈ d.dependencies, u.slot < axes.length)
    (lifted : RobustModel ℝ) :
    Agrees (addDecisions model axes lifted) (LiftedModel.addDecisions model axes lifted) := by
  refine Agrees.foldlM ?_
  rintro ⟨hs, lifted⟩ d hd
  refine Agrees.bind ?_ fun _ _ => .pure
  rw [addDecision, LiftedModel.addDecision]
  cases d.period? with
  | some period => exact .plain
  | none =>
    exact (Agrees.mapM fun u hu => Agrees.lookup (haxes d hd u hu) _).bind fun _ _ => .plain

private theorem length_addDecisions {lifted lifted' : RobustModel ℝ}
    (hrun : LiftedModel.addDecisions model axes lifted = .ok (decisions, lifted')) :
    decisions.length = model.decisions.size := by
  refine foldlM_prefix (I := fun ds (p : List DecisionRef × RobustModel ℝ) =>
    p.1.length = ds.length) ?_ rfl hrun
  rintro ds d - ⟨hs, lifted⟩ p' - hlength hstep
  obtain ⟨⟨h, lifted⟩, -, hstep⟩ := bind_eq_ok_iff.1 hstep
  obtain rfl := pure_eq_ok_iff.1 hstep
  simpa using hlength

private theorem agrees_image (hretractions : retractions.length = model.uncertainty.vars.size)
    (hdecisions : decisions.length = model.decisions.size) (e : UncertainExpr ℝ) :
    Agrees (image model retractions decisions e)
      (e.substitute (LiftedModel.liftedDecision model decisions)
        (LiftedModel.retract model retractions)) :=
  .bind_ok (Checked.lookUps_of_length hdecisions _) <|
    .bind_ok (Checked.lookUps_of_length hretractions _) .plain

private theorem agrees_addConstraints
    (hretractions : retractions.length = model.uncertainty.vars.size)
    (hdecisions : decisions.length = model.decisions.size) (lifted : RobustModel ℝ) :
    Agrees (addConstraints model retractions decisions lifted)
      (LiftedModel.addConstraints model retractions decisions lifted) :=
  (Agrees.foldlM fun _ _ _ => (agrees_image hretractions hdecisions _).bind fun _ _ => .pure).bind
    fun _ _ => Agrees.plain.bind fun _ _ =>
      (agrees_image hretractions hdecisions _).bind fun _ _ => .pure

end

/-! ## Lifted models -/

/-- The lifted model before the cuts across axes, with its axes. -/
noncomputable def buildAxes (model : RobustModel ℝ) (series : List (BreakpointSeries ℝ))
    (options : LiftingOptions) (owner : OwnerId) :
    Checked (PolicyError ℝ) (RobustModel ℝ × List (LiftedAxis ℝ)) := do
  let alternatives := model.uncertainty.alternatives.items
  let d ← liftUncertainties model series owner
  let lifted := (alternatives.drop 1).foldl
    (fun (lifted : RobustModel ℝ) _ => lifted.addAlternative.2) d.lifted
  let sets := alternatives.zip lifted.uncertainty.alternatives.handles
  let lifted ← Checked.relabel .model <| sets.foldlM (fun lifted (alternative, set) =>
    addAlternative model d.axes d.retractions lifted alternative set) lifted
  let (decisions, lifted) ← addDecisions model d.axes lifted
  let lifted ← Checked.relabel .model (addConstraints model d.retractions decisions lifted)
  let lifted ← sets.foldlM (fun lifted (alternative, set) =>
    tightenBox model options d.axes lifted alternative set) lifted
  return (lifted, d.axes)

private theorem agrees_buildAxes (hmodel : model.Connected)
    (hseries : ∀ s ∈ series, s.IsOver model.uncertainty) (options : LiftingOptions)
    (owner : OwnerId) : Agrees (buildAxes model series options owner)
      (LiftedModel.buildAxes model series options owner) := by
  refine (agrees_liftUncertainties hseries owner).bind fun d hd => ?_
  have hover := LiftedModel.liftUncertainties_eq_ok hseries hd
  have hretractions : d.retractions.length = model.uncertainty.vars.size :=
    hover.retractions.length_eq.symm.trans hover.axes.length_axes
  have hdependencies : ∀ x ∈ model.decisions.items, ∀ u ∈ x.dependencies,
      u.slot < d.axes.length := by
    intro x hx u hu
    obtain ⟨v, hv⟩ := hmodel x hx u hu
    exact hover.axes.length_axes ▸ UncertaintySet.slot_lt_of_variableAt hv
  refine (Agrees.relabel _ (Agrees.foldlM ?_)).bind fun lifted _ => ?_
  · rintro lifted ⟨alternative, set⟩ -
    exact agrees_addAlternative hover.axes hretractions lifted alternative set
  refine (agrees_addDecisions hdependencies lifted).bind ?_
  rintro ⟨decisions, lifted⟩ hdecisions
  refine (Agrees.relabel _ (agrees_addConstraints hretractions
    (length_addDecisions hdecisions) lifted)).bind fun lifted _ => ?_
  refine (Agrees.foldlM ?_).bind fun _ _ => .pure
  rintro lifted ⟨alternative, set⟩ -
  exact agrees_tightenBox hover.axes options lifted alternative set

/-- Add the cuts across axes, where all axes share their breakpoints and the set is known to stay
the same under permutations. -/
noncomputable def tightenRotational (model : RobustModel ℝ) (axes : List (LiftedAxis ℝ))
    (lifted : RobustModel ℝ) : Step Diagnostics (Stop (PolicyError ℝ)) (RobustModel ℝ) := do
  let set := model.uncertainty
  match LiftedAxis.sharedSeries? axes with
  | none => return lifted
  | some series =>
    if !(← Step.ofChange (·.settle set.rotationalInvariance)) then return lifted
    let mirrored ← Step.ofExcept id (isSymmetric series)
    let symmetric ← if mirrored then Step.ofChange (·.settle set.symmetry) else pure false
    let lifted ←
      if symmetric then Step.ofExcept id (addSymmetric set series axes lifted)
      else pure lifted
    if set.nonNegative then Step.ofExcept id (addNonNegative set series axes lifted)
    else return lifted

private theorem length_vars_of_sharedSeries? {axes : List (LiftedAxis ℝ)} {set : UncertaintySet ℝ}
    (haxes : (⟨axes⟩ : Lifting ℝ).IsOver set) {shared : BreakpointSeries ℝ}
    (hshared : LiftedAxis.sharedSeries? axes = some shared) :
    ∀ axis ∈ axes, axis.vars.length = shared.numPieces := by
  intro axis haxis
  obtain ⟨s, hs, hpoints⟩ := (LiftedAxis.sharedSeries?_eq_some hshared).2 axis haxis
  obtain ⟨v, -, hrepresents⟩ := exists_of_forall₂_right haxes.represents haxis
  rw [hrepresents.length, hs, Option.elim_some, BreakpointSeries.numPieces, hpoints,
    BreakpointSeries.numPieces]

private theorem agrees_tightenRotational {axes : List (LiftedAxis ℝ)}
    (haxes : (⟨axes⟩ : Lifting ℝ).IsOver model.uncertainty) (lifted : RobustModel ℝ) :
    Step.Agrees (tightenRotational model axes lifted)
      (LiftedModel.tightenRotational model axes lifted) := by
  rw [tightenRotational, LiftedModel.tightenRotational]
  cases hshared : LiftedAxis.sharedSeries? axes with
  | none => exact .pure
  | some shared =>
    have hlength := length_vars_of_sharedSeries? haxes hshared
    have hlast : ∀ lifted : RobustModel ℝ, Step.Agrees
        (if model.uncertainty.nonNegative then
          Step.ofExcept id (addNonNegative model.uncertainty shared axes lifted)
        else pure lifted : Step Diagnostics (Stop (PolicyError ℝ)) (RobustModel ℝ))
        (if model.uncertainty.nonNegative then
          Step.ofExcept id (RotationalCut.addNonNegative model.uncertainty shared axes lifted)
        else pure lifted) := by
      intro lifted
      split
      · exact .ofExcept (agrees_addNonNegative hlength lifted)
      · exact .pure
    refine Step.Agrees.ofChange.bind fun invariant => ?_
    cases invariant with
    | false => exact .pure
    | true =>
      refine Step.Agrees.bind_ok (isSymmetric_eq_ok shared) ?_
      cases shared.isSymmetric with
      | false => exact hlast lifted
      | true =>
        refine Step.Agrees.ofChange.bind fun symmetric => ?_
        cases symmetric with
        | false => exact hlast lifted
        | true =>
          exact Step.Agrees.ofExcept_bind (agrees_addSymmetric hlength lifted)
            fun lifted _ => hlast lifted

/-- The lifted model and the lifting map. -/
noncomputable def build (model : RobustModel ℝ) (series : List (BreakpointSeries ℝ))
    (options : LiftingOptions) (owner : OwnerId) :
    Step Diagnostics (Stop (PolicyError ℝ)) (RobustModel ℝ × Lifting ℝ) := do
  let (lifted, axes) ← Step.ofExcept id (buildAxes model series options owner)
  let lifted ←
    if options.breakpointTightening then tightenRotational model axes lifted else pure lifted
  let lifting : Lifting ℝ := ⟨axes⟩
  match model.distribution? with
  | some base => return (lifted.setDistribution (.lifted base lifting), lifting)
  | none => return (lifted, lifting)

private theorem agrees_build (hmodel : model.Connected)
    (hseries : ∀ s ∈ series, s.IsOver model.uncertainty) (options : LiftingOptions)
    (owner : OwnerId) : Step.Agrees (build model series options owner)
      (LiftedModel.build model series options owner) := by
  refine Step.Agrees.ofExcept_bind (agrees_buildAxes hmodel hseries options owner) ?_
  rintro ⟨lifted, axes⟩ hrun
  have haxes := (LiftedModel.buildAxes_eq_ok hseries hrun).isOver
  cases options.breakpointTightening with
  | false => cases model.distribution? <;> exact .pure
  | true =>
    refine (agrees_tightenRotational haxes lifted).bind fun lifted => ?_
    cases model.distribution? <;> exact .pure

/-- Lifting never divides by zero, never asks for an entry that is not there, and never adds a
variable with its lower bound above its upper bound: for every model that was built up, every list
of breakpoints that are accepted, and all options, a lifting in which all of this is checked has no
fault, and it has the results and the failures of the lifting without checks. -/
theorem build_never_faults (hmodel : model.Reachable)
    (hseries : ∀ s ∈ series, s.IsOver model.uncertainty) (options : LiftingOptions)
    (owner : OwnerId) (d d' : Diagnostics) :
    (∀ cause, build model series options owner d ≠ .error (.fault cause) d') ∧
    (∀ result, build model series options owner d = .ok result d' ↔
      LiftedModel.build model series options owner d = .ok result d') ∧
    ∀ e, build model series options owner d = .error (.failed e) d' ↔
      LiftedModel.build model series options owner d = .error e d' := by
  have hagrees := agrees_build hmodel.connected hseries options owner
  exact ⟨hagrees.ne_fault, fun _ => hagrees.eq_ok_iff, fun _ => hagrees.eq_error_iff⟩

/-- Lifting the resting model along the halves of its segment passes all checks. -/
theorem build_never_faults_halves : ∃ lifted,
    LiftingCompiler.resting.Reachable ∧
      (∀ s ∈ [LiftedModel.halves], s.IsOver LiftingCompiler.resting.uncertainty) ∧
        build LiftingCompiler.resting [LiftedModel.halves] ⟨false, false⟩ ⟨1⟩ .empty =
          .ok (lifted, ⟨[LiftedModel.halfAxis]⟩) .empty := by
  have hmodel : LiftingCompiler.resting.Reachable :=
    RobustModel.edited_restingEdits ▸ (RobustModel.Reachable.new "segment" ⟨0⟩).edited _
  have hseries : ∀ s ∈ [LiftedModel.halves], s.IsOver LiftingCompiler.resting.uncertainty :=
    List.forall_mem_singleton.2 LiftedModel.halves_isOver
  obtain ⟨b, hrun⟩ := LiftingCompiler.build_resting .empty
  obtain ⟨-, hsucceeds, -⟩ := build_never_faults hmodel hseries ⟨false, false⟩ ⟨1⟩ .empty .empty
  exact ⟨_, hmodel, hseries, (hsucceeds _).2 hrun⟩

end CheckedLifting

end AdjustableRobust
