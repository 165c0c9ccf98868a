import AdjustableRobust.Lifting.Model
import AdjustableRobust.Proofs.Policy.Causes

/-!
# Why liftings fail

Making breakpoints and lifting a model fail for what they are given: breakpoints that the
uncertainty set does not carry, or a model that refers to what it does not have.
-/

namespace AdjustableRobust

open PolicyError

variable {α : Type} [Scalar α]

/-- Breakpoints do not fit. -/
theorem BreakpointSeries.make_blames (points : List α) (direction : LinearExpr α UncertaintyRef)
    (scope : Scope α UncertaintyRef) : Blames OfInput (make points direction scope) := by
  refine .bind blames_fromModel fun lower => .bind blames_fromModel fun upper => ?_
  split
  · split
    · exact .bind (.throw trivial) fun _ => .pure
    · exact .pure
  · exact .throw trivial

namespace LiftedModel

variable {model : RobustModel α} {axes : List (LiftedAxis α)}

/-! ## Uncertainties and decisions -/

private theorem assignSeries_blames (set : UncertaintySet α) (series : List (BreakpointSeries α)) :
    Blames OfInput (assignSeries set series) := by
  have haxis : ∀ s : BreakpointSeries α, Blames OfInput s.axis := by
    intro s
    unfold BreakpointSeries.axis
    split
    · split
      · exact .pure
      · exact .throw trivial
    · exact .throw trivial
  refine .foldlM fun table s _ => .bind (haxis s) fun axis => .bind blames_fromModel fun v =>
    .bind blames_fromStore fun s? => ?_
  split
  · exact .throw trivial
  · exact .pure

private theorem liftUncertainties_blames (series : List (BreakpointSeries α)) (owner : OwnerId) :
    Blames OfInput (liftUncertainties model series owner) :=
  .bind (assignSeries_blames _ _) fun _ => blames_fromModel

private theorem addDecisions_blames (lifted : RobustModel α) :
    Blames OfInput (addDecisions model axes lifted) := by
  have hadd : ∀ (lifted : RobustModel α) d, Blames OfInput (addDecision axes lifted d) := by
    intro lifted d
    unfold addDecision
    split
    · exact blames_fromModel
    · exact .bind (.mapM fun _ _ => blames_fromStore) fun _ => blames_fromModel
  exact .foldlM fun _ d _ => .bind (hadd _ d) fun _ => .pure

/-! ## Tightening -/

private theorem tightenBox_blames (options : LiftingOptions) (lifted : RobustModel α)
    (alternative : ConstraintSet α) (set : ConstraintSetRef) :
    Blames OfInput (tightenBox model options axes lifted alternative set) := by
  rw [tightenBox]
  split
  · exact .pure
  · refine .bind blames_fromModel fun ranges => .foldlM fun lifted row _ => ?_
    dsimp only
    split
    · exact .pure
    · exact .bind blames_fromStore fun _ => .foldlM fun _ _ _ => blames_fromModel

private theorem addSymmetric_blames (set : UncertaintySet α) (series : BreakpointSeries α)
    (lifted : RobustModel α) :
    Blames OfInput (RotationalCut.addSymmetric set series axes lifted) :=
  .bind (.foldlM fun _ _ _ => .bind
    (.foldlM fun _ _ _ => .bind blames_fromStore fun _ => .bind blames_fromStore fun _ => .pure)
      fun _ => .bind blames_fromModel fun _ => .bind blames_fromModel fun _ => .pure) fun _ => .pure

private theorem addNonNegative_blames (set : UncertaintySet α) (series : BreakpointSeries α)
    (lifted : RobustModel α) :
    Blames OfInput (RotationalCut.addNonNegative set series axes lifted) :=
  .bind (.foldlM fun _ _ _ => .bind
    (.foldlM fun _ _ _ => .bind blames_fromStore fun _ => .pure)
      fun _ => .bind blames_fromModel fun _ => .bind blames_fromModel fun _ => .pure) fun _ => .pure

private theorem tightenRotational_blames (lifted : RobustModel α) :
    Step.Blames OfInput (tightenRotational model axes lifted) := by
  rw [tightenRotational]
  dsimp only
  split
  · exact .pure
  · next series _ =>
    have hlast : ∀ lifted : RobustModel α, Step.Blames OfInput (σ := Diagnostics)
        (if model.uncertainty.nonNegative = true then
          Step.ofExcept id (RotationalCut.addNonNegative model.uncertainty series axes lifted)
        else pure lifted) := by
      intro lifted
      split
      · exact .ofExcept (addNonNegative_blames _ _ _)
      · exact .pure
    have hcuts : ∀ symmetric : Bool, Step.Blames OfInput (σ := Diagnostics) (do
        let lifted ←
          if symmetric then
            Step.ofExcept id (RotationalCut.addSymmetric model.uncertainty series axes lifted)
          else pure lifted
        if model.uncertainty.nonNegative then
          Step.ofExcept id (RotationalCut.addNonNegative model.uncertainty series axes lifted)
        else return lifted) := by
      intro symmetric
      cases symmetric with
      | true => exact .bind (.ofExcept (addSymmetric_blames _ _ _)) hlast
      | false => exact .bind .pure hlast
    refine .bind .ofChange fun invariant => ?_
    split
    · exact .pure
    · split
      · exact .bind .ofChange hcuts
      · exact .bind .pure hcuts

/-! ## The lifted model -/

private theorem buildAxes_blames (series : List (BreakpointSeries α)) (options : LiftingOptions)
    (owner : OwnerId) : Blames OfInput (buildAxes model series options owner) :=
  .bind (liftUncertainties_blames _ _) fun _ => .bind blames_fromModel fun _ =>
    .bind (addDecisions_blames _) fun _ => .bind blames_fromModel fun _ =>
      .bind (.foldlM fun _ _ _ => tightenBox_blames _ _ _ _) fun _ => .pure

/-- A model is lifted unless it cannot be. -/
theorem build_blames (model : RobustModel α) (series : List (BreakpointSeries α))
    (options : LiftingOptions) (owner : OwnerId) :
    Step.Blames OfInput (build model series options owner) := by
  refine .bind (.ofExcept (buildAxes_blames _ _ _)) fun p => ?_
  dsimp only
  -- the last step is the same with and without cuts across axes
  split
  · refine .bind (tightenRotational_blames _) fun _ => ?_
    cases model.distribution? <;> exact .pure
  · refine .bind .pure fun _ => ?_
    cases model.distribution? <;> exact .pure

end LiftedModel

end AdjustableRobust
