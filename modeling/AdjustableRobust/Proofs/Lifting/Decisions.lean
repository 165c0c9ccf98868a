import AdjustableRobust.Proofs.Expression.Uncertain
import AdjustableRobust.Proofs.Lifting.Contents
import AdjustableRobust.Proofs.Policy.Decisions

/-!
# Decisions, constraints and objective of the lifted model

The lifted model has the decisions of the base model, with the same bounds; those that may react to
a base uncertainty may react to all of its pieces. Its constraints and its objective say of the
lifted uncertainties what those of the base model say of what they are retracted to.
-/

namespace AdjustableRobust

namespace LiftedModel

variable {model lifted lifted' : RobustModel ℝ} {axes : List (LiftedAxis ℝ)}

/-! ## Decisions -/

/-- The lifted variables that stand for some base uncertainties, one after the other. -/
def piecesOf (axes : List (LiftedAxis ℝ)) (us : List UncertaintyRef) : List UncertaintyRef :=
  us.flatMap fun u => axes[u.slot]?.elim [] (·.vars)

private theorem piecesOf_eq {us : List UncertaintyRef} {found : List (LiftedAxis ℝ)}
    (h : List.Forall₂ (fun u axis => axes[u.slot]? = some axis) us found) :
    piecesOf axes us = found.flatMap (·.vars) := by
  rw [piecesOf]
  induction h with
  | nil => rfl
  | cons haxis _ ih => rw [List.flatMap_cons, List.flatMap_cons, ih, haxis, Option.elim_some]

/-- A decision of the lifted model stands for one of the base model. With a period it depends on
all lifted variables that are revealed by then, without one on those of its dependencies. -/
structure LiftsDecision (lifted : RobustModel ℝ) (axes : List (LiftedAxis ℝ))
    (d d' : DecisionVariable ℝ) : Prop where
  bounds : d'.bounds = d.bounds
  dependencies : d'.dependencies =
    d.period?.elim (piecesOf axes d.dependencies) lifted.revealedBy
  /-- Dependencies that are lifted one by one have axes. -/
  inside : d.period? = none → ∀ u ∈ d.dependencies, u.slot < axes.length

private theorem bounds_eq_of_make {b c : Bounds ℝ}
    (h : Bounds.make b.lower? b.upper? = .ok c) : c = b := by
  obtain ⟨hlower, hupper⟩ := Bounds.make_eq_ok h
  obtain ⟨l, u, hb⟩ := b
  obtain ⟨l', u', hc⟩ := c
  obtain rfl : l' = l := hlower
  obtain rfl : u' = u := hupper
  rfl

private theorem addDecision_eq_ok {d : DecisionVariable ℝ} {h : DecisionRef}
    (hrun : addDecision axes lifted d = .ok (h, lifted')) :
    ∃ d', LiftsDecision lifted axes d d' ∧ (h, lifted') = lifted.pushDecision d' := by
  rw [addDecision] at hrun
  cases hperiod : d.period? with
  | some period =>
    simp only [hperiod, PolicyError.fromModel, mapError_eq_ok_iff, RobustModel.addDecision,
      bind_eq_ok_iff, pure_eq_ok_iff] at hrun
    obtain ⟨b, hb, hrun⟩ := hrun
    refine ⟨_, ⟨bounds_eq_of_make hb, ?_, fun hnone => ?_⟩, hrun.symm⟩
    · rw [hperiod, Option.elim_some]
    · rw [hperiod] at hnone
      cases hnone
  | none =>
    simp only [hperiod, bind_eq_ok_iff, PolicyError.fromModel, PolicyError.fromStore,
      mapError_eq_ok_iff, RobustModel.addDecisionDependingOn, pure_eq_ok_iff] at hrun
    obtain ⟨lists, hlists, b, hb, _, -, hrun⟩ := hrun
    rw [mapM_eq_ok_iff] at hlists
    have hlook : List.Forall₂ (fun u (axis : LiftedAxis ℝ) => axes[u.slot]? = some axis)
        d.dependencies lists := hlists.imp fun u axis h => by
      rwa [mapError_eq_ok_iff, Handle.lookup_eq_ok_iff] at h
    refine ⟨_, ⟨bounds_eq_of_make hb, ?_, fun _ u hu => ?_⟩, hrun.symm⟩
    · rw [hperiod, Option.elim_none, piecesOf_eq hlook]
    · obtain ⟨axis, -, haxis⟩ := exists_of_forall₂_left hlook hu
      exact (List.getElem?_eq_some_iff.1 haxis).1

/-- All decisions are lifted, in order, when there were none before. -/
theorem addDecisions_eq_ok {hs : List DecisionRef} (hnone : lifted.decisions.items = [])
    (hrun : addDecisions model axes lifted = .ok (hs, lifted')) :
    lifted' = { lifted with decisions := lifted'.decisions } ∧ hs = lifted'.decisions.handles ∧
      List.Forall₂ (LiftsDecision lifted' axes) model.decisions.items lifted'.decisions.items := by
  have hall : lifted' = { lifted with decisions := lifted'.decisions } ∧
      hs = lifted'.decisions.handles ∧ List.Forall₂ (LiftsDecision lifted axes)
        model.decisions.items lifted'.decisions.items := by
    refine foldlM_prefix (I := fun ds (p : List DecisionRef × RobustModel ℝ) =>
      p.2 = { lifted with decisions := p.2.decisions } ∧ p.1 = p.2.decisions.handles ∧
        List.Forall₂ (LiftsDecision lifted axes) ds p.2.decisions.items) ?_
      ⟨rfl, ?_, ?_⟩ hrun
    · rintro ds d - ⟨hs, m⟩ p' - ⟨hrest, hhs, hds⟩ hstep
      simp only [bind_eq_ok_iff, pure_eq_ok_iff] at hstep hrest hhs hds
      subst hhs
      obtain ⟨⟨h, m'⟩, hadd, rfl⟩ := hstep
      obtain ⟨d', hd', hpush⟩ := addDecision_eq_ok hadd
      obtain ⟨rfl, rfl⟩ := Prod.mk.inj hpush
      have hrevealed : m.revealedBy = lifted.revealedBy := by rw [hrest]; rfl
      refine ⟨?_, ?_, ?_⟩
      · change { m with decisions := _ } = _
        rw [hrest]
      · simp [Store.handles, Store.size, List.range_succ, Store.handleFor]
      · refine List.rel_append hds (.cons ?_ .nil)
        exact ⟨hd'.bounds, hrevealed ▸ hd'.dependencies, hd'.inside⟩
    · simp [Store.handles, Store.size, hnone]
    · rw [hnone]
      exact .nil
  obtain ⟨hrest, hhs, hds⟩ := hall
  have hrevealed : lifted'.revealedBy = lifted.revealedBy := by rw [hrest]; rfl
  refine ⟨hrest, hhs, hds.imp fun d d' hd => ⟨hd.bounds, hrevealed ▸ hd.dependencies, hd.inside⟩⟩

private theorem liftedDecision_eq_ok {s : Store .decision (DecisionVariable ℝ)}
    {h h' : DecisionRef} (hrun : liftedDecision model s.handles h = .ok h') :
    (∃ d, model.decisionAt h = .ok d) ∧ h' = s.handleFor h.slot := by
  rw [liftedDecision, bind_eq_ok_iff] at hrun
  obtain ⟨d, hd, hrun⟩ := hrun
  rw [liftM_eq_ok_iff, Handle.lookup_eq_ok_iff, Store.handles, List.getElem?_map,
    Option.map_eq_some_iff] at hrun
  obtain ⟨i, hi, rfl⟩ := hrun
  obtain ⟨hlt, rfl⟩ := List.getElem?_eq_some_iff.1 hi
  rw [List.getElem_range]
  exact ⟨⟨d, hd⟩, rfl⟩

/-! ## Expressions -/

/-- An expression of the lifted model says of the lifted uncertainties and decisions what one of
the base model says of what they stand for. -/
structure Carries (model lifted : RobustModel ℝ) (axes : List (LiftedAxis ℝ))
    (e e' : UncertainExpr ℝ) : Prop where
  mode : e'.mode = e.mode
  refers : e.RefersTo model
  eval : ∀ U δ, e'.eval U δ = e.eval (bySlot (entryAt (axes.map (·.retract U))))
    fun h => δ (lifted.decisions.handleFor h.slot)

private theorem carries_of_substitute {d : Draft ℝ} (hd : d.IsOver model.uncertainty)
    {e e' : UncertainExpr ℝ}
    (hrun : e.substitute (liftedDecision model lifted.decisions.handles)
      (retract model d.retractions) = .ok e') : Carries model lifted d.axes e e' := by
  have himage := UncertainExpr.substitute_eq_ok hrun
  refine ⟨himage.mode, ⟨fun u hu => ?_, fun h hh => ?_, fun v hv => ?_⟩, fun U δ => ?_⟩
  · obtain ⟨g, hg⟩ := himage.uncertainties u hu
    exact (retract_eq_ok hd hg).1
  · obtain ⟨h', hh'⟩ := himage.decisions h hh
    exact (liftedDecision_eq_ok hh').1
  · obtain ⟨⟨g, hg⟩, h', hh'⟩ := himage.products v hv
    exact ⟨(retract_eq_ok hd hg).1, (liftedDecision_eq_ok hh').1⟩
  · refine himage.eval U _ δ _ (fun u g hg => (retract_eq_ok hd hg).2.2 U) fun h h' hh' => ?_
    rw [(liftedDecision_eq_ok hh').2]

/-- Constraints and objective are lifted. -/
theorem addConstraints_eq_ok {d : Draft ℝ} (hd : d.IsOver model.uncertainty)
    (hnone : lifted.constraints = [])
    (hrun : addConstraints model d.retractions lifted.decisions.handles lifted = .ok lifted') :
    lifted'.decisions = lifted.decisions ∧
      List.Forall₂ (fun (c c' : RobustConstraint ℝ) => c'.sense = c.sense ∧
        Carries model lifted d.axes c.expression c'.expression) model.constraints
          lifted'.constraints ∧
      ∃ o e', model.objective = .ok o ∧ lifted'.objective = .ok (.new o.sense e') ∧
        Carries model lifted d.axes o.expression e' := by
  simp only [addConstraints, bind_eq_ok_iff, pure_eq_ok_iff] at hrun
  obtain ⟨m, hfold, o, ho, e', he', rfl⟩ := hrun
  have hm : m.decisions = lifted.decisions ∧
      List.Forall₂ (fun (c c' : RobustConstraint ℝ) => c'.sense = c.sense ∧
        Carries model lifted d.axes c.expression c'.expression) model.constraints
          m.constraints := by
    refine foldlM_prefix (I := fun cs (m : RobustModel ℝ) => m.decisions = lifted.decisions ∧
      List.Forall₂ (fun (c c' : RobustConstraint ℝ) => c'.sense = c.sense ∧
        Carries model lifted d.axes c.expression c'.expression) cs m.constraints) ?_
      ⟨rfl, by rw [hnone]; exact .nil⟩ hfold
    rintro cs c - m m' - ⟨hdecisions, hcs⟩ hstep
    rw [bind_eq_ok_iff] at hstep
    obtain ⟨e', he', hstep⟩ := hstep
    rw [pure_eq_ok_iff] at hstep
    subst hstep
    exact ⟨hdecisions, List.rel_append hcs (.cons ⟨rfl, carries_of_substitute hd he'⟩ .nil)⟩
  exact ⟨hm.1, hm.2, o, e', ho, rfl, carries_of_substitute hd he'⟩

/-! ## The whole model -/

/-- The lifted model mirrors the base model: it has the same decisions, and its constraints and
its objective carry over. -/
structure Mirrors (model lifted : RobustModel ℝ) (axes : List (LiftedAxis ℝ)) : Prop where
  decisions : List.Forall₂ (LiftsDecision lifted axes) model.decisions.items
    lifted.decisions.items
  constraints : List.Forall₂ (fun (c c' : RobustConstraint ℝ) => c'.sense = c.sense ∧
    Carries model lifted axes c.expression c'.expression) model.constraints lifted.constraints
  objective : ∃ o e', model.objective = .ok o ∧ lifted.objective = .ok (.new o.sense e') ∧
    Carries model lifted axes o.expression e'
  /-- The pieces of an uncertainty are revealed along with it. -/
  revealed : ∀ period, lifted.revealedBy period =
    (model.uncertainty.vars.items.zip axes).flatMap fun p => revealedPieces period p.1 p.2

/-- The lifted model mirrors the base model. -/
theorem build_mirrors {series : List (BreakpointSeries ℝ)} {options : LiftingOptions}
    {owner : OwnerId} {lifting : Lifting ℝ} {d d' : Diagnostics}
    (hseries : ∀ s ∈ series, s.IsOver model.uncertainty)
    (hrun : build model series options owner d = .ok (lifted, lifting) d') :
    Mirrors model lifted lifting.axes := by
  obtain ⟨draft, m₀, m₁, m₂, hs, hdraft, haxes, hstages, -⟩ := build_stages hseries hrun
  have hd := liftUncertainties_eq_ok hseries hdraft
  obtain ⟨hkept₁, rfl, hdecisions⟩ :=
    addDecisions_eq_ok (by rw [hstages.filled, hd.decisions]) hstages.decided
  obtain ⟨hkept₂, hconstraints, o, e', ho, ho', he'⟩ := addConstraints_eq_ok hd
    (by rw [hkept₁, hstages.filled, hd.constraints]) hstages.constrained
  have hdecided : lifted.decisions = m₁.decisions := by rw [hstages.rest, hkept₂]
  have hrevealed : ∀ m : RobustModel ℝ, m.uncertainty.vars = draft.lifted.uncertainty.vars →
      m.revealedBy = draft.lifted.revealedBy := fun m hm => by
    funext period
    rw [RobustModel.revealedBy, RobustModel.revealedBy, hm]
  have hvars₁ : m₁.uncertainty.vars = draft.lifted.uncertainty.vars := by
    rw [hkept₁, hstages.vars]
  have hcarries : ∀ {e e' : UncertainExpr ℝ}, Carries model m₁ draft.axes e e' →
      Carries model lifted lifting.axes e e' := fun h => by
    rw [← haxes]
    exact ⟨h.mode, h.refers, by rw [hdecided]; exact h.eval⟩
  refine ⟨?_, ?_, ⟨o, e', ho, ?_, hcarries he'⟩, fun period => ?_⟩
  · rw [hdecided, ← haxes]
    refine hdecisions.imp fun d d' h => ⟨h.bounds, ?_, h.inside⟩
    rw [h.dependencies, hrevealed lifted hstages.kept, hrevealed m₁ hvars₁]
  · rw [show lifted.constraints = m₂.constraints by rw [hstages.rest]]
    exact hconstraints.imp fun c c' h => ⟨h.1, hcarries h.2⟩
  · rw [hstages.rest]
    exact ho'
  · rw [hrevealed lifted hstages.kept, hd.revealed, haxes]

end LiftedModel

end AdjustableRobust
