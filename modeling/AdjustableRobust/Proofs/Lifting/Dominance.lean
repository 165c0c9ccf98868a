import AdjustableRobust.Proofs.Lifting.Simulation
import AdjustableRobust.Proofs.Lifting.Soundness
import AdjustableRobust.Proofs.Robust.Edits

/-!
# Piecewise affine policies are no worse

Values that satisfy the compiled base model give values that satisfy the compiled lifted model, with
the same worth of the objective: every piece gets the coefficient of its uncertainty, constants are
shifted by the origins of the axes, the duals of bounds are copied to every piece, and what the
lifting adds gets zero duals. So refining an uncertainty into pieces never costs anything.
-/

namespace AdjustableRobust

/-- Values of the compiled lifted model that do what the values do. -/
noncomputable def CompiledValues.lift (x : CompiledValues) (model lifted : RobustModel ℝ)
    (axes : List (LiftedAxis ℝ)) : CompiledValues where
  rules := LiftedModel.liftRules model axes x.rules
  objective := x.objective.map (LiftedModel.carryBlock model lifted axes)
  requirements := x.requirements.map (·.map (LiftedModel.carryBlock model lifted axes))

namespace LiftedModel

variable {model lifted : RobustModel ℝ} {axes : List (LiftedAxis ℝ)}
variable {series : List (BreakpointSeries ℝ)} {options : LiftingOptions} {owner : OwnerId}
variable {lifting : Lifting ℝ} {d d' : Diagnostics}

/-! ## Requirements -/

private theorem carries_bound {i : ℕ} (hi : i < model.decisions.items.length) (s : ConstraintSense)
    (b : ℝ) : Carries model lifted axes
      ((UncertainExpr.decision (model.decisions.handleFor i)).relateValue s b).expression
      ((UncertainExpr.decision (lifted.decisions.handleFor i)).relateValue s b).expression where
  mode := rfl
  refers := by
    have hdecision : ∃ x, model.decisionAt (model.decisions.handleFor i) = .ok x :=
      ⟨_, liftM_eq_ok_iff.2 ((Store.get_eq_ok_iff _ _ _).2
        ⟨rfl, rfl, List.getElem?_eq_getElem hi⟩)⟩
    refine ⟨by simp [UncertainExpr.relateValue, UncertainExpr.addConstant, UncertainExpr.decision,
      UncertainExpr.zero], ?_, by simp [UncertainExpr.relateValue, UncertainExpr.addConstant,
      UncertainExpr.decision, UncertainExpr.zero]⟩
    simpa [UncertainExpr.relateValue, UncertainExpr.addConstant, UncertainExpr.decision,
      UncertainExpr.zero] using hdecision
  eval U δ := by
    simp [UncertainExpr.relateValue, UncertainExpr.addConstant, UncertainExpr.decision,
      UncertainExpr.zero, UncertainExpr.eval, Store.handleFor]

private theorem carries_rows {i : ℕ} (hi : i < model.decisions.items.length)
    {x x' : DecisionVariable ℝ} (hbounds : x'.bounds = x.bounds) :
    List.Forall₂ (fun c c' => RawConstraint.sense c' = c.sense ∧
      Carries model lifted axes c.expression c'.expression)
        (x.rows (model.decisions.handleFor i)) (x'.rows (lifted.decisions.handleFor i)) := by
  rw [DecisionVariable.rows, DecisionVariable.rows, hbounds]
  refine List.rel_append ?_ ?_
  · cases x.bounds.lower? with
    | none => exact .nil
    | some b => exact .cons ⟨rfl, carries_bound hi .geq b⟩ .nil
  · cases x.bounds.upper? with
    | none => exact .nil
    | some b => exact .cons ⟨rfl, carries_bound hi .leq b⟩ .nil

/-- All requirements carry over, in order. -/
theorem Mirrors.requirements (h : Mirrors model lifted axes) :
    List.Forall₂ (fun c c' => RawConstraint.sense c' = c.sense ∧
      Carries model lifted axes c.expression c'.expression) model.requirements
        lifted.requirements := by
  refine List.rel_append ?_ ?_
  · rw [List.forall₂_map_left_iff, List.forall₂_map_right_iff]
    exact h.constraints
  · have hentries : List.Forall₂ (fun (e e' : DecisionRef × DecisionVariable ℝ) =>
        List.Forall₂ (fun c c' => RawConstraint.sense c' = c.sense ∧
          Carries model lifted axes c.expression c'.expression) (e.2.rows e.1) (e'.2.rows e'.1))
        model.decisions.entries lifted.decisions.entries := by
      have hlength := h.decisions.length_eq
      refine List.forall₂_iff_get.2 ⟨by simpa [Store.entries] using hlength, fun i hi hi' => ?_⟩
      have hbase : i < model.decisions.items.length := by simpa [Store.entries] using hi
      have hlifted : i < lifted.decisions.items.length := hlength ▸ hbase
      simpa [Store.entries] using carries_rows hbase (h.decisions.get hbase hlifted).bounds
    exact List.rel_flatMap hentries fun _ _ he => he

/-! ## Following the base model -/

/-- Duals carry over for every alternative. -/
theorem build_carriesDuals (hseries : ∀ s ∈ series, s.IsOver model.uncertainty)
    (hmodel : model.Wired)
    (hrun : build model series options owner d = .ok (lifted, lifting) d') :
    List.Forall₂ (CarriesDuals model lifted lifting.axes) model.uncertainty.alternatives.items
      lifted.uncertainty.alternatives.items := by
  obtain ⟨draft, m₀, m₁, m₂, hs, hdraft, haxes, hstages, -⟩ := build_stages hseries hrun
  have hd := liftUncertainties_eq_ok hseries hdraft
  have hsize : lifted.uncertainty.alternatives.size = model.uncertainty.alternatives.size := by
    have hpositive := hmodel.alternatives
    rw [hstages.size]
    omega
  refine List.forall₂_iff_get.2 ⟨hsize.symm, fun i hi hi' ds U hds => ?_⟩
  obtain ⟨b, hb, hholds⟩ := hstages.contents i _ (List.getElem?_eq_getElem hi)
  rw [List.getElem?_eq_getElem hi', Option.some.injEq] at hb
  subst hb
  rw [← haxes]
  exact hholds.admits_carriedDuals hd hstages.kept hds U

/-- Lifted policies with the rules of the base policies follow them. -/
theorem build_follows (hseries : ∀ s ∈ series, s.IsOver model.uncertainty) (hmodel : model.Wired)
    (hrun : build model series options owner d = .ok (lifted, lifting) d')
    {p p' : PolicyVariables} {m m' : ConicModel ℝ} {ω ω' : ConicRef → ℝ} (hp : p.Fill model m)
    (hp' : p'.Fill lifted m') (hrules : p'.rules ω' = liftRules model lifting.axes (p.rules ω)) :
    Follows model lifted lifting.axes p p' ω ω' := by
  have hlifts := build_lifts hseries hrun
  have hmirrors := build_mirrors hseries hrun
  obtain ⟨_, _, _, _, _, -, -, -, hdistribution⟩ := build_stages hseries hrun
  have hvalues : ∀ {e e'}, Carries model lifted lifting.axes e e' → ∀ U,
      e'.underPolicies lifted p' ω' U = e.underPolicies model p ω (retracted lifting.axes U) :=
    fun hcarries =>
      hcarries.underPolicies_eq hmirrors hmodel hlifts.isOver.length_axes hp hp' hrules
  exact ⟨build_carriesDuals hseries hmodel hrun, hvalues, fun hwithin _ _ hcarries _ _ hf hf' =>
    expectation_eq hlifts hdistribution hwithin (hvalues hcarries) hf hf'⟩

end LiftedModel

namespace AffineCompiler

variable {β γ : Type} {plain : AffineCompiler ℝ γ} {inner : AffineCompiler ℝ β}
variable {axes : List (LiftedAxis ℝ)}
variable {ω ω' : ConicRef → ℝ} {x : CompiledValues} {v : ℝ}

/-- Values that the compiler of the base model may take carry over to that of the lifted model. -/
theorem Takes.lift (h : plain.Takes ω x v)
    (hmirrors : LiftedModel.Mirrors plain.model inner.model axes)
    (hfollows : LiftedModel.Follows plain.model inner.model axes plain.policy inner.policy ω ω')
    (hrules : inner.policy.rules ω' = LiftedModel.liftRules plain.model axes x.rules)
    (hwithin : plain.model.HasExpectation → plain.model.OutcomesWithinBounds)
    (hobjective : ∀ o, inner.model.objective = .ok o →
      RobustObjective.Computes o inner.model inner.policy)
    (hconstraints : ∀ c ∈ inner.model.constraints,
      c.toRawConstraint.Computes inner.model inner.policy) :
    inner.Takes ω' (x.lift plain.model inner.model axes) v where
  rules := hrules
  objective := by
    obtain ⟨o, ho, hvalue⟩ := h.objective
    obtain ⟨o₁, e', ho₁, ho', hcarries⟩ := hmirrors.objective
    obtain rfl := Except.ok.inj (ho₁.symm.trans ho)
    exact ⟨_, ho', hfollows.compiledBy hcarries (fun hmode => hwithin (.inr ⟨o₁, ho, hmode⟩))
      (hobjective _ ho') hvalue⟩
  requirements := by
    have hstochastic : ∀ k ∈ plain.model.requirements, k.expression.mode = .stochastic →
        plain.model.OutcomesWithinBounds := by
      refine RobustModel.forall_mem_requirements.2 ⟨fun k hk hmode => hwithin (.inl ⟨k, hk, hmode⟩),
        fun e _ k hk hmode => ?_⟩
      rw [DecisionVariable.mode_of_mem_rows hk] at hmode
      cases hmode
    have hcomputes : ∀ k ∈ inner.model.requirements, k.Computes inner.model inner.policy :=
      RobustModel.forall_mem_requirements.2 ⟨hconstraints, fun e _ k hk =>
        .of_mode_ne (by rw [DecisionVariable.mode_of_mem_rows hk]; decide)⟩
    have hmirrored := hmirrors.requirements
    have hlength := hmirrored.length_eq.symm.trans h.requirements.length_eq
    refine List.forall₂_iff_get.2
      ⟨by rw [CompiledValues.lift, List.length_map, hlength], fun i hi hi' => ?_⟩
    simp only [CompiledValues.lift, List.length_map] at hi'
    have hi₀ : i < plain.model.requirements.length := hmirrored.length_eq ▸ hi
    obtain ⟨hsense, hcarries⟩ := hmirrored.get hi₀ hi
    simp only [CompiledValues.lift, List.get_eq_getElem, List.getElem_map]
    exact hfollows.ensuredBy hsense hcarries (hstochastic _ (List.getElem_mem hi₀))
      (hcomputes _ (List.getElem_mem hi)) (h.requirements.get hi₀ hi')

end AffineCompiler

namespace LiftingCompiler

variable {β γ : Type} {c c' : LiftingCompiler ℝ β}

/-- Refining uncertainties into pieces costs nothing: whatever values satisfy the compiled base
model, those that lift them satisfy the compiled lifted model, and the two objectives are worth the
same. -/
theorem build_dominates {backend : γ} {settings : SolverSettings ℝ} {owner : OwnerId}
    {plain : AffineCompiler ℝ γ} {u u' : Unit} (hc : c.SeriesOver) (hmodel : c.model.Reachable)
    (hwithin : c.model.HasExpectation → c.model.OutcomesWithinBounds)
    (hplain : AffineCompiler.build (.new c.model backend settings owner) = .ok u plain)
    (hbuild : build c = .ok u' c') :
    ∃ lifting inner o f f', c'.stage = .lifted lifting inner ∧ c.model.objective = .ok o ∧
      plain.conic.objective = .ok (.new o.sense f) ∧
      inner.conic.objective = .ok (.new o.sense f') ∧
        ∀ ω, plain.conic.Feasible ω → ∃ x ω' v, f.value (.total ω) = .ok v ∧ plain.Reads ω x v ∧
          inner.conic.Feasible ω' ∧ f'.value (.total ω') = .ok v ∧
            inner.Reads ω' (x.lift c.model inner.model lifting.axes) v := by
  obtain ⟨backend', lifted, lifting, d, inner, -, hlifted, hinner, hstage⟩ := build_eq_ok hbuild
  obtain ⟨hbase, -⟩ := AffineCompiler.model_of_build hplain
  obtain ⟨hover, -⟩ := AffineCompiler.model_of_build hinner
  obtain ⟨m, hp, hfill, -⟩ := AffineCompiler.build_eq_ok hplain
  obtain ⟨m', hp', hfill', -, -, hcompile'⟩ := AffineCompiler.build_eq_ok hinner
  obtain ⟨o, f, ho, hf, hreads, -⟩ := AffineCompiler.build_reads hplain
  obtain ⟨o', f', ho', hf', -, htakes⟩ := AffineCompiler.build_reads hinner
  have hmirrors := LiftedModel.build_mirrors hc hlifted
  obtain ⟨hobjective, hconstraints⟩ := Counterpart.compile_computes hcompile'
  obtain ⟨o₁, e', ho₁, he', -⟩ := hmirrors.objective
  obtain rfl : o = o₁ := Except.ok.inj (ho.symm.trans ho₁)
  obtain rfl : o' = .new o.sense e' := Except.ok.inj (ho'.symm.trans he')
  refine ⟨lifting, inner, o, f, f', hstage, ho, hf, hf', fun ω hω => ?_⟩
  obtain ⟨x, hx⟩ := hreads ω hω
  obtain ⟨ω₁, hω₁⟩ := hfill'.exists_rules
    (hmirrors.lengths_liftRules hmodel.wired hfill ω)
  have hfollows := LiftedModel.build_follows hc hmodel.wired hlifted hfill hfill' hω₁
  obtain ⟨ω', hω', hx', hv⟩ := htakes ω₁ (x.lift c.model lifted lifting.axes) (f.eval ω) <| by
    rw [← hbase, ← hover]
    exact hx.toTakes.lift (by rwa [hbase, hover]) (by rwa [hbase, hover])
      (by rw [hbase, ← hx.rules]; exact hω₁) (by rwa [hbase]) (by rwa [hover]) (by rwa [hover])
  exact ⟨x, ω', f.eval ω, f.value_total ω, hx, hω', hv ▸ f'.value_total ω', hover ▸ hx'⟩

/-- The resting model is built up from an empty one. -/
theorem reachable_resting : resting.Reachable :=
  RobustModel.edited_restingEdits ▸ (RobustModel.Reachable.new "segment" ⟨0⟩).edited _

private theorem exists_feasible_plain (settings : SolverSettings ℝ) :
    ∃ (plain : AffineCompiler ℝ Unit) (ω : ConicRef → ℝ),
      AffineCompiler.build (.new resting () settings ⟨3⟩) = .ok () plain ∧
      plain.conic.Feasible ω := by
  have hcompiles : (UncertainExpr.decision ⟨⟨0⟩, 0, 0⟩ : UncertainExpr ℝ).Compilable resting :=
    ⟨⟨by simp [UncertainExpr.decision, UncertainExpr.zero],
      by simpa [UncertainExpr.decision, UncertainExpr.zero] using ⟨_, rfl⟩,
      by simp [UncertainExpr.decision, UncertainExpr.zero]⟩,
      by simp [UncertainExpr.decision, UncertainExpr.zero],
      by simp [UncertainExpr.decision, UncertainExpr.zero]⟩
  have hresting : resting.Compilable :=
    ⟨⟨List.forall_mem_singleton.2 (List.forall_mem_singleton.2 ⟨_, rfl⟩),
      List.forall_mem_singleton.2 fun c hc => absurd hc List.not_mem_nil⟩, ⟨_, rfl, hcompiles⟩,
      List.forall_mem_singleton.2 hcompiles⟩
  refine exists_feasible_atRest hresting rfl rfl (List.forall_mem_singleton.2 rfl) rfl
    (fun p u => ?_) settings ⟨3⟩
  simp [UncertainExpr.underPolicies, UncertainExpr.eval, UncertainExpr.decision, UncertainExpr.zero]

/-- The resting policy of the unlifted model carries over to the lifted one, with the same value. -/
theorem build_dominates_resting : ∃ (c c' : LiftingCompiler ℝ Unit)
    (plain inner : AffineCompiler ℝ Unit) (ω ω' : ConicRef → ℝ) (x : CompiledValues) (v : ℝ),
    c.model = resting ∧ c.SeriesOver ∧ resting.Reachable ∧ ¬resting.HasExpectation ∧
      build c = .ok () c' ∧ c'.stage = .lifted ⟨[LiftedModel.halfAxis]⟩ inner ∧
        AffineCompiler.build (.new resting () c.settings ⟨3⟩) = .ok () plain ∧
          plain.conic.Feasible ω ∧ plain.Reads ω x v ∧ inner.conic.Feasible ω' ∧
            inner.Reads ω' (x.lift resting inner.model [LiftedModel.halfAxis]) v := by
  obtain ⟨b, hb⟩ := build_resting .empty
  have hseries : ∀ s ∈ [LiftedModel.halves], s.IsOver resting.uncertainty :=
    List.forall_mem_singleton.2 LiftedModel.halves_isOver
  have hlifts := LiftedModel.build_lifts hseries hb
  set settings : SolverSettings ℝ := ⟨none, none, false, 0, 0⟩
  obtain ⟨inner, hinner⟩ := AffineCompiler.build_succeeds (restingLifted_compilable (b := b)
    fun k hk v hv => by
      have hmem := (hlifts.valid 0 b rfl k hk).occurs v hv
      rw [hlifts.handles, Store.handles] at hmem
      obtain ⟨j, hj, rfl⟩ := List.mem_map.1 hmem
      exact List.mem_range.1 hj) () settings ⟨2⟩
  let c : LiftingCompiler ℝ Unit :=
    ⟨resting, ⟨false, false⟩, [LiftedModel.halves], settings, ⟨1⟩, ⟨2⟩, .collecting (), .empty⟩
  have hbuild := build_of_lifted (c := c) rfl hb hinner
  obtain ⟨plain, ω, hplain, hω⟩ := exists_feasible_plain settings
  have hexact : ¬resting.HasExpectation := by
    rintro (⟨k, hk, hmode⟩ | ⟨o, ho, hmode⟩)
    · rw [List.mem_singleton.1 hk] at hmode
      cases hmode
    · rw [← Except.ok.inj ho] at hmode
      cases hmode
  obtain ⟨lifting, inner', o, f, f', hstage, -, -, -, hdominates⟩ := build_dominates
    (c := c) hseries
    reachable_resting (fun h => absurd h hexact) hplain hbuild
  obtain ⟨rfl, rfl⟩ := LiftingStage.lifted.inj hstage
  obtain ⟨x, ω', v, -, hx, hω', -, hx'⟩ := hdominates ω hω
  exact ⟨c, _, plain, inner, ω, ω', x, v, rfl, hseries, reachable_resting, hexact, hbuild, rfl,
    hplain, hω, hx, hω', hx'⟩

end LiftingCompiler

end AdjustableRobust
