import AdjustableRobust.Proofs.Expression.CanonicalForm
import AdjustableRobust.Proofs.Policy.Build
import AdjustableRobust.Proofs.Policy.Expectation
import AdjustableRobust.Proofs.Robust.Edits

/-!
# Owners of compiled handles

A handle belongs to the store that issued it. A model is compiled only if its objective and its
constraints refer to decisions of the model, in every mode, and to its uncertainties, unless an
expectation is meant. Constraints on the uncertainty and the uncertainties of expectations are
resolved by position alone, whoever issued their handles.
-/

namespace AdjustableRobust

/-! ## What expressions refer to -/

namespace UncertainExpr

variable {e : UncertainExpr ℝ} {model : RobustModel ℝ}

/-- A decision of another model occurs, alone or in a product, and does not cancel. -/
def HasForeignDecision (e : UncertainExpr ℝ) (model : RobustModel ℝ) : Prop :=
  (∃ d, d.owner ≠ model.decisions.owner ∧ e.decisions.coefficient d ≠ 0) ∨
    ∃ v, v.decision.owner ≠ model.decisions.owner ∧ e.products.coefficient v ≠ 0

/-- An uncertainty of another model occurs, alone or in a product, and does not cancel. -/
def HasForeignUncertainty (e : UncertainExpr ℝ) (model : RobustModel ℝ) : Prop :=
  (∃ u, u.owner ≠ model.uncertainty.vars.owner ∧ e.uncertainties.coefficient u ≠ 0) ∨
    ∃ v, v.uncertainty.owner ≠ model.uncertainty.vars.owner ∧ e.products.coefficient v ≠ 0

/-- What does not cancel are decisions of the model, and uncertainties of the model unless an
expectation is meant. -/
structure Resolved (e : UncertainExpr ℝ) (model : RobustModel ℝ) : Prop where
  decisions : ∀ d, e.decisions.coefficient d ≠ 0 → ∃ x, model.decisionAt d = .ok x
  /-- Decisions in products. -/
  decided : ∀ v, e.products.coefficient v ≠ 0 → ∃ x, model.decisionAt v.decision = .ok x
  uncertainties : e.mode ≠ .stochastic → ∀ u, e.uncertainties.coefficient u ≠ 0 →
    ∃ x, model.uncertainty.variableAt u = .ok x
  /-- Uncertainties in products. -/
  factors : e.mode ≠ .stochastic → ∀ v, e.products.coefficient v ≠ 0 →
    ∃ x, model.uncertainty.variableAt v.uncertainty = .ok x

namespace Resolved

/-- In a resolved expression no decision is one of another model. -/
theorem not_hasForeignDecision (h : e.Resolved model) : ¬e.HasForeignDecision model := by
  rintro (⟨d, howner, hd⟩ | ⟨v, howner, hv⟩)
  · obtain ⟨x, hx⟩ := h.decisions d hd
    exact howner (RobustModel.decisionAt_eq_ok_iff.1 hx).1
  · obtain ⟨x, hx⟩ := h.decided v hv
    exact howner (RobustModel.decisionAt_eq_ok_iff.1 hx).1

/-- Unless an expectation is meant, in a resolved expression no uncertainty is one of another
model. -/
theorem not_hasForeignUncertainty (h : e.Resolved model) (hmode : e.mode ≠ .stochastic) :
    ¬e.HasForeignUncertainty model := by
  rintro (⟨u, howner, hu⟩ | ⟨v, howner, hv⟩)
  · obtain ⟨x, hx⟩ := h.uncertainties hmode u hu
    exact howner (UncertaintySet.variableAt_eq_ok_iff.1 hx).1
  · obtain ⟨x, hx⟩ := h.factors hmode v hv
    exact howner (UncertaintySet.variableAt_eq_ok_iff.1 hx).1

/-- An expression that refers to the model is resolved. -/
theorem of_refersTo (h : e.RefersTo model) : e.Resolved model where
  decisions d hd := h.decisions d (LinearExpr.mem_vars_of_coefficient hd)
  decided v hv := (h.products v (LinearExpr.mem_vars_of_coefficient hv)).2
  uncertainties _ u hu := h.uncertainties u (LinearExpr.mem_vars_of_coefficient hu)
  factors _ v hv := (h.products v (LinearExpr.mem_vars_of_coefficient hv)).1

/-- An expression that cancels is resolved. -/
theorem of_isZero (h : e.isZero) : e.Resolved model := by
  simp only [isZero, Bool.and_eq_true] at h
  obtain ⟨⟨⟨-, hdecisions⟩, huncertainties⟩, hproducts⟩ := h
  have hnone := LinearExpr.coefficient_of_isZero hproducts
  exact ⟨fun d hd => absurd (LinearExpr.coefficient_of_isZero hdecisions d) hd,
    fun v hv => absurd (hnone v) hv,
    fun _ u hu => absurd (LinearExpr.coefficient_of_isZero huncertainties u) hu,
    fun _ v hv => absurd (hnone v) hv⟩

/-- Merging repeated variables resolves nothing. -/
theorem of_simplify (h : e.simplify.Resolved model) : e.Resolved model := by
  obtain ⟨hdecisions, hdecided, huncertainties, hfactors⟩ := h
  simp only [simplify, LinearExpr.coefficient_simplify]
    at hdecisions hdecided huncertainties hfactors
  exact ⟨hdecisions, hdecided, huncertainties, hfactors⟩

/-- The opposite refers to the same. -/
theorem of_negate (h : e.negate.Resolved model) : e.Resolved model := by
  obtain ⟨hdecisions, hdecided, huncertainties, hfactors⟩ := h
  simp only [negate, scale, LinearExpr.coefficient_scale, mul_neg_one, neg_ne_zero]
    at hdecisions hdecided huncertainties hfactors
  exact ⟨hdecisions, hdecided, huncertainties, hfactors⟩

end Resolved

end UncertainExpr

namespace Counterpart

variable {model : RobustModel ℝ} {p : PolicyVariables} {m m' : ConicModel ℝ}
variable {e : UncertainExpr ℝ} {name : String}

/-- An expectation is computed at some outcome at least, where the decisions are looked up. -/
theorem resolved_of_stochastic (hmode : e.mode = .stochastic) {f : AffineExpr ℝ ConicRef}
    (hrun : stochastic model p e = .ok f) : e.Resolved model := by
  simp only [stochastic, bind_eq_ok_iff, PolicyError.fromModel, mapError_eq_ok_iff] at hrun
  obtain ⟨d, -, -, -, xs, hxs, -⟩ := hrun
  obtain ⟨sum, hsum, -⟩ := bind_eq_ok_iff.1 hxs
  obtain ⟨-, -, -, hsome, -⟩ := Distribution.sum_of_total hsum
  refine hsome (fun _ => e.Resolved model) (fun _ _ _ _ h _ => h) fun r v hrun => ?_
  simp only [constantContributions, bind_eq_ok_iff] at hrun
  obtain ⟨_, ⟨ds, hds, ps, hps, -⟩, -⟩ := hrun
  refine ⟨fun d hd => ?_, fun v hv => ?_, fun h => absurd hmode h, fun h => absurd hmode h⟩
  · obtain ⟨t, ht, rfl⟩ := List.mem_map.1 (LinearExpr.mem_vars_of_coefficient hd)
    obtain ⟨y, hy⟩ := exists_of_mapM_eq_ok hds ht
    exact (bind_eq_ok_iff.1 hy).imp fun _ h => h.1
  · obtain ⟨t, ht, rfl⟩ := List.mem_map.1 (LinearExpr.mem_vars_of_coefficient hv)
    obtain ⟨y, hy⟩ := exists_of_mapM_eq_ok hps ht
    exact (bind_eq_ok_iff.1 hy).imp fun _ h => h.1

/-- The worst case is compiled for some alternative at least, where every variable is looked up. -/
theorem refersTo_of_robust (hmodel : 0 < model.uncertainty.alternatives.size)
    {f : AffineExpr ℝ ConicRef} (hrun : robust model p e name m = .ok f m') : e.RefersTo model := by
  simp only [robust, Step.bind_eq_ok_iff] at hrun
  obtain ⟨_, m₁, -, os, m₂, hobjectives, -⟩ := hrun
  have hfirst :
      model.uncertainty.alternatives.handleFor 0 ∈ model.uncertainty.alternatives.handles :=
    List.mem_map.2 ⟨0, List.mem_range.2 hmodel, rfl⟩
  refine Step.mapM_forall (Q := fun _ => e.RefersTo model) (fun set _ s o t hrun => ?_) hobjectives
    _ hfirst
  obtain ⟨o, s', hdual, -⟩ := Step.bind_eq_ok_iff.1 hrun
  simp only [dualObjective, Step.bind_eq_ok_iff, Step.ofExcept_eq_ok_iff] at hdual
  obtain ⟨l, s₁, -, l', s₂, ⟨hadd, -⟩, -⟩ := hdual
  exact (addExpression_eq_ok hadd).1

/-- An expression whose counterpart is compiled is resolved. -/
theorem resolved_of_counterpart (hmodel : 0 < model.uncertainty.alternatives.size)
    {f : AffineExpr ℝ ConicRef} (hrun : counterpart model p e name m = .ok f m') :
    e.Resolved model := by
  unfold counterpart at hrun
  cases hmode : e.mode with
  | stochastic =>
    rw [hmode, Step.ofExcept_eq_ok_iff] at hrun
    exact resolved_of_stochastic hmode hrun.1
  | union =>
    rw [hmode] at hrun
    exact .of_refersTo (refersTo_of_robust hmodel hrun)
  | average =>
    rw [hmode] at hrun
    exact .of_refersTo (refersTo_of_robust hmodel hrun)

/-- An equality that is compiled is resolved once repeated variables are merged. -/
theorem resolved_of_compileEquality {u : Unit}
    (hrun : compileEquality model p e name m = .ok u m') : e.Resolved model := by
  obtain ⟨hzero, -⟩ | ⟨-, l, m₁, hadd, -⟩ := compileEquality_eq_ok hrun
  · exact .of_simplify (.of_isZero hzero)
  · exact .of_simplify (.of_refersTo (addExpression_eq_ok hadd).1)

/-- A constraint that is compiled is resolved. -/
theorem resolved_of_compileConstraint (hmodel : 0 < model.uncertainty.alternatives.size)
    {c : RawConstraint (UncertainExpr ℝ)} {u : Unit}
    (hrun : compileConstraint model p name c m = .ok u m') : c.expression.Resolved model := by
  by_cases hsense : c.sense = .eq
  · rw [compileConstraint, hsense] at hrun
    exact resolved_of_compileEquality hrun
  · obtain ⟨f, m₁, hcounterpart⟩ := exists_counterpart_of_compileConstraint hsense hrun
    have hmargin := resolved_of_counterpart hmodel hcounterpart
    obtain ⟨sense, e⟩ := c
    cases sense with
    | geq => exact hmargin
    | leq => exact .of_negate hmargin
    | eq => exact absurd rfl hsense

/-- Objective and constraints of a model that is compiled are resolved. -/
theorem resolved_of_compile (hmodel : 0 < model.uncertainty.alternatives.size) {u : Unit}
    (hrun : compile model p m = .ok u m') :
    (∀ o, model.objective? = some o → o.expression.Resolved model) ∧
      ∀ c ∈ model.constraints, c.expression.Resolved model := by
  constructor
  · intro o ho
    obtain ⟨f, m₁, hcounterpart⟩ :=
      exists_counterpart_of_compile hrun (by rw [RobustModel.objective, ho])
    have hgain := resolved_of_counterpart hmodel hcounterpart
    obtain ⟨sense, e, value?⟩ := o
    cases sense with
    | maximize => exact hgain
    | minimize => exact .of_negate hgain
  · intro c hc
    obtain ⟨s, t, -, hstep, -⟩ := compile_passes hrun hc
    exact resolved_of_compileConstraint hmodel hstep

end Counterpart

/-- The expressions of objective and constraints. -/
def RobustModel.expressions (m : RobustModel ℝ) : List (UncertainExpr ℝ) :=
  m.objective?.toList.map (·.expression) ++ m.constraints.map (·.expression)

namespace AffineCompiler

variable {β : Type}

/-- Isolation of owners: a model is not compiled when its objective or a constraint, in whatever
mode, contains a decision of another model that does not cancel, alone or in a product, or, unless
it is about an expectation, an uncertainty of another model. -/
theorem build_isolates (c : AffineCompiler ℝ β) (hc : c.model.Reachable)
    (hforeign : ∃ e ∈ c.model.expressions, e.HasForeignDecision c.model ∨
      e.mode ≠ .stochastic ∧ e.HasForeignUncertainty c.model) :
    ∃ err c', build c = .error err c' := by
  cases hrun : build c with
  | error err c' => exact ⟨err, c', rfl⟩
  | ok u c' =>
    obtain ⟨-, d, conic, -, hcompile, -⟩ := steps_of_build hrun
    obtain ⟨hobjective, hconstraints⟩ :=
      Counterpart.resolved_of_compile hc.wired.alternatives hcompile
    obtain ⟨e, he, hforeign⟩ := hforeign
    have hresolved : e.Resolved c.model := by
      rcases List.mem_append.1 he with he | he
      · obtain ⟨o, ho, rfl⟩ := List.mem_map.1 he
        exact hobjective o (Option.mem_toList.1 ho)
      · obtain ⟨k, hk, rfl⟩ := List.mem_map.1 he
        exact hconstraints k hk
    rcases hforeign with hforeign | ⟨hmode, hforeign⟩
    · exact absurd hforeign hresolved.not_hasForeignDecision
    · exact absurd hforeign (hresolved.not_hasForeignUncertainty hmode)

/-- A model with an uncertainty of its own, and what is put into it. -/
noncomputable def strayed (edits : List RobustModel.Edit) : RobustModel ℝ :=
  (RobustModel.new "strayed" ⟨0⟩).edited (.uncertainty "u" none none none :: edits)

/-- The objective is a decision of another model, at the position of the own one. -/
noncomputable def strayedDecision : RobustModel ℝ :=
  strayed [.decision "x" none none none, .objective (.new .maximize (.decision ⟨⟨1⟩, 0, 0⟩))]

/-- A model with a decision of another model is refused. -/
theorem build_isolates_strayedDecision : ∃ err c',
    build (new strayedDecision () ⟨none, none, false, 0, 0⟩ ⟨2⟩) = .error err c' := by
  refine build_isolates _ ((RobustModel.Reachable.new "strayed" ⟨0⟩).edited _)
    ⟨.decision ⟨⟨1⟩, 0, 0⟩, List.mem_append_left _ (List.mem_singleton.2 rfl), .inl (.inl
      ⟨⟨⟨1⟩, 0, 0⟩, by decide, ?_⟩)⟩
  rw [LinearExpr.coefficient_eq_eval]
  simp [UncertainExpr.decision]

/-- The own uncertainty is constrained through one of another model at its position. -/
noncomputable def strayedSet : RobustModel ℝ :=
  strayed [.uncertaintyConstraint "cap" ⟨.leq, .ofAffine ⟨-1, .var ⟨⟨1⟩, 0, 0⟩⟩⟩,
    .objective (.new .maximize .zero)]

/-- The objective is the expectation of an uncertainty of another model. -/
noncomputable def strayedMean : RobustModel ℝ :=
  strayed [.distribution (.empirical [[1]]),
    .objective (.new .maximize ((UncertainExpr.uncertainty ⟨⟨1⟩, 0, 0⟩).withMode .stochastic))]

/-- Constraints on the uncertainty, and the uncertainties of expectations, are not isolated: both
models are compiled with what is at the position of the strayed uncertainty. -/
theorem build_accepts_strayed :
    (∃ a ∈ strayedSet.uncertainty.alternatives.items, ∃ k ∈ a.constraints, ∃ u : UncertaintyRef,
      u.owner ≠ strayedSet.uncertainty.vars.owner ∧
        k.expression.affine.linear.coefficient u ≠ 0) ∧
    (∃ c, build (new strayedSet () ⟨none, none, false, 0, 0⟩ ⟨2⟩) = .ok () c) ∧
    (∃ e ∈ strayedMean.expressions, e.HasForeignUncertainty strayedMean) ∧
    ∃ c, build (new strayedMean () ⟨none, none, false, 0, 0⟩ ⟨2⟩) = .ok () c := by
  have hcoefficient : (LinearExpr.var ⟨⟨1⟩, 0, 0⟩ : LinearExpr ℝ UncertaintyRef).coefficient
      ⟨⟨1⟩, 0, 0⟩ ≠ 0 := by
    rw [LinearExpr.coefficient_eq_eval]
    simp
  have hset : strayedSet.Compilable := by
    refine ⟨⟨fun d hd => ?_, ?_⟩, ⟨_, rfl, ⟨⟨?_, ?_, ?_⟩, ?_, ?_⟩⟩, fun c hc => ?_⟩
    · cases hd
    · refine List.forall_mem_singleton.2 (List.forall_mem_singleton.2 ?_)
      exact List.forall_mem_singleton.2 Nat.one_pos
    · simp [Objective.new, UncertainExpr.zero]
    · simp [Objective.new, UncertainExpr.zero]
    · simp [Objective.new, UncertainExpr.zero]
    · simp [Objective.new, UncertainExpr.zero]
    · simp [Objective.new, UncertainExpr.zero]
    · cases hc
  exact ⟨⟨_, List.mem_singleton.2 rfl, _, List.mem_singleton.2 rfl, ⟨⟨1⟩, 0, 0⟩, by decide,
    hcoefficient⟩, build_succeeds hset _ _ _, ⟨_, List.mem_singleton.2 rfl, .inl
      ⟨⟨⟨1⟩, 0, 0⟩, by decide, hcoefficient⟩⟩, _, rfl⟩

end AffineCompiler

end AdjustableRobust
