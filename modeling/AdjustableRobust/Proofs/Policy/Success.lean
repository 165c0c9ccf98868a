import AdjustableRobust.Proofs.Duality.Existence
import AdjustableRobust.Proofs.Policy.Compilation

/-!
# Compilation succeeds

A robust model compiles when its alternatives and expressions refer to its own variables, products
contain only decisions without dependencies, and no expression is an expectation. These are the
conditions that compilation checks on the way.
-/

namespace AdjustableRobust

/-- The expression refers to variables of the model, its products contain only decisions without
dependencies, and it is not an expectation. -/
structure UncertainExpr.Compilable (e : UncertainExpr ℝ) (model : RobustModel ℝ) : Prop where
  refers : e.RefersTo model
  /-- Decisions in products do not depend on uncertainties. -/
  fixed : ∀ v ∈ e.products.vars, ∀ d, model.decisionAt v.decision = .ok d → d.dependencies = []
  mode : e.mode ≠ .stochastic

/-- Decisions and alternatives refer to uncertainties of the model. -/
structure RobustModel.Grounded (model : RobustModel ℝ) : Prop where
  dependencies : ∀ d ∈ model.decisions.items, ∀ u ∈ d.dependencies,
    ∃ x, model.uncertainty.variableAt u = .ok x
  alternatives : ∀ alternative ∈ model.uncertainty.alternatives.items,
    ∀ c ∈ alternative.constraints, ∀ v ∈ c.expression.vars, v.slot < model.numUncertainties

/-- Everything in the model refers to its own variables. -/
structure RobustModel.Compilable (model : RobustModel ℝ) : Prop extends model.Grounded where
  objective : ∃ o, model.objective = .ok o ∧ o.expression.Compilable model
  constraints : ∀ c ∈ model.constraints, c.expression.Compilable model

/-- There are policy variables for every decision and every dependency. -/
def PolicyVariables.Covers (p : PolicyVariables) (model : RobustModel ℝ) : Prop :=
  ∀ (i : ℕ) (d : DecisionVariable ℝ), model.decisions.items[i]? = some d →
    (∃ fs, p.factors[i]? = some fs ∧ d.dependencies.length ≤ fs.length) ∧
      ∃ b, p.constants[i]? = some b

namespace Counterpart

variable {model : RobustModel ℝ} {p : PolicyVariables} {n : ℕ} {l : Lagrangian ℝ}
variable {e : UncertainExpr ℝ} {name : String}

/-! ## Dualizing -/

private theorem hasSize_addObjectiveTerm (hl : l.HasSize n) (c : ℝ) (v : ConicRef) :
    (addObjectiveTerm l c v).HasSize n := by
  rw [Lagrangian.HasSize, residuals_addObjectiveTerm]
  exact hl

private theorem addRow_yields {row : AffineExpr ℝ UncertaintyRef} {dv : ConicRef}
    (hl : l.HasSize n) (hrow : ∀ v ∈ row.vars, v.slot < n) :
    Yields (addRow l row dv) (Lagrangian.HasSize n) :=
  .foldlM (fun _ hl _ ht => Lagrangian.modifyResidual_yields hl (hrow _ (List.mem_map_of_mem ht)) _)
    (hasSize_addObjectiveTerm hl _ _)

private theorem declare_yields {name : String} {b : Bounds ℝ} :
    Step.Yields (declare name b) fun _ => True :=
  .ofChange fun _ => trivial

private theorem require_yields {name : String} {c : RawConstraint (ConicExpr ℝ ConicRef)} :
    Step.Yields (require name c) fun _ => True :=
  .modify

private theorem dualizeNorm_yields {k : NormedVector ℝ UncertaintyRef} {dv : ConicRef}
    (hl : l.HasSize n) (hk : ∀ v ∈ k.vars, v.slot < n) :
    Step.Yields (dualizeNorm l k dv name) (Lagrangian.HasSize n) := by
  refine Step.Yields.bind (P := fun _ => True) (.ofChange fun _ => trivial) fun duals _ => ?_
  refine Step.Yields.bind (P := Lagrangian.HasSize n) (.ofExcept (.foldlM ?_ hl)) fun l hl => ?_
  · intro l hl x hx
    refine addRow_yields hl fun v hv => hk v ?_
    exact List.mem_flatMap.2 ⟨x.1, (List.of_mem_zip hx).1, hv⟩
  · exact require_yields.bind fun _ _ => .pure hl

private theorem dualizeConstraint_yields {slot : ℕ} {c : UncertaintyConstraint ℝ}
    (hl : l.HasSize n) (hc : ∀ v ∈ c.expression.vars, v.slot < n) :
    Step.Yields (dualizeConstraint name slot l c) (Lagrangian.HasSize n) := by
  refine declare_yields.bind fun dv _ => ?_
  refine Step.Yields.bind (P := Lagrangian.HasSize n) (.ofExcept (addRow_yields hl ?_))
    fun l hl => ?_
  · intro v hv
    exact hc v (List.mem_append_right _ hv)
  · cases hk : c.expression.normed? with
    | none => exact .pure hl
    | some k =>
      refine dualizeNorm_yields hl fun v hv => hc v (List.mem_append_left _ ?_)
      simpa [hk] using hv

private theorem dualizeBounds_yields {slot : ℕ} {h : UncertaintyRef} {u : UncertaintyVariable ℝ}
    (hl : l.HasSize n) (hh : h.slot < n) :
    Step.Yields (dualizeBounds name slot l h u) (Lagrangian.HasSize n) := by
  have hrow : ∀ {l : Lagrangian ℝ} {c : ℝ} {dv : ConicRef}, l.HasSize n →
      Step.Yields (Step.ofExcept .store ((addObjectiveTerm l c dv).addResidual h 1 dv) :
        Step (ConicModel ℝ) (PolicyError ℝ) _) (Lagrangian.HasSize n) := fun hl =>
    .ofExcept (Lagrangian.modifyResidual_yields (hasSize_addObjectiveTerm hl _ _) hh _)
  unfold dualizeBounds
  cases u.bounds.lower? with
  | none =>
    refine Step.Yields.bind (.pure hl) fun l hl => ?_
    cases u.bounds.upper? with
    | none => exact .pure hl
    | some b => exact declare_yields.bind fun _ _ => hrow hl
  | some a =>
    refine declare_yields.bind fun _ _ => (hrow hl).bind fun l hl => ?_
    cases u.bounds.upper? with
    | none => exact .pure hl
    | some b => exact declare_yields.bind fun _ _ => hrow hl

private theorem dualizeAlternative_yields {set : ConstraintSetRef} {alternative : ConstraintSet ℝ}
    (halt : model.uncertainty.alternativeAt set = .ok alternative)
    (hslots : ∀ c ∈ alternative.constraints, ∀ v ∈ c.expression.vars,
      v.slot < model.numUncertainties) :
    Step.Yields (dualizeAlternative model name set)
      (Lagrangian.HasSize model.numUncertainties) := by
  refine .ofExcept_bind halt ?_
  refine Step.Yields.bind (P := Lagrangian.HasSize model.numUncertainties)
    (.foldlM (fun l hl c hc => dualizeConstraint_yields hl (hslots c hc))
      (List.length_replicate ..)) fun l hl => ?_
  exact .foldlM (fun l hl x hx => dualizeBounds_yields hl (Store.slot_lt_of_mem_entries hx)) hl

/-! ## Adding expressions -/

private theorem addDecisionTerm_yields (hmodel : model.Grounded) (hp : p.Covers model)
    {t : Term ℝ DecisionRef} (hl : l.HasSize model.numUncertainties)
    (ht : ∃ d, model.decisionAt t.var = .ok d) :
    Yields (addDecisionTerm model p l t) (Lagrangian.HasSize model.numUncertainties) := by
  obtain ⟨d, hd⟩ := ht
  have hitem := (RobustModel.decisionAt_eq_ok_iff.1 hd).2.2
  obtain ⟨⟨fs, hfs, hlen⟩, b, hb⟩ := hp _ _ hitem
  refine .bind_ok (mapError_eq_ok_iff.2 hd) ?_
  refine Yields.bind (P := Lagrangian.HasSize model.numUncertainties) (.foldlM ?_ hl)
    fun l hl => ?_
  · rintro l hl ⟨u, i⟩ hu
    obtain ⟨hi, hget⟩ := List.mem_zipIdx' hu
    obtain ⟨x, hx⟩ := hmodel.dependencies _ (List.mem_of_getElem? hitem) u
      (hget ▸ List.getElem_mem hi)
    have hfactor : p.factor t.var i = .ok fs[i] :=
      PolicyVariables.factor_eq_ok_iff.2 ⟨fs, hfs, List.getElem?_eq_getElem (hi.trans_le hlen)⟩
    refine .bind_ok (mapError_eq_ok_iff.2 hfactor) ?_
    exact .mapError (Lagrangian.modifyResidual_yields hl
      (UncertaintySet.slot_lt_of_variableAt hx) _)
  · have hconstant : p.constant t.var = .ok b := PolicyVariables.constant_eq_ok_iff.2 hb
    exact .bind_ok (mapError_eq_ok_iff.2 hconstant) (.pure (hasSize_addObjectiveTerm hl _ _))

private theorem addUncertaintyTerms_yields
    (he : ∀ v ∈ e.uncertainties.vars, ∃ x, model.uncertainty.variableAt v = .ok x)
    (hl : l.HasSize model.numUncertainties) :
    Yields (e.uncertainties.terms.foldlM (addUncertaintyTerm model) l)
      (Lagrangian.HasSize model.numUncertainties) := by
  refine .foldlM (fun l hl t ht => ?_) hl
  obtain ⟨x, hx⟩ := he t.var (List.mem_map_of_mem ht)
  refine .bind_ok (mapError_eq_ok_iff.2 hx) ?_
  exact .mapError (Lagrangian.modifyResidual_yields hl (UncertaintySet.slot_lt_of_variableAt hx) _)

private theorem addExpression_yields (hmodel : model.Grounded) (hp : p.Covers model)
    (he : e.RefersTo model)
    (hfixed : ∀ v ∈ e.products.vars, ∀ d, model.decisionAt v.decision = .ok d →
      d.dependencies = []) (hl : l.HasSize model.numUncertainties) :
    Yields (addExpression model p l e) (Lagrangian.HasSize model.numUncertainties) := by
  refine Yields.bind (addUncertaintyTerms_yields he.uncertainties hl) fun l hl => ?_
  refine Yields.bind (P := Lagrangian.HasSize model.numUncertainties) (.foldlM ?_ hl)
    fun l hl => ?_
  · intro l hl t ht
    exact addDecisionTerm_yields hmodel hp hl (he.decisions t.var (List.mem_map_of_mem ht))
  refine Yields.bind (P := Lagrangian.HasSize model.numUncertainties) (.foldlM ?_ hl)
    fun l hl => .pure hl
  intro l hl t ht
  obtain ⟨⟨x, hx⟩, d, hd⟩ := he.products t.var (List.mem_map_of_mem ht)
  have hdependencies := hfixed t.var (List.mem_map_of_mem ht) d hd
  obtain ⟨-, b, hb⟩ := hp _ _ (RobustModel.decisionAt_eq_ok_iff.1 hd).2.2
  refine Yields.bind (P := fun _ => True) ?_ fun b _ => ?_
  · refine .bind_ok (mapError_eq_ok_iff.2 hd) ?_
    rw [hdependencies]
    exact .mapError ⟨b, PolicyVariables.constant_eq_ok_iff.2 hb, trivial⟩
  · refine .bind_ok (mapError_eq_ok_iff.2 hx) ?_
    exact .mapError (Lagrangian.modifyResidual_yields hl
      (UncertaintySet.slot_lt_of_variableAt hx) _)

/-- Without decisions only the uncertainties have to be those of the model. -/
theorem addExpression_yields_of_uncertain
    (he : ∀ v ∈ e.uncertainties.vars, ∃ x, model.uncertainty.variableAt v = .ok x)
    (hdecisions : e.decisions.terms = []) (hproducts : e.products.terms = [])
    (hl : l.HasSize model.numUncertainties) :
    Yields (addExpression model p l e) (Lagrangian.HasSize model.numUncertainties) := by
  unfold addExpression
  rw [hdecisions, hproducts]
  exact Yields.bind (addUncertaintyTerms_yields he hl) fun l hl =>
    Yields.bind (P := Lagrangian.HasSize model.numUncertainties) (.pure hl) fun l hl =>
      Yields.bind (P := Lagrangian.HasSize model.numUncertainties) (.pure hl) fun l hl => .pure hl

/-! ## Compiling -/

private theorem requireResiduals_yields {name : String → String} :
    Step.Yields (requireResiduals model l name) fun _ => True :=
  .forM fun _ _ => require_yields

/-- The counterpart of an expression over the alternatives exists when they refer to uncertainties
of the model and the expression can be added. -/
theorem robust_yields_of_addExpression
    (halternatives : ∀ alternative ∈ model.uncertainty.alternatives.items,
      ∀ c ∈ alternative.constraints, ∀ v ∈ c.expression.vars, v.slot < model.numUncertainties)
    (hadd : ∀ l : Lagrangian ℝ, l.HasSize model.numUncertainties →
      Yields (addExpression model p l e) (Lagrangian.HasSize model.numUncertainties)) :
    Step.Yields (robust model p e name) fun _ => True := by
  refine declare_yields.bind fun v _ => ?_
  refine Step.Yields.bind (P := fun _ => True) ?_ fun os _ => ?_
  · refine fun m => (Step.Yields.mapM (Q := fun _ => True) fun set hset => ?_) m |>.imp
      fun _ => .imp fun _ h => ⟨h.1, trivial⟩
    obtain ⟨i, hi, rfl⟩ := List.mem_map.1 hset
    have hlt : i < model.uncertainty.alternatives.items.length := List.mem_range.1 hi
    have halt : model.uncertainty.alternativeAt (model.uncertainty.alternatives.handleFor i) =
        .ok model.uncertainty.alternatives.items[i] :=
      UncertaintySet.alternativeAt_eq_ok_iff.2 ⟨rfl, rfl, List.getElem?_eq_getElem hlt⟩
    refine Step.Yields.bind (P := fun _ => True) ?_ fun o _ => ?_
    · refine (dualizeAlternative_yields halt
        (halternatives _ (List.getElem_mem hlt))).bind fun l hl => ?_
      refine Step.Yields.bind (.ofExcept (hadd l hl)) fun l _ => ?_
      exact requireResiduals_yields.bind fun _ _ => .pure trivial
    · split
      · exact require_yields.bind fun _ _ => .pure trivial
      · exact .pure trivial
  · split
    · exact require_yields.bind fun _ _ => .pure trivial
    · exact .pure trivial

/-- The counterpart of a compilable expression exists. -/
theorem robust_yields (hmodel : model.Grounded) (hp : p.Covers model)
    (he : e.Compilable model) : Step.Yields (robust model p e name) fun _ => True :=
  robust_yields_of_addExpression hmodel.alternatives fun _ hl =>
    addExpression_yields hmodel hp he.refers he.fixed hl

private theorem counterpart_yields (hmodel : model.Grounded) (hp : p.Covers model)
    (he : e.Compilable model) : Step.Yields (counterpart model p e name) fun _ => True := by
  unfold counterpart
  cases hmode : e.mode with
  | stochastic => exact absurd hmode he.mode
  | union => exact robust_yields hmodel hp he
  | average => exact robust_yields hmodel hp he

private theorem compilable_negate (he : e.Compilable model) : e.negate.Compilable model where
  refers := UncertainExpr.refersTo_negate_iff.2 he.refers
  fixed := by
    simpa only [UncertainExpr.negate, UncertainExpr.scale, LinearExpr.vars_scale] using he.fixed
  mode := he.mode

/-- A compilable equality compiles. -/
theorem compileEquality_yields (hmodel : model.Grounded) (hp : p.Covers model)
    (he : e.Compilable model) : Step.Yields (compileEquality model p e name) fun _ => True := by
  unfold compileEquality
  rw [if_neg he.mode]
  dsimp only
  split
  · exact .pure trivial
  · have hrefers : e.simplify.RefersTo model :=
      ⟨fun v hv => he.refers.uncertainties v (LinearExpr.vars_simplify_subset _ hv),
        fun v hv => he.refers.decisions v (LinearExpr.vars_simplify_subset _ hv),
        fun v hv => he.refers.products v (LinearExpr.vars_simplify_subset _ hv)⟩
    refine Step.Yields.bind (.ofExcept (addExpression_yields hmodel hp hrefers
      (fun v hv => he.fixed v (LinearExpr.vars_simplify_subset _ hv))
      (List.length_replicate ..))) fun l _ => ?_
    exact requireResiduals_yields.bind fun _ _ => require_yields

private theorem compileConstraint_yields {c : RawConstraint (UncertainExpr ℝ)}
    (hmodel : model.Grounded) (hp : p.Covers model) (hc : c.expression.Compilable model) :
    Step.Yields (compileConstraint model p name c) fun _ => True := by
  obtain ⟨sense, e⟩ := c
  cases sense with
  | geq => exact (counterpart_yields hmodel hp hc).bind fun _ _ => require_yields
  | leq =>
    exact (counterpart_yields hmodel hp (compilable_negate hc)).bind fun _ _ => require_yields
  | eq => exact compileEquality_yields hmodel hp hc

private theorem compileBounds_yields {h : DecisionRef} {d : DecisionVariable ℝ}
    (hmodel : model.Grounded) (hp : p.Covers model) (hd : model.decisionAt h = .ok d) :
    Step.Yields (compileBounds model p h d) fun _ => True := by
  have hbound : ∀ s b,
      ((UncertainExpr.decision h).relateValue s b).expression.Compilable model := by
    intro s b
    refine ⟨⟨?_, ?_, ?_⟩, ?_, ?_⟩ <;>
      simp [UncertainExpr.relateValue, UncertainExpr.addConstant, UncertainExpr.decision,
        UncertainExpr.zero, hd]
  refine Step.Yields.bind (P := fun _ => True) ?_ fun _ _ => ?_
  · cases d.bounds.lower? with
    | none => exact .pure trivial
    | some b => exact compileConstraint_yields hmodel hp (hbound .geq b)
  · cases d.bounds.upper? with
    | none => exact .pure trivial
    | some b => exact compileConstraint_yields hmodel hp (hbound .leq b)

/-- A compilable model compiles. -/
theorem compile_yields (hmodel : model.Compilable) (hp : p.Covers model) :
    Step.Yields (compile model p) fun _ => True := by
  refine Step.Yields.bind (P := fun _ => True) ?_ fun _ _ => ?_
  · obtain ⟨o, ho, hcompilable⟩ := hmodel.objective
    refine .ofExcept_bind ho ?_
    cases hsense : o.sense with
    | maximize =>
      exact (counterpart_yields hmodel.toGrounded hp hcompilable).bind fun _ _ => .modify
    | minimize =>
      have hopposite := compilable_negate hcompilable
      exact (counterpart_yields hmodel.toGrounded hp hopposite).bind fun _ _ => .modify
  · refine Step.Yields.bind (.forM fun c hc => ?_) fun _ _ => .forM fun d hd => ?_
    · exact compileConstraint_yields hmodel.toGrounded hp (hmodel.constraints c hc)
    · obtain ⟨i, hi, hh⟩ := Store.mem_entries_iff.1 hd
      refine compileBounds_yields hmodel.toGrounded hp (RobustModel.decisionAt_eq_ok_iff.2 ?_)
      rw [hh]
      exact ⟨rfl, rfl, hi⟩

end Counterpart

end AdjustableRobust
