import AdjustableRobust.Policy.Affine
import AdjustableRobust.Proofs.Policy.Success

/-!
# Soundness of the affine compiler

Building declares the policy variables and compiles the robust model. Whatever satisfies the
compiled model gives policies that are robust: at every realization their decisions satisfy the
constraints and bounds of the robust model, and the compiled objective does not promise more than
the robust model keeps.
-/

namespace AdjustableRobust

variable {model : RobustModel ℝ} {p : PolicyVariables} {ω : ConicRef → ℝ}

/-! ## Robust policies -/

namespace RawConstraint.Ensured

variable {c : RawConstraint (UncertainExpr ℝ)}

/-- In union mode an ensured constraint holds at every realization. -/
theorem holds_union (h : c.Ensured model p ω) (hmode : c.expression.mode = .union)
    {alternative : ConstraintSet ℝ} (halt : alternative ∈ model.uncertainty.alternatives.items)
    {r : List ℝ} (hr : model.uncertainty.Realizes alternative r) :
    c.sense.Holds (c.expression.underPolicies model p ω (entryAt r)) := by
  obtain ⟨sense, e⟩ := c
  have hne : e.mode ≠ .stochastic := by simp [show e.mode = .union from hmode]
  cases sense with
  | geq =>
    obtain ⟨v, hv, hnonneg⟩ := h
    exact hnonneg.trans ((hv.certifiedBelow hne).le_union hmode halt hr)
  | leq =>
    obtain ⟨v, hv, hnonneg⟩ := h
    have hle := hnonneg.trans ((hv.certifiedBelow hne).le_union hmode halt hr)
    rw [UncertainExpr.underPolicies_negate] at hle
    exact neg_nonneg.1 hle
  | eq => exact h _

/-- In average mode the mean of an ensured constraint is in relation to zero for any choice of
one realization for each alternative. -/
theorem holds_average (h : c.Ensured model p ω) (hmode : c.expression.mode = .average)
    {rs : List (List ℝ)}
    (hrs : List.Forall₂ model.uncertainty.Realizes model.uncertainty.alternatives.items rs) :
    c.sense.Holds
      ((rs.map fun r => c.expression.underPolicies model p ω (entryAt r)).sum / rs.length) := by
  obtain ⟨sense, e⟩ := c
  have hne : e.mode ≠ .stochastic := by simp [show e.mode = .average from hmode]
  cases sense with
  | geq =>
    obtain ⟨v, hv, hnonneg⟩ := h
    exact hnonneg.trans ((hv.certifiedBelow hne).le_average hmode hrs)
  | leq =>
    obtain ⟨v, hv, hnonneg⟩ := h
    have hle := hnonneg.trans ((hv.certifiedBelow hne).le_average hmode hrs)
    simp only [UncertainExpr.underPolicies_negate] at hle
    have hsum := List.sum_neg (rs.map fun r => e.underPolicies model p ω (entryAt r))
    rw [List.map_map, Function.comp_def] at hsum
    rw [← hsum, neg_div] at hle
    exact neg_nonneg.1 hle
  | eq =>
    have hzero : ∀ u, e.underPolicies model p ω u = 0 := h
    simp [ConstraintSense.Holds, hzero]

end RawConstraint.Ensured

/-- In union mode a compiled objective is no better than the objective at any realization. -/
theorem RobustObjective.CompiledValue.bounds_union {o : RobustObjective ℝ} {v : ℝ}
    (h : RobustObjective.CompiledValue o model p ω v) (hmode : o.expression.mode = .union)
    {alternative : ConstraintSet ℝ} (halt : alternative ∈ model.uncertainty.alternatives.items)
    {r : List ℝ} (hr : model.uncertainty.Realizes alternative r) :
    match o.sense with
    | .minimize => o.expression.underPolicies model p ω (entryAt r) ≤ v
    | .maximize => v ≤ o.expression.underPolicies model p ω (entryAt r) := by
  have hne : o.expression.mode ≠ .stochastic := by simp [hmode]
  rw [CompiledValue] at h
  cases hsense : o.sense with
  | maximize =>
    rw [hsense] at h
    exact (h.certifiedBelow hne).le_union hmode halt hr
  | minimize =>
    rw [hsense] at h
    have hle := (h.certifiedBelow hne).le_union hmode halt hr
    rw [UncertainExpr.underPolicies_negate] at hle
    exact neg_le_neg_iff.1 hle

/-- The decisions of the policies satisfy the robust model at every realization: constraints in
union mode hold, constraints in average mode hold for the mean over any choice of one realization
for each alternative, and decisions respect their bounds. -/
structure PolicyVariables.Robust (p : PolicyVariables) (model : RobustModel ℝ)
    (ω : ConicRef → ℝ) : Prop where
  union : ∀ c ∈ model.constraints, c.sense ≠ .eq → c.expression.mode = .union →
    ∀ alternative ∈ model.uncertainty.alternatives.items, ∀ r,
      model.uncertainty.Realizes alternative r →
        (Solution.mk model r (p.decisions model ω r)).satisfies c 0 = .ok true
  average : ∀ c ∈ model.constraints, c.sense ≠ .eq → c.expression.mode = .average →
    ∀ rs, List.Forall₂ model.uncertainty.Realizes model.uncertainty.alternatives.items rs →
      ∃ xs, List.Forall₂ (fun r x =>
          (Solution.mk model r (p.decisions model ω r)).evaluate c.expression = .ok x) rs xs ∧
        c.sense.Holds (xs.sum / xs.length)
  bounds : ∀ alternative ∈ model.uncertainty.alternatives.items, ∀ r,
    model.uncertainty.Realizes alternative r →
      List.Forall₂ (fun d x => d.bounds.admits x = true) model.decisions.items
        (p.decisions model ω r)

/-- The value that a compiled objective promises is no better than what the objective of the
robust model is worth at any realization. -/
def PolicyVariables.KeepsPromise (p : PolicyVariables) (model : RobustModel ℝ)
    (ω : ConicRef → ℝ) (sense : ObjectiveSense) (promised : ℝ) : Prop :=
  ∀ alternative ∈ model.uncertainty.alternatives.items, ∀ r,
    model.uncertainty.Realizes alternative r →
      ∃ x, (Solution.mk model r (p.decisions model ω r)).objectiveFor model = .ok x ∧
        match sense with
        | .minimize => x ≤ promised
        | .maximize => promised ≤ x

private theorem underPolicies_bound (h : DecisionRef) (s : ConstraintSense) (b : ℝ) (u : ℕ → ℝ) :
    ((UncertainExpr.decision h).relateValue s b).expression.underPolicies model p ω u =
      p.decisionValue model ω u h - b := by
  simp [UncertainExpr.relateValue, UncertainExpr.addConstant, UncertainExpr.decision,
    UncertainExpr.zero, UncertainExpr.underPolicies, UncertainExpr.eval]
  ring

/-- Ensured bounds are respected at every realization. -/
theorem DecisionVariable.admits_of_ensured {h : DecisionRef} {d : DecisionVariable ℝ}
    (hd : ∀ c ∈ d.rows h, c.Ensured model p ω) {alternative : ConstraintSet ℝ}
    (halt : alternative ∈ model.uncertainty.alternatives.items) {r : List ℝ}
    (hr : model.uncertainty.Realizes alternative r) :
    d.bounds.admits (p.decisionValue model ω (entryAt r) h) = true := by
  rw [Bounds.admits_iff]
  constructor
  · intro b hb
    have hrow := (hd ((UncertainExpr.decision h).relateValue .geq b)
      (by simp [DecisionVariable.rows, hb])).holds_union rfl halt hr
    rw [underPolicies_bound] at hrow
    exact sub_nonneg.1 hrow
  · intro b hb
    have hrow := (hd ((UncertainExpr.decision h).relateValue .leq b)
      (by simp [DecisionVariable.rows, hb])).holds_union rfl halt hr
    rw [underPolicies_bound] at hrow
    exact sub_nonpos.1 hrow

namespace Counterpart

variable {m m' : ConicModel ℝ}

private theorem robust_of_ensured
    (hresolves : ∀ c ∈ model.constraints, Resolves model p c.toRawConstraint)
    (hconstraints : ∀ c ∈ model.constraints, c.toRawConstraint.Ensured model p ω)
    (hbounds : ∀ d ∈ model.decisions.entries, ∀ c ∈ d.2.rows d.1, c.Ensured model p ω) :
    p.Robust model ω := by
  have hvalue : ∀ c ∈ model.constraints, c.sense ≠ .eq → c.expression.mode ≠ .stochastic →
      ∀ alternative ∈ model.uncertainty.alternatives.items, ∀ r,
        model.uncertainty.Realizes alternative r →
          (Solution.mk model r (p.decisions model ω r)).evaluate c.expression =
            .ok (c.expression.underPolicies model p ω (entryAt r)) :=
    fun c hc hsense hmode alternative halt r hr =>
      Solution.evaluate_decisions
        (hresolves c hc hsense hmode alternative halt).refers p ω hr.length
  refine ⟨fun c hc hsense hmode alternative halt r hr => ?_, fun c hc hsense hmode rs hrs => ?_,
    fun alternative halt r hr => ?_⟩
  · have hx := hvalue c hc hsense (by simp [hmode]) alternative halt r hr
    simp only [Solution.satisfies, bind_eq_ok_iff, pure_eq_ok_iff]
    exact ⟨_, hx, (ConstraintSense.holds_zero_iff _ _).2
      ((hconstraints c hc).holds_union hmode halt hr)⟩
  · refine ⟨rs.map fun r => c.expression.underPolicies model p ω (entryAt r), ?_, ?_⟩
    · rw [List.forall₂_map_right_iff, List.forall₂_same]
      intro r hr
      obtain ⟨alternative, halt, hr⟩ := exists_of_forall₂_right hrs hr
      exact hvalue c hc hsense (by simp [hmode]) alternative halt r hr
    · rw [List.length_map]
      exact (hconstraints c hc).holds_average hmode hrs
  · rw [List.forall₂_iff_get]
    refine ⟨(p.length_decisions model ω r).symm, fun i hi hi' => ?_⟩
    have hentry : (model.decisions.handleFor i, model.decisions.items[i]) ∈
        model.decisions.entries :=
      Store.mem_entries_iff.2 ⟨i, List.getElem?_eq_getElem hi, rfl⟩
    have hadmits := DecisionVariable.admits_of_ensured (hbounds _ hentry) halt hr
    have hget : bySlot (entryAt (p.decisions model ω r)) (model.decisions.handleFor i) =
        (p.decisions model ω r)[i] := List.getD_eq_getElem _ _ hi'
    rw [← p.bySlot_decisions, hget] at hadmits
    exact hadmits

/-- Whatever satisfies a compiled model ensures all constraints and bounds, and the compiled
objective takes a value that it may take. -/
theorem compile_ensures {u : Unit} (hp : p.DeclaredIn m) (hos : m.objectives = [])
    (hrun : compile model p m = .ok u m') (hω : m'.Feasible ω) :
    ∃ o o' x, model.objective = .ok o ∧ m'.objective = .ok o' ∧ o'.sense = o.sense ∧
      o'.expression.value (.total ω) = .ok x ∧ RobustObjective.CompiledValue o model p ω x ∧
        (∀ c ∈ model.constraints, c.toRawConstraint.Ensured model p ω) ∧
          ∀ d ∈ model.decisions.entries, ∀ c ∈ d.2.rows d.1, c.Ensured model p ω := by
  obtain ⟨o, f, ho, hos', henc⟩ := compile_encodes hp hrun
  have hadded : m.AddedFeasible { m' with objectives := m.objectives } ω :=
    ⟨fun e he _ => hω.bounds e he, fun c hc => hω.constraints c (List.mem_of_mem_drop hc)⟩
  obtain ⟨hvalue, hrequirements⟩ := henc.sound ω hadded
  obtain ⟨hconstraints, hbounds⟩ := RobustModel.forall_mem_requirements.1 hrequirements
  have hobjective : m'.objective = .ok (.new o.sense f) := by
    rw [ConicModel.objective, hos', hos]
    rfl
  refine ⟨o, _, f.eval ω, ho, hobjective, rfl, ?_, hvalue, hconstraints, hbounds⟩
  exact f.value_total ω

/-- Whatever satisfies a compiled model gives robust policies, and the objective keeps its
promise. -/
theorem compile_sound {u : Unit} (hp : p.DeclaredIn m) (hos : m.objectives = [])
    (hrun : compile model p m = .ok u m') (hω : m'.Feasible ω) :
    p.Robust model ω ∧ ∀ o, model.objective = .ok o → o.expression.mode = .union →
      ∃ o' x, m'.objective = .ok o' ∧ o'.sense = o.sense ∧
        o'.expression.value (.total ω) = .ok x ∧ p.KeepsPromise model ω o.sense x := by
  obtain ⟨o, o', x, ho, ho', hsense, hx, hvalue, hconstraints, hbounds⟩ :=
    compile_ensures hp hos hrun hω
  obtain ⟨hresolves, hresolves'⟩ := compile_resolves hp hrun
  refine ⟨robust_of_ensured hresolves' hconstraints hbounds, fun o₁ ho₁ hmode => ?_⟩
  obtain rfl := Except.ok.inj (ho.symm.trans ho₁)
  refine ⟨o', x, ho', hsense, hx, fun alternative halt r hr => ?_⟩
  have hrefers := (hresolves o ho (by simp) (by simp [hmode]) alternative halt).refers
  have heval := Solution.evaluate_decisions hrefers p ω hr.length
  exact ⟨_, bind_eq_ok_iff.2 ⟨o, ho, heval⟩, hvalue.bounds_union hmode halt hr⟩

end Counterpart

/-- The variables of a conic model are those of the policies of a robust model: a coefficient for
each dependency, decision by decision, then a constant for each decision. -/
structure PolicyVariables.Fill (p : PolicyVariables) (model : RobustModel ℝ)
    (m : ConicModel ℝ) : Prop where
  handles : m.vars.handles = p.factors.flatten ++ p.constants
  factors : p.factors.map List.length = model.decisions.items.map (·.dependencies.length)
  constants : p.constants.length = model.decisions.items.length
  dependencies : ∀ d ∈ model.decisions.items, ∀ u ∈ d.dependencies,
    ∃ x, model.uncertainty.variableAt u = .ok x

namespace AffineCompiler

variable {d d' : Draft ℝ}

/-! ## Declaring the policy variables -/

/-- A draft grows: its conic model gets the given variables without any condition on them, and its
policy variables are variables of the model. -/
structure Draft.Grows (d d' : Draft ℝ) (hs : List ConicRef) : Prop where
  conic : d.conic.Extends d'.conic
  handles : d'.conic.vars.handles = d.conic.vars.handles ++ hs
  /-- The extension does not constrain anything. -/
  free : ∀ ω, d.conic.AddedFeasible d'.conic ω
  policy : d'.policy.DeclaredIn d'.conic

/-- No growth. -/
theorem Draft.Grows.refl (hd : d.policy.DeclaredIn d.conic) : d.Grows d [] :=
  ⟨.refl _, (List.append_nil _).symm, ConicModel.addedFeasible_refl d.conic, hd⟩

/-- Growth is transitive. -/
theorem Draft.Grows.trans {d'' : Draft ℝ} {hs hs' : List ConicRef} (h : d.Grows d' hs)
    (h' : d'.Grows d'' hs') : d.Grows d'' (hs ++ hs') :=
  ⟨h.conic.trans h'.conic, by rw [h'.handles, h.handles, List.append_assoc],
    fun ω => (h.conic.addedFeasible_iff h'.conic).2 ⟨h.free ω, h'.free ω⟩, h'.policy⟩

private theorem declare_eq_ok {name : String} {h : ConicRef} (hd : d.policy.DeclaredIn d.conic)
    (hrun : declare name d = .ok h d') :
    d.Grows d' [h] ∧ d'.policy = d.policy ∧ d'.conic.Declares h := by
  obtain ⟨conic, hdeclare, rfl⟩ := Step.focus_eq_ok_iff.1 hrun
  obtain ⟨hh, henc⟩ := Counterpart.declare_writes hdeclare
  exact ⟨⟨henc.extension, Counterpart.declare_handles hdeclare, Counterpart.declare_free hdeclare,
    hd.extend henc.extension⟩, rfl, hh⟩

private theorem mapM_declare_eq_ok {name : UncertaintyVariable ℝ → String}
    {us : List UncertaintyRef} {hs : List ConicRef} (hd : d.policy.DeclaredIn d.conic)
    (hrun : (us.mapM fun u => do
      let v ← Step.ofExcept .model (model.uncertainty.variableAt u)
      declare (name v) : Step (Draft ℝ) (PolicyError ℝ) _) d = .ok hs d') :
    d.Grows d' hs ∧ d'.policy = d.policy ∧ hs.length = us.length ∧
      (∀ h ∈ hs, d'.conic.Declares h) ∧ ∀ u ∈ us, ∃ v, model.uncertainty.variableAt u = .ok v := by
  induction us generalizing d hs with
  | nil =>
    rw [List.mapM_nil, Step.pure_eq_ok_iff] at hrun
    obtain ⟨rfl, rfl⟩ := hrun
    exact ⟨.refl hd, rfl, rfl, by simp, by simp⟩
  | cons u us ih =>
    simp only [List.mapM_cons, Step.bind_eq_ok_iff, Step.pure_eq_ok_iff,
      Step.ofExcept_eq_ok_iff] at hrun
    obtain ⟨h, d₁, ⟨v, _, ⟨hv, rfl⟩, hdeclare⟩, hs, _, hrest, rfl, rfl⟩ := hrun
    obtain ⟨hgrows, hpolicy, hh⟩ := declare_eq_ok hd hdeclare
    obtain ⟨hgrows', hpolicy', hlen, hhs, hus⟩ := ih hgrows.policy hrest
    exact ⟨hgrows.trans hgrows', hpolicy'.trans hpolicy, congrArg (· + 1) hlen,
      List.forall_mem_cons.2 ⟨hgrows'.conic.declares hh, hhs⟩,
      List.forall_mem_cons.2 ⟨⟨v, hv⟩, hus⟩⟩

private theorem declareFactors_eq_ok {v : DecisionVariable ℝ} {u : Unit}
    (hd : d.policy.DeclaredIn d.conic) (hrun : declareFactors model v d = .ok u d') :
    ∃ fs, d.Grows d' fs ∧ fs.length = v.dependencies.length ∧
      d'.policy = ⟨d.policy.factors ++ [fs], d.policy.constants⟩ ∧
        ∀ u ∈ v.dependencies, ∃ x, model.uncertainty.variableAt u = .ok x := by
  obtain ⟨hs, d₁, hmap, hmodify⟩ := Step.bind_eq_ok_iff.1 hrun
  obtain ⟨hgrows, hpolicy, hlen, hhs, hus⟩ := mapM_declare_eq_ok hd hmap
  rw [← Step.modify_eq_ok_iff.1 hmodify]
  refine ⟨hs, ⟨hgrows.conic, hgrows.handles, hgrows.free, fun fs hfs => ?_,
    hgrows.policy.constants⟩, hlen, by rw [hpolicy], hus⟩
  rcases List.mem_append.1 hfs with hfs | hfs
  · exact hgrows.policy.factors fs hfs
  · rw [List.mem_singleton.1 hfs]
    exact hhs

private theorem declareConstant_eq_ok {v : DecisionVariable ℝ} {u : Unit}
    (hd : d.policy.DeclaredIn d.conic) (hrun : declareConstant v d = .ok u d') :
    ∃ b, d.Grows d' [b] ∧ d'.policy = ⟨d.policy.factors, d.policy.constants ++ [b]⟩ := by
  obtain ⟨h, d₁, hdeclare, hmodify⟩ := Step.bind_eq_ok_iff.1 hrun
  obtain ⟨hgrows, hpolicy, hh⟩ := declare_eq_ok hd hdeclare
  rw [← Step.modify_eq_ok_iff.1 hmodify]
  refine ⟨h, ⟨hgrows.conic, hgrows.handles, hgrows.free, hgrows.policy.factors, fun b hb => ?_⟩,
    by rw [hpolicy]⟩
  rcases List.mem_append.1 hb with hb | hb
  · exact hgrows.policy.constants b hb
  · rw [List.mem_singleton.1 hb]
    exact hh

private theorem forM_declareFactors_eq_ok {vs : List (DecisionVariable ℝ)} {u : Unit}
    (hd : d.policy.DeclaredIn d.conic) (hrun : vs.forM (declareFactors model) d = .ok u d') :
    ∃ fss, d.Grows d' fss.flatten ∧ fss.map List.length = vs.map (·.dependencies.length) ∧
      d'.policy = ⟨d.policy.factors ++ fss, d.policy.constants⟩ ∧
        ∀ v ∈ vs, ∀ u ∈ v.dependencies, ∃ x, model.uncertainty.variableAt u = .ok x := by
  induction vs generalizing d with
  | nil =>
    obtain rfl := Step.forM_nil_eq_ok_iff.1 hrun
    exact ⟨[], .refl hd, rfl, by simp, by simp⟩
  | cons v vs ih =>
    obtain ⟨d₁, hv, hvs⟩ := Step.forM_cons_eq_ok_iff.1 hrun
    obtain ⟨fs, hgrows, hlen, hpolicy, hus⟩ := declareFactors_eq_ok hd hv
    obtain ⟨fss, hgrows', hlens, hpolicy', hrest⟩ := ih hgrows.policy hvs
    exact ⟨fs :: fss, hgrows.trans hgrows', by simp [hlen, hlens], by simp [hpolicy', hpolicy],
      List.forall_mem_cons.2 ⟨hus, hrest⟩⟩

private theorem forM_declareConstant_eq_ok {vs : List (DecisionVariable ℝ)} {u : Unit}
    (hd : d.policy.DeclaredIn d.conic) (hrun : vs.forM declareConstant d = .ok u d') :
    ∃ bs : List ConicRef, d.Grows d' bs ∧ bs.length = vs.length ∧
      d'.policy = ⟨d.policy.factors, d.policy.constants ++ bs⟩ := by
  induction vs generalizing d with
  | nil =>
    obtain rfl := Step.forM_nil_eq_ok_iff.1 hrun
    exact ⟨[], .refl hd, rfl, by simp⟩
  | cons v vs ih =>
    obtain ⟨d₁, hv, hvs⟩ := Step.forM_cons_eq_ok_iff.1 hrun
    obtain ⟨b, hgrows, hpolicy⟩ := declareConstant_eq_ok hd hv
    obtain ⟨bs, hgrows', hlen, hpolicy'⟩ := ih hgrows.policy hvs
    exact ⟨b :: bs, hgrows.trans hgrows', by simp [hlen], by simp [hpolicy', hpolicy]⟩

/-- Declaring the policies declares a coefficient for each dependency, then a constant for each
decision. -/
theorem declarePolicies_eq_ok {u : Unit} (hd : d.policy.DeclaredIn d.conic)
    (hrun : declarePolicies model d = .ok u d') :
    ∃ fss bs, d.Grows d' (fss.flatten ++ bs) ∧
      fss.map List.length = model.decisions.items.map (·.dependencies.length) ∧
        bs.length = model.decisions.items.length ∧
          d'.policy = ⟨d.policy.factors ++ fss, d.policy.constants ++ bs⟩ ∧
            ∀ v ∈ model.decisions.items, ∀ u ∈ v.dependencies,
              ∃ x, model.uncertainty.variableAt u = .ok x := by
  obtain ⟨_, d₁, hfactors, hconstants⟩ := Step.bind_eq_ok_iff.1 hrun
  obtain ⟨fss, hgrows, hfss, hpolicy, hus⟩ := forM_declareFactors_eq_ok hd hfactors
  obtain ⟨bs, hgrows', hbs, hpolicy'⟩ := forM_declareConstant_eq_ok hgrows.policy hconstants
  exact ⟨fss, bs, hgrows.trans hgrows', hfss, hbs, by rw [hpolicy', hpolicy], hus⟩

/-- Declaring the policies succeeds when dependencies are uncertainties of the model. -/
theorem declarePolicies_yields
    (hmodel : ∀ d ∈ model.decisions.items, ∀ u ∈ d.dependencies,
      ∃ x, model.uncertainty.variableAt u = .ok x) :
    Step.Yields (declarePolicies model) fun _ => True := by
  have hdeclare : ∀ {name : String},
      Step.Yields (declare name : Step (Draft ℝ) (PolicyError ℝ) _) fun _ => True :=
    .focus (.ofChange fun _ => trivial)
  refine Step.Yields.bind (.forM fun d hd => ?_) fun _ _ => .forM fun d hd => ?_
  · refine Step.Yields.bind (.mapM (Q := fun _ => True) fun u hu => ?_) fun _ _ => .modify
    obtain ⟨x, hx⟩ := hmodel d hd u hu
    exact Step.Yields.bind (P := fun _ => True) (.ofExcept ⟨x, hx, trivial⟩) fun _ _ => hdeclare
  · exact hdeclare.bind fun _ _ => .modify

/-! ## Building -/

variable {β : Type} {backend : β} {settings : SolverSettings ℝ} {owner : OwnerId}
variable {c : AffineCompiler ℝ β}

/-- Building declares policy variables, behind those that are there, and compiles the robust
model; it is done only once. -/
theorem steps_of_build {c' : AffineCompiler ℝ β} {u : Unit} (hrun : build c = .ok u c') :
    c.isBuilt = false ∧ ∃ d conic, declarePolicies c.model ⟨c.conic, c.policy⟩ = .ok () d ∧
      Counterpart.compile c.model d.policy d.conic = .ok () conic ∧
        c' = { c with conic, policy := d.policy, isBuilt := true } := by
  simp only [build, Step.bind_eq_ok_iff, Step.get_eq_ok_iff] at hrun
  obtain ⟨_, _, ⟨rfl, rfl⟩, hrun⟩ := hrun
  split at hrun
  · obtain ⟨_, _, hthrow, -⟩ := Step.bind_eq_ok_iff.1 hrun
    exact absurd hthrow Step.throw_ne_ok
  · next hbuilt =>
    simp only [Step.bind_eq_ok_iff, Step.focus_eq_ok_iff, Step.get_eq_ok_iff,
      Step.modify_eq_ok_iff] at hrun
    obtain ⟨_, _, ⟨d, hdeclare, rfl⟩, _, _, ⟨rfl, rfl⟩, _, _, ⟨conic, hcompile, rfl⟩, rfl⟩ := hrun
    exact ⟨Bool.eq_false_iff.2 hbuilt, d, conic, hdeclare, hcompile, rfl⟩

/-- Building declares free policy variables and compiles the robust model over them. -/
theorem build_eq_ok {u : Unit} (hrun : build (new model backend settings owner) = .ok u c) :
    ∃ m, c.policy.DeclaredIn m ∧ c.policy.Fill model m ∧ m.objectives = [] ∧ (∀ ω, m.Feasible ω) ∧
      Counterpart.compile model c.policy m = .ok () c.conic := by
  obtain ⟨-, d, conic, hdeclare, hcompile, rfl⟩ := steps_of_build hrun
  obtain ⟨fss, bs, hgrows, hfss, hbs, hpolicy, hus⟩ :=
    declarePolicies_eq_ok (d := ⟨_, ⟨[], []⟩⟩) ⟨by simp, by simp⟩ hdeclare
  obtain ⟨conic₀, policy⟩ := d
  obtain rfl : policy = ⟨fss, bs⟩ := hpolicy
  refine ⟨conic₀, hgrows.policy, ⟨hgrows.handles, hfss, hbs, hus⟩, hgrows.conic.objectives,
    fun ω => ?_, hcompile⟩
  refine hgrows.conic.feasible_iff.2 ⟨⟨fun e he => ?_, fun c hc => ?_⟩, hgrows.free ω⟩
  · simp [new, ConicModel.new, Store.entries] at he
  · simp [new, ConicModel.new] at hc

/-- A compiler keeps its model and its solver, and knows that it has compiled the model. -/
theorem model_of_build {u : Unit} (hrun : build (new model backend settings owner) = .ok u c) :
    c.model = model ∧ c.isBuilt = true ∧ c.solver = .new backend settings := by
  obtain ⟨-, d, conic, -, -, rfl⟩ := steps_of_build hrun
  exact ⟨rfl, rfl, rfl⟩

/-- A model whose counterparts are found over any policy variables for its decisions is built. -/
theorem build_succeeds_of_compile
    (hmodel : ∀ d ∈ model.decisions.items, ∀ u ∈ d.dependencies,
      ∃ x, model.uncertainty.variableAt u = .ok x)
    (hcompile : ∀ p : PolicyVariables, p.Covers model →
      Step.Yields (Counterpart.compile model p) fun _ => True)
    (backend : β) (settings : SolverSettings ℝ) (owner : OwnerId) :
    ∃ c, build (new model backend settings owner) = .ok () c := by
  obtain ⟨_, d, hdeclare, -⟩ := declarePolicies_yields hmodel
    (new model backend settings owner |> fun c => ⟨c.conic, c.policy⟩)
  obtain ⟨fss, bs, hgrows, hfss, hbs, hpolicy, -⟩ :=
    declarePolicies_eq_ok (d := ⟨_, ⟨[], []⟩⟩) ⟨by simp, by simp⟩ hdeclare
  have hcovers : d.policy.Covers model := by
    intro i v hv
    have hlen : (fss[i]?).map List.length = some v.dependencies.length := by
      rw [← List.getElem?_map, hfss, List.getElem?_map, hv, Option.map_some]
    obtain ⟨fs, hfs, hlen⟩ := Option.map_eq_some_iff.1 hlen
    have hi : i < bs.length := hbs ▸ (List.getElem?_eq_some_iff.1 hv).1
    rw [hpolicy]
    exact ⟨⟨fs, by simpa using hfs, hlen.ge⟩, bs[i], by simp⟩
  obtain ⟨_, conic, hrun, -⟩ := hcompile _ hcovers d.conic
  have hnew : (new model backend settings owner).isBuilt = false := rfl
  refine ⟨{ new model backend settings owner with conic, policy := d.policy, isBuilt := true }, ?_⟩
  simp only [build, Step.bind_eq_ok_iff, Step.get_eq_ok_iff]
  refine ⟨_, _, ⟨rfl, rfl⟩, ?_⟩
  simp only [hnew, Bool.false_eq_true, ite_false, Step.bind_eq_ok_iff, Step.focus_eq_ok_iff,
    Step.get_eq_ok_iff, Step.modify_eq_ok_iff]
  exact ⟨_, _, ⟨d, hdeclare, rfl⟩, _, _, ⟨rfl, rfl⟩, _, _, ⟨conic, hrun, rfl⟩, rfl⟩

/-- A compilable model is built. -/
theorem build_succeeds (hmodel : model.Compilable) (backend : β) (settings : SolverSettings ℝ)
    (owner : OwnerId) : ∃ c, build (new model backend settings owner) = .ok () c :=
  build_succeeds_of_compile hmodel.dependencies
    (fun _ hp => Counterpart.compile_yields hmodel hp) backend settings owner

/-- The compiled model admits everything that the conditions admit: policies that ensure all
constraints and bounds belong to values that satisfy it, with any value that the objective may
take. -/
theorem build_complete {u : Unit} (hbuild : build (new model backend settings owner) = .ok u c)
    {o : RobustObjective ℝ} (ho : model.objective = .ok o) {v : ℝ}
    (hvalue : RobustObjective.CompiledValue o model c.policy ω v)
    (hconstraints : ∀ k ∈ model.constraints, k.toRawConstraint.Ensured model c.policy ω)
    (hbounds : ∀ d ∈ model.decisions.entries, ∀ k ∈ d.2.rows d.1,
      k.Ensured model c.policy ω) :
    ∃ ω' o', c.conic.Feasible ω' ∧
      c.policy.decisionValue model ω' = c.policy.decisionValue model ω ∧
      c.conic.objective = .ok o' ∧ o'.expression.value (.total ω') = .ok v := by
  obtain ⟨m, hp, -, hos, hfree, hcompile⟩ := build_eq_ok hbuild
  obtain ⟨o', f, ho', hos', henc⟩ := Counterpart.compile_encodes hp hcompile
  obtain rfl := Except.ok.inj (ho.symm.trans ho')
  obtain ⟨ω', ha, hadded, hv⟩ := henc.complete ω v
    ⟨hvalue, RobustModel.forall_mem_requirements.2 ⟨hconstraints, hbounds⟩⟩
  obtain ⟨hb, hc⟩ := henc.extension.feasible_iff.2 ⟨hfree ω', hadded⟩
  refine ⟨ω', .new o.sense f, ⟨hb, hc⟩, hp.decisionValue_congr ha, ?_, ?_⟩
  · rw [ConicModel.objective, hos', hos]
    rfl
  · exact hv ▸ f.value_total ω'

/-- The largest decision that stays below an uncertainty between zero and one, on which it may
depend. -/
noncomputable def capped : RobustModel ℝ where
  name := "capped"
  decisions := ⟨⟨0⟩, 0, [⟨"x", none, .free, [⟨⟨0⟩, 0, 0⟩], none⟩]⟩
  uncertainty := ⟨"capped", ⟨⟨0⟩, 0, [⟨"u", none, ⟨some 0, some 1, by simp⟩⟩]⟩,
    ⟨⟨0⟩, 0, [.empty]⟩⟩
  constraints := [.named "cap" ⟨.leq, (UncertainExpr.decision ⟨⟨0⟩, 0, 0⟩).sub
    (.uncertainty ⟨⟨0⟩, 0, 0⟩)⟩]
  objective? := some (.new .maximize (.decision ⟨⟨0⟩, 0, 0⟩))
  distribution? := none

/-- Whatever the decision depends on, the model compiles. -/
theorem capped_compilable {d : DecisionVariable ℝ} (hd : ∀ u ∈ d.dependencies, u = ⟨⟨0⟩, 0, 0⟩) :
    RobustModel.Compilable { capped with decisions := ⟨⟨0⟩, 0, [d]⟩ } := by
  set m : RobustModel ℝ := { capped with decisions := ⟨⟨0⟩, 0, [d]⟩ }
  have hu : m.uncertainty.variableAt ⟨⟨0⟩, 0, 0⟩ = .ok ⟨"u", none, ⟨some 0, some 1, by simp⟩⟩ := rfl
  have hx : m.decisionAt ⟨⟨0⟩, 0, 0⟩ = .ok d := rfl
  refine ⟨⟨?_, ?_⟩, ⟨_, rfl, ⟨⟨?_, ?_, ?_⟩, ?_, ?_⟩⟩, ?_⟩
  · exact List.forall_mem_singleton.2 fun u hu' => hd u hu' ▸ ⟨_, hu⟩
  · simp [m, capped, ConstraintSet.empty]
  · simp [Objective.new, UncertainExpr.decision, UncertainExpr.zero]
  · simpa [Objective.new, UncertainExpr.decision, UncertainExpr.zero] using ⟨_, hx⟩
  · simp [Objective.new, UncertainExpr.decision, UncertainExpr.zero]
  · simp [Objective.new, UncertainExpr.decision, UncertainExpr.zero]
  · simp [Objective.new, UncertainExpr.decision, UncertainExpr.zero]
  · intro c hc
    rw [List.mem_singleton.1 hc]
    refine ⟨⟨?_, ?_, ?_⟩, ?_, ?_⟩
    · simpa [Constraint.named, UncertainExpr.sub, UncertainExpr.add, UncertainExpr.negate,
        UncertainExpr.scale, UncertainExpr.decision, UncertainExpr.uncertainty, UncertainExpr.zero]
        using ⟨_, hu⟩
    · simpa [Constraint.named, UncertainExpr.sub, UncertainExpr.add, UncertainExpr.negate,
        UncertainExpr.scale, UncertainExpr.decision, UncertainExpr.uncertainty, UncertainExpr.zero]
        using ⟨_, hx⟩
    all_goals simp [Constraint.named, UncertainExpr.sub, UncertainExpr.add, UncertainExpr.negate,
      UncertainExpr.scale, UncertainExpr.decision, UncertainExpr.uncertainty, UncertainExpr.zero]

private theorem capped_certified (p : PolicyVariables) :
    (∀ k ∈ capped.constraints, k.toRawConstraint.Ensured capped p fun _ => 0) ∧
      (UncertainExpr.decision ⟨⟨0⟩, 0, 0⟩ : UncertainExpr ℝ).CounterpartValue capped p
        (fun _ => 0) 0 := by
  have hregion : capped.uncertainty.region .empty =
      [⟨.geq, .ofAffine ⟨-0, .var ⟨⟨0⟩, 0, 0⟩⟩⟩, ⟨.leq, .ofAffine ⟨-1, .var ⟨⟨0⟩, 0, 0⟩⟩⟩] := rfl
  have hbelow : ∀ e : UncertainExpr ℝ, e.mode = .union →
      Certifies (capped.uncertainty.region .empty) (e.underPolicies capped p fun _ => 0) 0 →
        e.CounterpartValue capped p (fun _ => 0) 0 := fun e hmode h => by
    rw [UncertainExpr.CounterpartValue, if_neg (by simp [hmode])]
    exact ⟨[0], .cons h .nil, by simp [hmode, UncertaintyMode.Below]⟩
  constructor
  · intro k hk
    rw [List.mem_singleton.1 hk]
    refine ⟨0, hbelow _ rfl ?_, le_rfl⟩
    rw [hregion]
    refine ⟨_, .of_mem List.mem_cons_self (RawConstraint.isPenalty_affine_iff.2 ⟨-1, ?_, rfl⟩),
      fun u => ?_⟩
    · exact ConstraintSense.admits_dualBounds_geq.2 (by norm_num)
    · simp [Constraint.named, UncertainExpr.underPolicies,
        UncertainExpr.eval, UncertainExpr.sub, UncertainExpr.add, UncertainExpr.negate,
        UncertainExpr.scale, UncertainExpr.decision, UncertainExpr.uncertainty, UncertainExpr.zero,
        AffineExpr.eval]
  · refine hbelow _ rfl ⟨0, .zero _, fun u => ?_⟩
    simp [UncertainExpr.underPolicies, UncertainExpr.eval, UncertainExpr.decision,
      UncertainExpr.zero]

/-- Robust soundness: values of the variables of the compiled model that satisfy all its bounds
and constraints give policies whose decisions are robust, and the compiled objective promises no
more than the robust model keeps at any realization. -/
theorem build_sound {u : Unit} (hbuild : build (new model backend settings owner) = .ok u c)
    (hω : c.conic.Feasible ω) :
    c.policy.Robust model ω ∧
      ∀ o, model.objective = .ok o → o.expression.mode = .union →
        ∃ o' x, c.conic.objective = .ok o' ∧ o'.sense = o.sense ∧
          o'.expression.value (.total ω) = .ok x ∧
          c.policy.KeepsPromise model ω o.sense x := by
  obtain ⟨m, hp, -, hos, -, hcompile⟩ := build_eq_ok hbuild
  exact Counterpart.compile_sound hp hos hcompile hω

/-- The capped model compiles, and policies that satisfy the compiled model are robust. -/
theorem build_sound_capped : ∃ (c : AffineCompiler ℝ Unit) (ω : ConicRef → ℝ),
    build (new capped () ⟨none, none, false, 0, 0⟩ ⟨0⟩) = .ok () c ∧ c.conic.Feasible ω ∧
      c.policy.Robust capped ω := by
  have hcapped : capped.Compilable := capped_compilable (by simp)
  obtain ⟨c, hc⟩ := build_succeeds hcapped () ⟨none, none, false, 0, 0⟩ ⟨0⟩
  obtain ⟨hconstraints, hvalue⟩ := capped_certified c.policy
  obtain ⟨ω, _, hω, -⟩ := build_complete hc rfl hvalue hconstraints (by
    simp [capped, Store.entries, DecisionVariable.rows, Bounds.free])
  exact ⟨c, ω, hc, hω, (build_sound hc hω).1⟩

end AffineCompiler

end AdjustableRobust
