import AdjustableRobust.Proofs.Lifting.Simulation
import AdjustableRobust.Proofs.Lifting.Soundness
import AdjustableRobust.Proofs.Policy.Appends
import AdjustableRobust.Proofs.Policy.Mean

/-!
# Expectations after lifting

The distribution of the lifted model lifts the outcomes of the base distribution, and lifted
expressions retract what they are evaluated at. Within the bounds the two cancel out: a compiled
expectation is the mean of what the base expression evaluates to at the base outcomes, where
the policies decide by the lifts of the outcomes.
-/

namespace AdjustableRobust

/-- The value of a constrained expression whose margin has the given value. -/
def ConstraintSense.ofMargin (s : ConstraintSense) (x : ℝ) : ℝ :=
  match s with
  | .geq | .eq => x
  | .leq => -x

namespace LiftedModel

variable {model lifted : RobustModel ℝ} {lifting : Lifting ℝ} {p : PolicyVariables}
variable {e e' : UncertainExpr ℝ} {rows : List (List ℝ)} {base : Distribution ℝ}

/-! ## Names -/

/-- Constraints keep their names. -/
theorem build_names {series : List (BreakpointSeries ℝ)} {options : LiftingOptions}
    {owner : OwnerId} {d d' : Diagnostics} (hseries : ∀ s ∈ series, s.IsOver model.uncertainty)
    (hrun : build model series options owner d = .ok (lifted, lifting) d') :
    lifted.constraints.map (·.name) = model.constraints.map (·.name) := by
  obtain ⟨draft, m₀, m₁, m₂, hs, hdraft, -, hstages, -⟩ := build_stages hseries hrun
  have hd := liftUncertainties_eq_ok hseries hdraft
  have hnone : m₁.constraints = [] := by
    obtain ⟨hkept, -⟩ := addDecisions_eq_ok (by rw [hstages.filled, hd.decisions]) hstages.decided
    rw [hkept, hstages.filled, hd.constraints]
  have hconstrained := hstages.constrained
  simp only [addConstraints, bind_eq_ok_iff, pure_eq_ok_iff] at hconstrained
  obtain ⟨m, hfold, o, -, e, -, rfl⟩ := hconstrained
  have hnames := foldlM_appends (fun m : RobustModel ℝ => m.constraints.map (·.name))
    (fun c : RobustConstraint ℝ => [c.name]) (fun c _ m m' hstep => by
      obtain ⟨e, -, hstep⟩ := bind_eq_ok_iff.1 hstep
      rw [← pure_eq_ok_iff.1 hstep]
      exact List.map_append) hfold
  rw [hstages.rest]
  refine hnames.trans ?_
  rw [hnone, List.map_nil, List.nil_append, ← List.map_eq_flatMap]

/-! ## Distributions -/

/-- The lifted distribution is the only trace of a distribution. -/
theorem build_setDistribution {series : List (BreakpointSeries ℝ)} {options : LiftingOptions}
    {owner : OwnerId} {d d' : Diagnostics}
    (hnone : model.distribution? = none) (base : Distribution ℝ)
    (hrun : build model series options owner d = .ok (lifted, lifting) d') :
    build (model.setDistribution base) series options owner d =
      .ok (lifted.setDistribution (.lifted base lifting), lifting) d' := by
  have haxes : buildAxes (model.setDistribution base) series options owner =
      buildAxes model series options owner := rfl
  have hcuts : tightenRotational (model.setDistribution base) = tightenRotational model := rfl
  have hsome : (model.setDistribution base).distribution? = some base := rfl
  simp only [build, haxes, hcuts, hsome, hnone, Step.bind_eq_ok_iff] at hrun ⊢
  obtain ⟨p, d₁, hboxed, hrun⟩ := hrun
  refine ⟨p, d₁, hboxed, ?_⟩
  have hfinish : ∀ x : Step Diagnostics (PolicyError ℝ) (RobustModel ℝ),
      (x >>= fun cut => pure (cut, (⟨p.2⟩ : Lifting ℝ))) d₁ = .ok (lifted, lifting) d' →
        (x >>= fun cut => pure (cut.setDistribution (.lifted base ⟨p.2⟩), ⟨p.2⟩)) d₁ =
          .ok (lifted.setDistribution (.lifted base lifting), lifting) d' := by
    intro x hx
    obtain ⟨cut, d₂, hcut, hx⟩ := Step.bind_eq_ok_iff.1 hx
    obtain ⟨hresult, rfl⟩ := Step.pure_eq_ok_iff.1 hx
    obtain ⟨rfl, rfl⟩ := Prod.mk.inj hresult
    exact Step.bind_eq_ok_iff.2 ⟨cut, d₂, hcut, rfl⟩
  by_cases htighten : options.breakpointTightening = true
  · rw [if_pos htighten] at hrun ⊢
    exact hfinish _ hrun
  · rw [if_neg htighten] at hrun ⊢
    exact hfinish _ hrun

/-! ## Means over base outcomes -/

/-- Whatever the values of the conic variables are, the value is the mean over the given outcomes of
what a base expression evaluates to, where the policies decide by the lifts of the outcomes. -/
def IsMean (model lifted : RobustModel ℝ) (lifting : Lifting ℝ) (p : PolicyVariables)
    (rows : List (List ℝ)) (e : UncertainExpr ℝ) (value : (ConicRef → ℝ) → ℝ) : Prop :=
  ∀ ω, ∃ xs, rows.mapM (fun r => do
      (Solution.mk model r (p.decisions lifted ω (← lifting.lift r))).evaluate e) = .ok xs ∧
    value ω = xs.sum / rows.length

/-- What it takes for lifted outcomes to stand for base outcomes. -/
structure LiftsOutcomes (model lifted : RobustModel ℝ) (lifting : Lifting ℝ)
    (rows rows' : List (List ℝ)) : Prop where
  lifts : lifting.Lifts model.uncertainty lifted.uncertainty
  mirrors : Mirrors model lifted lifting.axes
  outcomes : List.Forall₂ (fun r R => lifting.lift r = .ok R) rows rows'
  within : ∀ r ∈ rows, ∀ (i : ℕ) v x, model.uncertainty.vars.items[i]? = some v →
    r[i]? = some x → v.bounds.admits x = true

namespace LiftsOutcomes

variable {rows' : List (List ℝ)}

/-- The base expression evaluates at the base outcomes to what the lifted expression has at their
lifts under the policies. -/
theorem mapM_evaluate (h : LiftsOutcomes model lifted lifting rows rows')
    (hcarries : Carries model lifted lifting.axes e e') (p : PolicyVariables) (ω : ConicRef → ℝ) :
    rows.mapM (fun r => do
      (Solution.mk model r (p.decisions lifted ω (← lifting.lift r))).evaluate e) =
        .ok (rows'.map fun R => e'.underPolicies lifted p ω (entryAt R)) := by
  rw [mapM_eq_ok_iff, List.forall₂_map_right_iff, List.forall₂_iff_get]
  refine ⟨h.outcomes.length_eq, fun i hi hi' => ?_⟩
  have hlift := h.outcomes.get hi hi'
  obtain ⟨hlength, hretract⟩ := retract_of_lift h.lifts (h.within _ (List.getElem_mem hi)) hlift
  exact bind_eq_ok_iff.2 ⟨_, hlift, hcarries.evaluate h.mirrors hlength hretract⟩

/-- The mean over the lifted outcomes is a mean over the base outcomes. -/
theorem isMean (h : LiftsOutcomes model lifted lifting rows rows')
    (hcarries : Carries model lifted lifting.axes e e') {value : (ConicRef → ℝ) → ℝ}
    (hvalue : ∀ ω, value ω =
      (rows'.map fun R => e'.underPolicies lifted p ω (entryAt R)).sum / rows'.length) :
    IsMean model lifted lifting p rows e value := by
  intro ω
  refine ⟨_, h.mapM_evaluate hcarries p ω, ?_⟩
  rw [hvalue, h.outcomes.length_eq]

end LiftsOutcomes

/-- A lifted model with a compiled expectation lifts the outcomes of the base distribution. -/
theorem liftsOutcomes_of_stochastic {series : List (BreakpointSeries ℝ)} {options : LiftingOptions}
    {owner : OwnerId} {d d' : Diagnostics} (hseries : ∀ s ∈ series, s.IsOver model.uncertainty)
    (hrun : build model series options owner d = .ok (lifted, lifting) d')
    (hbase : model.distribution? = some base) (houtcomes : base.HasOutcomes rows)
    (hwithin : model.OutcomesWithinBounds) {f : AffineExpr ℝ ConicRef}
    (hf : Counterpart.stochastic lifted p e' = .ok f) :
    ∃ rows', LiftsOutcomes model lifted lifting rows rows' ∧ ∀ ω, f.eval ω =
      (rows'.map fun R => e'.underPolicies lifted p ω (entryAt R)).sum / rows'.length := by
  obtain ⟨-, -, -, -, -, -, -, -, hdistribution⟩ := build_stages hseries hrun
  obtain ⟨d', rows', hd', houtcomes', -, hmean⟩ := Counterpart.stochastic_eq_ok hf
  obtain rfl : d' = .lifted base lifting :=
    Option.some.inj (hd'.symm.trans (hdistribution base hbase))
  exact ⟨rows', ⟨build_lifts hseries hrun, build_mirrors hseries hrun,
    (hasOutcomes_lifted_iff houtcomes).1 houtcomes', hwithin base rows hbase houtcomes⟩, hmean⟩

private theorem neg_mean_negate (lifted : RobustModel ℝ) (p : PolicyVariables) (ω : ConicRef → ℝ)
    (e : UncertainExpr ℝ) (rows : List (List ℝ)) :
    -((rows.map fun R => e.negate.underPolicies lifted p ω (entryAt R)).sum / rows.length) =
      (rows.map fun R => e.underPolicies lifted p ω (entryAt R)).sum / rows.length := by
  rw [← neg_div, List.sum_neg, List.map_map]
  simp only [Function.comp_def, UncertainExpr.underPolicies_negate, neg_neg]

end LiftedModel

namespace LiftingCompiler

variable {β : Type} {c c' : LiftingCompiler ℝ β} {rows : List (List ℝ)} {d : Distribution ℝ}

open LiftedModel

/-- Expectations survive lifting: when every outcome of the base distribution is within the bounds,
every constraint on an expectation is compiled to a row, and an expectation to optimize to the
objective, whose expression has at all values of the conic variables the mean, over the base
outcomes, of what the base expression evaluates to with the decisions at the lifted outcomes. -/
theorem build_keeps_expectations {u : Unit} (hc : c.SeriesOver)
    (hd : Distribution.ofRealizations rows = .ok d) (hdistribution : c.model.distribution? = some d)
    (hwithin : c.model.OutcomesWithinBounds) (hbuild : build c = .ok u c') :
    ∃ lifting inner, c'.stage = .lifted lifting inner ∧
      (∀ k ∈ c.model.constraints, k.expression.mode = .stochastic → k.sense ≠ .eq ∧
        ∃ f : AffineExpr ℝ ConicRef,
          .named s!"{k.name}RC" (f.relateValue .geq 0).toConic ∈ inner.conic.constraints ∧
          IsMean c.model inner.model lifting inner.policy rows k.expression fun ω =>
            k.sense.ofMargin (f.eval ω)) ∧
      ∀ o, c.model.objective = .ok o → o.expression.mode = .stochastic →
        ∃ f, inner.conic.objective = .ok (.new o.sense f) ∧
          IsMean c.model inner.model lifting inner.policy rows o.expression f.eval := by
  obtain ⟨backend, lifted, lifting, _, inner, -, hlifted, hinner, hstage⟩ := build_eq_ok hbuild
  obtain ⟨rfl, -⟩ := AffineCompiler.model_of_build hinner
  obtain ⟨m, hp, -, hos, -, hcompile⟩ := AffineCompiler.build_eq_ok hinner
  obtain ⟨houtcomes, -⟩ := Distribution.hasOutcomes_of_ofRealizations hd
  have hmirrors := build_mirrors hc hlifted
  have hnames := build_names hc hlifted
  refine ⟨lifting, inner, hstage, fun k hk hmode => ?_, fun o ho hmode => ?_⟩
  · obtain ⟨i, hi, rfl⟩ := List.getElem_of_mem hk
    have hi' : i < inner.model.constraints.length := hmirrors.constraints.length_eq ▸ hi
    obtain ⟨hsense, hcarries⟩ := hmirrors.constraints.get hi hi'
    rw [List.get_eq_getElem, List.get_eq_getElem] at hsense hcarries
    have hname : inner.model.constraints[i].name = c.model.constraints[i].name := by
      have hget := congrArg (·[i]?) hnames
      simpa [hi, hi'] using hget
    obtain ⟨hne, f, hf, hrow⟩ := Counterpart.exists_row_of_compile hcompile (List.getElem_mem hi')
      (hcarries.mode.trans hmode)
    obtain ⟨rows', hrows, hmean⟩ :=
      liftsOutcomes_of_stochastic hc hlifted hdistribution houtcomes hwithin hf
    rw [hname] at hrow
    rw [hsense] at hne
    refine ⟨hne, f, hrow, hrows.isMean hcarries fun ω => ?_⟩
    rw [hmean, ← hsense, RawConstraint.margin]
    cases inner.model.constraints[i].sense with
    | leq => exact neg_mean_negate _ _ _ _ _
    | geq => rfl
    | eq => rfl
  · obtain ⟨o', e', ho', hlifted', hcarries⟩ := hmirrors.objective
    obtain rfl := Except.ok.inj (ho.symm.trans ho')
    obtain ⟨f, hf, hobjective⟩ := Counterpart.exists_objective_of_compile hos hcompile hlifted'
      (hcarries.mode.trans hmode)
    obtain ⟨rows', hrows, hmean⟩ :=
      liftsOutcomes_of_stochastic hc hlifted hdistribution houtcomes hwithin hf
    obtain ⟨sense, e, value?⟩ := o
    cases sense with
    | maximize => exact ⟨f, hobjective, hrows.isMean hcarries hmean⟩
    | minimize =>
      refine ⟨f.negate, hobjective, hrows.isMean hcarries fun ω => ?_⟩
      rw [AffineExpr.eval_negate, hmean]
      exact neg_mean_negate _ _ _ _ _

/-! ## A decision that is right in the mean -/

/-- The mean of the decision of the segment. -/
noncomputable def meanDecision (owner : OwnerId) : UncertainExpr ℝ :=
  ⟨0, .var ⟨owner, 0, 0⟩, .zero, .zero, .stochastic⟩

/-- A decision that may react to the uncertainty of the segment, must not be positive in the mean,
and should be large in the mean. -/
noncomputable def undecided : RobustModel ℝ :=
  segmentWith ⟨⟨0⟩, 0, [⟨"x", none, .free, [⟨⟨0⟩, 0, 0⟩], none⟩]⟩
    [.named "cap" ⟨.leq, meanDecision ⟨0⟩⟩] (.new .maximize (meanDecision ⟨0⟩))

/-- The decision with two outcomes. -/
noncomputable def leaning : RobustModel ℝ :=
  undecided.setDistribution (.empirical [[0], [1]])

/-- The expression that the mean of the decision becomes. -/
noncomputable def liftedMean : UncertainExpr ℝ :=
  ⟨0 + 0, .var ⟨⟨1⟩, 0, 0⟩, .zero, .zero, .stochastic⟩

/-- The decision after lifting. -/
noncomputable def leaningLifted (b : ConstraintSet ℝ) : RobustModel ℝ :=
  (withAlternative { halved with
    decisions := restingLifted.decisions
    constraints := [.named "cap" ⟨.leq, liftedMean⟩]
    objective? := some (.new .maximize liftedMean) } b).setDistribution
      (.lifted (.empirical [[0], [1]]) ⟨[halfAxis]⟩)

private theorem build_leaning (d : Diagnostics) : ∃ b,
    LiftedModel.build leaning [halves] ⟨false, false⟩ ⟨1⟩ d =
      .ok (leaningLifted b, ⟨[halfAxis]⟩) d := by
  have hconstrained : ∀ b, addConstraints undecided [fromHalves] [⟨⟨1⟩, 0, 0⟩]
      (withAlternative { halved with decisions := restingLifted.decisions } b) =
        .ok (withAlternative { halved with
          decisions := restingLifted.decisions
          constraints := [.named "cap" ⟨.leq, liftedMean⟩]
          objective? := some (.new .maximize liftedMean) } b) := fun _ => rfl
  obtain ⟨b, hb⟩ := build_segmentWith [⟨⟨1⟩, 0, 0⟩] _ (fun _ => rfl) hconstrained d
  exact ⟨b, build_setDistribution rfl _ hb⟩

private theorem admits_outcome {r : List ℝ} (hr : r ∈ [[(0 : ℝ)], [1]]) :
    List.Forall₂ (fun (v : UncertaintyVariable ℝ) x => v.bounds.admits x = true)
      leaning.uncertainty.vars.items r := by
  simp only [List.mem_cons, List.not_mem_nil, or_false] at hr
  obtain rfl | rfl := hr
  · exact .cons (by norm_num [Bounds.admits]) .nil
  · exact .cons (by norm_num [Bounds.admits]) .nil

private theorem exists_build_leaning {b : ConstraintSet ℝ} {d : Diagnostics}
    (hb : LiftedModel.build leaning [halves] ⟨false, false⟩ ⟨1⟩ d =
      .ok (leaningLifted b, ⟨[halfAxis]⟩) d) (settings : SolverSettings ℝ) :
    ∃ inner : AffineCompiler ℝ Unit,
      AffineCompiler.build (.new (leaningLifted b) () settings ⟨2⟩) = .ok () inner := by
  have hseries : ∀ s ∈ [halves], s.IsOver leaning.uncertainty :=
    List.forall_mem_singleton.2 halves_isOver
  have hlifts := build_lifts hseries hb
  have hlift : ∀ r ∈ [[(0 : ℝ)], [1]], ∃ R, Lifting.lift ⟨[halfAxis]⟩ r = .ok R ∧
      R.length = (leaningLifted b).numUncertainties := fun r hr => by
    have hadmits := admits_outcome hr
    obtain ⟨R, hR, hrealizes⟩ := hlifts.lift (i := 0) (a := .empty) (b := b) rfl rfl
      ⟨hadmits.length_eq.symm, (UncertaintySet.forall₂_admits_iff.1 hadmits).2, rfl⟩
    exact ⟨R, hR, hrealizes.length⟩
  obtain ⟨R₁, h₁, hlength₁⟩ := hlift [0] (by simp)
  obtain ⟨R₂, h₂, hlength₂⟩ := hlift [1] (by simp)
  have houtcomes := (hasOutcomes_lifted_iff (d := .empirical [[(0 : ℝ)], [1]]) rfl).2
    (List.Forall₂.cons h₁ (.cons h₂ .nil))
  have hconnected : (leaningLifted b).Connected := by
    refine List.forall_mem_singleton.2 (List.forall_mem_cons.2 ⟨⟨_, rfl⟩, ?_⟩)
    exact List.forall_mem_singleton.2 ⟨_, rfl⟩
  have hrefers : liftedMean.RefersTo (leaningLifted b) :=
    ⟨by simp [liftedMean], by simpa [liftedMean] using ⟨_, rfl⟩, by simp [liftedMean]⟩
  refine AffineCompiler.build_succeeds_of_compile hconnected (fun p hp => ?_) () settings ⟨2⟩
  exact Counterpart.compile_yields_of_expectations hconnected rfl houtcomes (by simp)
    (by simp [hlength₁, hlength₂]) hp ⟨_, rfl, rfl, hrefers⟩
    (List.forall_mem_singleton.2 ⟨nofun, rfl, hrefers⟩) (List.forall_mem_singleton.2 rfl)

/-- Constraint and objective of the lifted leaning model hold the means over its two outcomes. -/
theorem build_keeps_expectations_leaning : ∃ (c c' : LiftingCompiler ℝ Unit) (lifting : Lifting ℝ)
    (inner : AffineCompiler ℝ Unit) (f g : AffineExpr ℝ ConicRef), c.model = leaning ∧
      build c = .ok () c' ∧ c'.stage = .lifted lifting inner ∧
      .named ("cap" ++ "RC") (f.relateValue .geq 0).toConic ∈ inner.conic.constraints ∧
      IsMean leaning inner.model lifting inner.policy [[0], [1]] (meanDecision ⟨0⟩)
        (fun ω => -f.eval ω) ∧
      inner.conic.objective = .ok (.new .maximize g) ∧
      IsMean leaning inner.model lifting inner.policy [[0], [1]] (meanDecision ⟨0⟩)
        g.eval := by
  obtain ⟨b, hb⟩ := build_leaning .empty
  obtain ⟨inner, hinner⟩ := exists_build_leaning hb ⟨none, none, false, 0, 0⟩
  let c : LiftingCompiler ℝ Unit :=
    ⟨leaning, ⟨false, false⟩, [halves], ⟨none, none, false, 0, 0⟩, ⟨1⟩, ⟨2⟩, .collecting (), .empty⟩
  have hseries : c.SeriesOver := List.forall_mem_singleton.2 halves_isOver
  have hbuild : build c = .ok () { c with stage := .lifted ⟨[halfAxis]⟩ inner } :=
    build_of_lifted rfl hb hinner
  have hd : Distribution.ofRealizations [[(0 : ℝ)], [1]] = .ok (.empirical _) := rfl
  have hwithin : leaning.OutcomesWithinBounds := by
    intro d rows hdistribution houtcomes r hr i v x hv hx
    obtain rfl := Option.some.inj hdistribution
    obtain rfl :=
      Distribution.HasOutcomes.unique (d := .empirical [[0], [1]]) rfl houtcomes
    obtain ⟨hi, rfl⟩ := List.getElem?_eq_some_iff.1 hv
    obtain ⟨hi', rfl⟩ := List.getElem?_eq_some_iff.1 hx
    exact (admits_outcome hr).get hi hi'
  obtain ⟨lifting, inner', hstage, hconstraints, hobjective⟩ :=
    build_keeps_expectations hseries hd rfl hwithin hbuild
  obtain ⟨-, f, hrow, hf⟩ := hconstraints _ List.mem_cons_self rfl
  obtain ⟨g, hgoal, hg⟩ := hobjective _ rfl rfl
  exact ⟨c, _, lifting, inner', f, g, rfl, hbuild, hstage, hrow, hf, hgoal, hg⟩

end LiftingCompiler

end AdjustableRobust
