import AdjustableRobust.Proofs.Policy.Expectation
import AdjustableRobust.Proofs.Policy.Success
import AdjustableRobust.Proofs.Robust.Edits

/-!
# Expectations are means

The expectation of an expression about the model can be computed when every realization has an
entry for each uncertainty. It is the arithmetic mean of what the expression evaluates to at the
realizations and the decisions that the policies take there, whatever the values of the policy
variables are.
-/

namespace AdjustableRobust

namespace Counterpart

variable {model : RobustModel ℝ} {p : PolicyVariables} {e : UncertainExpr ℝ}
variable {r : List ℝ} {rows : List (List ℝ)} {d : Distribution ℝ}

/-! ## Contributions exist -/

private theorem ofList_yields (hr : r.length = model.numUncertainties) {u : UncertaintyRef}
    (hu : ∃ v, model.uncertainty.variableAt u = .ok v) :
    Yields (Assignment.ofList r u : Except (ModelError ℝ) ℝ) fun _ => True := by
  obtain ⟨v, hv⟩ := hu
  have hlt : u.slot < r.length := hr ▸ UncertaintySet.slot_lt_of_variableAt hv
  exact ⟨_, Assignment.ofList_eq_bySlot_iff.2 hlt, trivial⟩

private theorem spread_yields (hmodel : model.Connected) (hr : r.length = model.numUncertainties)
    {h : DecisionRef} (hh : ∃ x, model.decisionAt h = .ok x) (scale : ℝ) :
    Yields (do
      (← model.decisionAt h).dependencies.zipIdx.mapM fun (dependency, position) =>
        return ((h.slot, position), scale * (← Assignment.ofList r dependency)) :
          Except (ModelError ℝ) _) fun _ => True := by
  obtain ⟨x, hx⟩ := hh
  refine .bind_ok hx ?_
  refine (Yields.mapM (Q := fun _ => True) fun u hu => ?_).imp fun _ _ => trivial
  have hmem := List.mem_of_getElem? (RobustModel.decisionAt_eq_ok_iff.1 hx).2.2
  obtain ⟨hi, hget⟩ := List.mem_zipIdx' hu
  exact (ofList_yields hr (hmodel _ hmem _ (hget ▸ List.getElem_mem hi))).bind fun _ _ =>
    .pure trivial

private theorem factorContributions_yields (hmodel : model.Connected)
    (hr : r.length = model.numUncertainties) (he : e.RefersTo model) :
    Yields (factorContributions model e r) fun _ => True := by
  refine (Yields.mapM (Q := fun _ => True) fun t ht => ?_).bind fun _ _ => ?_
  · exact spread_yields hmodel hr (he.decisions _ (List.mem_map_of_mem ht)) _
  refine (Yields.mapM (Q := fun _ => True) fun t ht => ?_).bind fun _ _ => .pure trivial
  obtain ⟨hu, hh⟩ := he.products _ (List.mem_map_of_mem ht)
  exact (ofList_yields hr hu).bind fun _ _ => spread_yields hmodel hr hh _

private theorem constantContributions_yields (hr : r.length = model.numUncertainties)
    (he : e.RefersTo model) : Yields (constantContributions model e r) fun _ => True := by
  refine (Yields.mapM (Q := fun _ => True) fun t ht => ?_).bind fun _ _ => ?_
  · obtain ⟨x, hx⟩ := he.decisions _ (List.mem_map_of_mem ht)
    exact .bind_ok hx (.pure trivial)
  refine (Yields.mapM (Q := fun _ => True) fun t ht => ?_).bind fun _ _ => .pure trivial
  obtain ⟨hu, x, hx⟩ := he.products _ (List.mem_map_of_mem ht)
  refine .bind_ok hx ?_
  exact (ofList_yields hr hu).bind fun _ _ => .pure trivial

/-! ## Expected terms exist -/

private theorem expectedTerms_yields {h : DecisionRef} {fs : List ConicRef} {b : ConicRef}
    (hfs : p.factors[h.slot]? = some fs) (hb : p.constants[h.slot]? = some b) {xs : List ℝ}
    (hle : xs.length ≤ fs.length) (x : ℝ) (f : AffineExpr ℝ ConicRef) :
    Yields (expectedTerms p h xs x f) fun _ => True := by
  refine Yields.bind (P := fun _ => True) (.foldlM (fun f _ y hy => ?_) trivial) fun f _ => ?_
  · obtain ⟨hi, -⟩ := List.mem_zipIdx' hy
    have hfactor : p.factor h y.2 = .ok fs[y.2] :=
      PolicyVariables.factor_eq_ok_iff.2 ⟨fs, hfs, List.getElem?_eq_getElem (hi.trans_le hle)⟩
    dsimp only
    split
    · exact .pure trivial
    · exact .bind_ok (mapError_eq_ok_iff.2 hfactor) (.pure trivial)
  · have hconstant : p.constant h = .ok b := PolicyVariables.constant_eq_ok_iff.2 hb
    split
    · exact .pure trivial
    · exact .bind_ok (mapError_eq_ok_iff.2 hconstant) (.pure trivial)

/-- The expectation of an expression about the model exists when the realizations have one entry
for each uncertainty. -/
theorem stochastic_yields (hmodel : model.Connected) (hdistribution : model.distribution? = some d)
    (houtcomes : d.HasOutcomes rows) (hnonempty : rows ≠ [])
    (hrows : ∀ r ∈ rows, r.length = model.numUncertainties) (hp : p.Covers model)
    (he : e.RefersTo model) : Yields (stochastic model p e) fun _ => True := by
  have hd : model.distribution = .ok d := by rw [RobustModel.distribution, hdistribution]
  refine .bind_ok (mapError_eq_ok_iff.2 hd) ?_
  let sizes := model.decisions.items.map (·.dependencies.length)
  let lengths := (List.range sizes.length).map fun _ => sizes.foldl Nat.max 0
  refine Yields.bind (P := fun _ => True) (.mapError (Distribution.expectedMatrix_yields
    lengths houtcomes hnonempty fun r hr => ?_)) fun M _ => ?_
  · refine (factorContributions_yields hmodel (hrows r hr) he).bind fun _ _ => .pure ?_
    simp [lengths, sizes, Function.comp_def]
  refine Yields.bind (P := fun _ => True) (.mapError (Distribution.expectedVector_yields
    sizes.length houtcomes hnonempty fun r hr => ?_)) fun C _ => ?_
  · refine (constantContributions_yields (hrows r hr) he).bind fun _ _ => .pure ?_
    simp [sizes]
  refine Yields.bind (P := fun _ => True) (.mapError (Distribution.expectedValue_yields
    houtcomes fun r hr => ?_)) fun x _ => ?_
  · refine ⟨_, (LinearExpr.value_eq_ok_iff (Assignment.ofList_within r)).2 ⟨fun v hv => ?_, rfl⟩,
      trivial⟩
    obtain ⟨x, hx⟩ := he.uncertainties v hv
    exact Assignment.ofList_eq_bySlot_iff.2 (hrows r hr ▸ UncertaintySet.slot_lt_of_variableAt hx)
  refine .foldlM (fun f _ row hrow => ?_) trivial
  obtain ⟨i, hi, hh⟩ := Store.mem_entries_iff.1 (List.of_mem_zip hrow).1
  obtain ⟨⟨fs, hfs, hle⟩, b, hb⟩ := hp i _ hi
  obtain rfl : row.1.1.slot = i := by rw [hh]; rfl
  exact expectedTerms_yields hfs hb ((List.length_take_le _ _).trans hle) _ f

/-- A model is compiled when it is about expectations only, which exist, and its decisions are
free. -/
theorem compile_yields_of_expectations (hmodel : model.Connected)
    (hdistribution : model.distribution? = some d) (houtcomes : d.HasOutcomes rows)
    (hnonempty : rows ≠ []) (hrows : ∀ r ∈ rows, r.length = model.numUncertainties)
    (hp : p.Covers model)
    (hobjective : ∃ o, model.objective = .ok o ∧ o.expression.mode = .stochastic ∧
      o.expression.RefersTo model)
    (hconstraints : ∀ c ∈ model.constraints, c.sense ≠ .eq ∧ c.expression.mode = .stochastic ∧
      c.expression.RefersTo model)
    (hfree : ∀ x ∈ model.decisions.items, x.bounds = .free) :
    Step.Yields (compile model p) fun _ => True := by
  have hcounterpart : ∀ {e : UncertainExpr ℝ} (name : String), e.mode = .stochastic →
      e.RefersTo model → Step.Yields (counterpart model p e name) fun _ => True := by
    intro e name hmode he
    rw [counterpart, hmode]
    exact .ofExcept (stochastic_yields hmodel hdistribution houtcomes hnonempty hrows hp he)
  refine Step.Yields.bind (P := fun _ => True) ?_ fun _ _ =>
    Step.Yields.bind (.forM fun c hc => ?_) fun _ _ => .forM fun x hx => ?_
  · obtain ⟨o, ho, hmode, hrefers⟩ := hobjective
    refine .ofExcept_bind ho ?_
    cases o.sense with
    | maximize => exact (hcounterpart _ hmode hrefers).bind fun _ _ => .modify
    | minimize =>
      have hopposite := UncertainExpr.refersTo_negate_iff.2 hrefers
      exact (hcounterpart (e := o.expression.negate) _ hmode hopposite).bind fun _ _ => .modify
  · obtain ⟨⟨sense, e⟩, name, dual?⟩ := c
    obtain ⟨hsense, hmode, hrefers⟩ := hconstraints _ hc
    cases sense with
    | geq => exact (hcounterpart _ hmode hrefers).bind fun _ _ => .modify
    | leq =>
      have hopposite := UncertainExpr.refersTo_negate_iff.2 hrefers
      exact (hcounterpart (e := e.negate) _ hmode hopposite).bind fun _ _ => .modify
    | eq => exact absurd rfl hsense
  · dsimp only
    rw [compileBounds, hfree _ (Store.mem_items_of_mem_entries hx)]
    exact Step.Yields.bind (P := fun _ => True) (.pure trivial) fun _ _ => .pure trivial

/-! ## Means -/

/-- In a model that was built up, with the uniform distribution on realizations that have one entry
for each uncertainty, the expectation of an expression about the model is compiled. Whatever the
values of the policy variables are, it is the arithmetic mean of what the expression evaluates to at
the realizations, where each decision is the constant of its policy plus, for each position of its
dependencies, the coefficient times the value of the dependency. -/
theorem stochastic_eq_mean (hmodel : model.Reachable)
    (hd : Distribution.ofRealizations rows = .ok d) (hdistribution : model.distribution? = some d)
    (hrows : ∀ r ∈ rows, r.length = model.numUncertainties) (hp : p.Covers model)
    (he : e.RefersTo model) :
    ∃ f, stochastic model p e = .ok f ∧
      (e.mode = .stochastic → ∀ name m, counterpart model p e name m = .ok f m) ∧
      ∀ ω, ∃ xs, rows.mapM (fun r =>
          (Solution.mk model r (p.decisions model ω r)).evaluate e) = .ok xs ∧
        f.eval ω = xs.sum / rows.length := by
  obtain ⟨houtcomes, hnonempty⟩ := Distribution.hasOutcomes_of_ofRealizations hd
  obtain ⟨f, hf, -⟩ :=
    stochastic_yields hmodel.connected hdistribution houtcomes hnonempty hrows hp he
  refine ⟨f, hf, fun hmode name m => ?_, fun ω => ?_⟩
  · rw [counterpart, hmode]
    exact Step.ofExcept_eq_ok_iff.2 ⟨hf, rfl⟩
  · obtain ⟨d', rows', hdistribution', houtcomes', -, hmean⟩ := stochastic_eq_ok hf
    obtain rfl := Option.some.inj (hdistribution.symm.trans hdistribution')
    obtain rfl := houtcomes.unique houtcomes'
    refine ⟨rows'.map fun r => e.underPolicies model p ω (entryAt r), ?_, hmean ω⟩
    rw [mapM_eq_ok_iff, List.forall₂_map_right_iff, List.forall₂_same]
    exact fun r hr => Solution.evaluate_decisions he p ω (hrows r hr)

/-- Two uncertainties with two realizations, a decision that depends on the first one twice and on
the second one in between, and a decision that depends on neither. -/
noncomputable def sampled : RobustModel ℝ :=
  (RobustModel.new "sampled" ⟨0⟩).edited [.uncertainty "u" none none none,
    .uncertainty "v" none none none,
    .decisionDependingOn "x" [⟨⟨0⟩, 0, 0⟩, ⟨⟨0⟩, 0, 1⟩, ⟨⟨0⟩, 0, 0⟩] none none,
    .decision "y" none none none, .distribution (.empirical [[0, 1], [1, -1]])]

/-- The policy variables of its decisions. -/
def sampledPolicies : PolicyVariables where
  factors := [[⟨⟨1⟩, 0, 0⟩, ⟨⟨1⟩, 0, 1⟩, ⟨⟨1⟩, 0, 2⟩], []]
  constants := [⟨⟨1⟩, 0, 3⟩, ⟨⟨1⟩, 0, 4⟩]

/-- An expectation with a repeated decision, and products of an uncertainty with both decisions. -/
noncomputable def sampledGain : UncertainExpr ℝ where
  constant := 1
  decisions := ⟨[⟨1, ⟨⟨0⟩, 0, 0⟩⟩, ⟨1, ⟨⟨0⟩, 0, 0⟩⟩]⟩
  uncertainties := ⟨[⟨-1, ⟨⟨0⟩, 0, 1⟩⟩]⟩
  products := ⟨[⟨1, ⟨⟨⟨0⟩, 0, 0⟩, ⟨⟨0⟩, 0, 0⟩⟩⟩, ⟨-1, ⟨⟨⟨0⟩, 0, 0⟩, ⟨⟨0⟩, 0, 1⟩⟩⟩]⟩
  mode := .stochastic

/-- With two samples the stochastic gain is half the sum of the gains at both of them. -/
theorem stochastic_eq_mean_sampled : ∃ f,
    counterpart sampled sampledPolicies sampledGain "gain" (.new "policies" ⟨1⟩) =
      .ok f (.new "policies" ⟨1⟩) ∧
    ∀ ω, ∃ xs, [[(0 : ℝ), 1], [1, -1]].mapM (fun r =>
        (Solution.mk sampled r (sampledPolicies.decisions sampled ω r)).evaluate sampledGain) =
          .ok xs ∧ f.eval ω = xs.sum / 2 := by
  have hdecisions : sampled.decisions.items =
      [⟨"x", none, .free, [⟨⟨0⟩, 0, 0⟩, ⟨⟨0⟩, 0, 1⟩, ⟨⟨0⟩, 0, 0⟩], none⟩,
        ⟨"y", none, .free, [], none⟩] := rfl
  have hvars : sampled.uncertainty.vars.items = [⟨"u", none, .free⟩, ⟨"v", none, .free⟩] := rfl
  have hu : ∀ h : UncertaintyRef, h.owner = ⟨0⟩ → h.epoch = 0 → h.slot < 2 →
      ∃ x, sampled.uncertainty.variableAt h = .ok x := fun h ho he hlt =>
    ⟨_, UncertaintySet.variableAt_eq_ok_iff.2 ⟨ho, he, List.getElem?_eq_getElem hlt⟩⟩
  have hrefers : sampledGain.RefersTo sampled := by
    refine ⟨?_, ?_, ?_⟩
    · simp [sampledGain, LinearExpr.vars, hu]
    · simpa [sampledGain, LinearExpr.vars] using ⟨_, rfl⟩
    · simpa [sampledGain, LinearExpr.vars, hu] using ⟨⟨_, rfl⟩, _, rfl⟩
  have hcovers : sampledPolicies.Covers sampled := by
    intro i d hd
    rw [hdecisions] at hd
    rcases i with _ | _ | i
    · obtain rfl := Option.some.inj hd
      exact ⟨⟨_, rfl, le_rfl⟩, _, rfl⟩
    · obtain rfl := Option.some.inj hd
      exact ⟨⟨_, rfl, le_rfl⟩, _, rfl⟩
    · simp at hd
  have hreachable : sampled.Reachable := (RobustModel.Reachable.new "sampled" ⟨0⟩).edited _
  have hd : Distribution.ofRealizations [[(0 : ℝ), 1], [1, -1]] = .ok (.empirical _) := rfl
  obtain ⟨f, -, hcounterpart, hmean⟩ := stochastic_eq_mean hreachable hd rfl
    (by simp [RobustModel.numUncertainties, UncertaintySet.numVariables, Store.size, hvars])
    hcovers hrefers
  exact ⟨f, hcounterpart rfl _ _, fun ω => by simpa using hmean ω⟩

end Counterpart

end AdjustableRobust
