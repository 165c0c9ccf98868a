import AdjustableRobust.Proofs.Lifting.Duals
import AdjustableRobust.Proofs.Policy.Expectation

/-!
# The lifted model follows the base model

When lifted policies decide at a lifted realization what base policies decide at the retracted one,
then what the base model is compiled to carries over: certificates with their duals, expectations,
and with them the values that constraints, bounds and objective may take.
-/

namespace AdjustableRobust

namespace LiftedModel

variable {model lifted : RobustModel ℝ} {axes : List (LiftedAxis ℝ)}
variable {p p' : PolicyVariables} {ω ω' : ConicRef → ℝ}

/-! ## Certificates -/

/-- Duals of an alternative can be carried over to the lifted one. -/
def CarriesDuals (model lifted : RobustModel ℝ) (axes : List (LiftedAxis ℝ))
    (a b : ConstraintSet ℝ) : Prop :=
  ∀ ds U, AdmitsDuals (model.uncertainty.region a) ds →
    AdmitsDuals (lifted.uncertainty.region b) (carriedDuals model axes a b ds) ∧
      weightedSum (lifted.uncertainty.region b) (carriedDuals model axes a b ds) U =
        weightedSum (model.uncertainty.region a) ds (retracted axes U)

/-- A certificate with carried duals. -/
noncomputable def carryCertificate (model : RobustModel ℝ) (axes : List (LiftedAxis ℝ))
    (a b : ConstraintSet ℝ) (k : Certificate) : Certificate :=
  ⟨carriedDuals model axes a b k.duals, k.value⟩

/-- It certifies the same value for a function of the retracted realization. -/
theorem CarriesDuals.valid {a b : ConstraintSet ℝ} (h : CarriesDuals model lifted axes a b)
    {f f' : (ℕ → ℝ) → ℝ} (hf : ∀ U, f' U = f (retracted axes U)) {k : Certificate}
    (hk : k.Valid (model.uncertainty.region a) f) :
    (carryCertificate model axes a b k).Valid (lifted.uncertainty.region b) f' where
  admits := (h k.duals 0 hk.admits).1
  constant U := by
    rw [carryCertificate, hf, (h k.duals U hk.admits).2]
    exact hk.constant _

/-- The values of a counterpart with carried duals. -/
noncomputable def carryBlock (model lifted : RobustModel ℝ) (axes : List (LiftedAxis ℝ))
    (b : Block) : Block where
  epigraph := b.epigraph
  certificates := List.zipWith (fun ab k => carryCertificate model axes ab.1 ab.2 k)
    (model.uncertainty.alternatives.items.zip lifted.uncertainty.alternatives.items) b.certificates

private theorem carried_certificates {as bs : List (ConstraintSet ℝ)} {ks : List Certificate}
    (h : List.Forall₂ (CarriesDuals model lifted axes) as bs) {f f' : (ℕ → ℝ) → ℝ}
    (hf : ∀ U, f' U = f (retracted axes U)) (hks : List.Forall₂ (fun a (k : Certificate) =>
      k.Valid (model.uncertainty.region a) f) as ks) :
    List.Forall₂ (fun b (k : Certificate) => k.Valid (lifted.uncertainty.region b) f') bs
        (List.zipWith (fun ab k => carryCertificate model axes ab.1 ab.2 k) (as.zip bs) ks) ∧
      (List.zipWith (fun ab k => carryCertificate model axes ab.1 ab.2 k) (as.zip bs) ks).map
        (·.value) = ks.map (·.value) := by
  induction h generalizing ks with
  | nil =>
    obtain rfl := List.forall₂_nil_left_iff.1 hks
    exact ⟨.nil, rfl⟩
  | cons hab _ ih =>
    obtain ⟨k, rest, hk, hrest, rfl⟩ := List.forall₂_cons_left_iff.1 hks
    obtain ⟨hvalid, hvalues⟩ := ih hrest
    rw [List.zip_cons_cons, List.zipWith_cons_cons, List.map_cons, List.map_cons, hvalues]
    exact ⟨.cons (hab.valid hf hk) hvalid, rfl⟩

/-! ## Expectations -/

/-- An outcome that is lifted has an entry for each uncertainty, and within the bounds it is what
its lift is retracted to. -/
theorem retract_of_lift {l : Lifting ℝ} (h : l.Lifts model.uncertainty lifted.uncertainty)
    {r R : List ℝ} (hr : ∀ (i : ℕ) v x, model.uncertainty.vars.items[i]? = some v →
      r[i]? = some x → v.bounds.admits x = true) (hR : l.lift r = .ok R) :
    r.length = model.numUncertainties ∧ l.axes.map (·.retract (bySlot (entryAt R))) = r := by
  have hlength : r.length = l.axes.length := by
    by_contra hne
    rw [Lifting.lift, if_pos hne] at hR
    exact absurd hR throw_ne_ok
  rw [h.isOver.length_axes] at hlength
  have hadmits : List.Forall₂ (fun (v : UncertaintyVariable ℝ) x => v.bounds.admits x = true)
      model.uncertainty.vars.items r := List.forall₂_iff_get.2 ⟨hlength.symm, fun i hi hi' =>
    hr i _ _ (List.getElem?_eq_getElem hi) (List.getElem?_eq_getElem hi')⟩
  obtain ⟨R', hR', hretract⟩ :=
    h.retract_lift hlength (UncertaintySet.forall₂_admits_iff.1 hadmits).2
  obtain rfl := Except.ok.inj (hR.symm.trans hR')
  exact ⟨hlength, hretract⟩

/-- Outcomes of a lifted distribution are the lifts of the outcomes. -/
theorem hasOutcomes_lifted_iff {d : Distribution ℝ} {l : Lifting ℝ} {rows rows' : List (List ℝ)}
    (h : d.HasOutcomes rows) : (Distribution.lifted d l).HasOutcomes rows' ↔
      List.Forall₂ (fun r R => l.lift r = .ok R) rows rows' := by
  rw [Distribution.HasOutcomes] at h
  rw [Distribution.HasOutcomes, Distribution.outcomes, h, List.map_map, ← List.forall₂_eq_eq_eq,
    List.forall₂_map_left_iff, List.forall₂_map_right_iff]
  rfl

/-- The expectation of a lifted expression is that of the base expression. -/
theorem expectation_eq {l : Lifting ℝ} (h : l.Lifts model.uncertainty lifted.uncertainty)
    (hdistribution : ∀ base, model.distribution? = some base →
      lifted.distribution? = some (.lifted base l)) (hwithin : model.OutcomesWithinBounds)
    {e e' : UncertainExpr ℝ} (hvalues : ∀ U, e'.underPolicies lifted p' ω' U =
      e.underPolicies model p ω (retracted l.axes U)) {f f' : AffineExpr ℝ ConicRef}
    (hf : Counterpart.stochastic model p e = .ok f)
    (hf' : Counterpart.stochastic lifted p' e' = .ok f') : f'.eval ω' = f.eval ω := by
  obtain ⟨d, rows, hd, hrows, -, hmean⟩ := Counterpart.stochastic_eq_ok hf
  obtain ⟨d', rows', hd', hrows', -, hmean'⟩ := Counterpart.stochastic_eq_ok hf'
  obtain rfl : d' = .lifted d l := Option.some.inj (hd'.symm.trans (hdistribution d hd))
  have hlifts := (hasOutcomes_lifted_iff hrows).1 hrows'
  have hsame : rows'.map (fun R => e'.underPolicies lifted p' ω' (entryAt R)) =
      rows.map fun r => e.underPolicies model p ω (entryAt r) := by
    refine List.ext_getElem ?_ fun i hi hi' => ?_
    · rw [List.length_map, List.length_map, hlifts.length_eq]
    · rw [List.length_map] at hi hi'
      have hlift : l.lift rows[i] = .ok rows'[i] := hlifts.get hi' hi
      have hretract := (retract_of_lift h (hwithin d rows hd hrows _
        (List.getElem_mem hi')) hlift).2
      rw [List.getElem_map, List.getElem_map, hvalues, retracted, hretract]
  rw [hmean', hmean, hsame, hlifts.length_eq]

/-! ## What carries over -/

/-- The lifted model with its policies follows the base model with its policies. -/
structure Follows (model lifted : RobustModel ℝ) (axes : List (LiftedAxis ℝ))
    (p p' : PolicyVariables) (ω ω' : ConicRef → ℝ) : Prop where
  duals : List.Forall₂ (CarriesDuals model lifted axes) model.uncertainty.alternatives.items
    lifted.uncertainty.alternatives.items
  /-- Expressions have at lifted realizations their values at the retracted ones. -/
  values : ∀ {e e'}, Carries model lifted axes e e' →
    ∀ U, e'.underPolicies lifted p' ω' U = e.underPolicies model p ω (retracted axes U)
  /-- Expressions keep their expectations. -/
  expectations : model.OutcomesWithinBounds → ∀ {e e'}, Carries model lifted axes e e' →
    ∀ {f f'}, Counterpart.stochastic model p e = .ok f →
      Counterpart.stochastic lifted p' e' = .ok f' → f'.eval ω' = f.eval ω

/-- Opposite expressions carry over. -/
theorem Carries.negate {e e' : UncertainExpr ℝ} (h : Carries model lifted axes e e') :
    Carries model lifted axes e.negate e'.negate where
  mode := h.mode
  refers := UncertainExpr.refersTo_negate_iff.2 h.refers
  eval U δ := by rw [UncertainExpr.eval_negate, UncertainExpr.eval_negate, h.eval]

namespace Follows

variable {e e' : UncertainExpr ℝ} {bs : List Block} {v : ℝ}

/-- Admissible values of a counterpart carry over. -/
theorem block (h : Follows model lifted axes p p' ω ω') (hcarries : Carries model lifted axes e e')
    {b : Block} (hb : b.Valid e model p ω) :
    (carryBlock model lifted axes b).Valid e' lifted p' ω' := by
  obtain ⟨hvalid, hvalues⟩ := carried_certificates h.duals (h.values hcarries) hb.certificates
  refine ⟨hvalid, ?_⟩
  rw [carryBlock, hvalues, hcarries.mode]
  exact hb.below

/-- Values that a counterpart may take carry over. -/
theorem counterpartBy (h : Follows model lifted axes p p' ω ω')
    (hcarries : Carries model lifted axes e e')
    (hwithin : e.mode = .stochastic → model.OutcomesWithinBounds)
    (hcomputes : e'.Computes lifted p') (hbs : e.CounterpartBy model p ω bs v) :
    e'.CounterpartBy lifted p' ω' (bs.map (carryBlock model lifted axes)) v := by
  rw [UncertainExpr.CounterpartBy] at hbs ⊢
  rw [hcarries.mode]
  split at hbs
  · next hmode =>
    obtain ⟨rfl, f, hf, rfl⟩ := hbs
    obtain ⟨f', hf'⟩ := hcomputes (hcarries.mode.trans hmode)
    rw [if_pos hmode]
    exact ⟨rfl, f', hf', h.expectations (hwithin hmode) hcarries hf hf'⟩
  · next hmode =>
    obtain ⟨b, rfl, hb, rfl⟩ := hbs
    rw [if_neg hmode]
    exact ⟨_, rfl, h.block hcarries hb, rfl⟩

/-- Values that a relation may take carry over. -/
theorem ensuredBy (h : Follows model lifted axes p p' ω ω')
    {c c' : RawConstraint (UncertainExpr ℝ)} (hsense : c'.sense = c.sense)
    (hcarries : Carries model lifted axes c.expression c'.expression)
    (hwithin : c.expression.mode = .stochastic → model.OutcomesWithinBounds)
    (hcomputes : c'.Computes lifted p') (hbs : c.EnsuredBy model p ω bs) :
    c'.EnsuredBy lifted p' ω' (bs.map (carryBlock model lifted axes)) := by
  obtain ⟨sense, e⟩ := c
  obtain ⟨sense', e'⟩ := c'
  obtain rfl : sense' = sense := hsense
  cases sense' with
  | geq =>
    obtain ⟨v, hv, hnonneg⟩ := hbs
    exact ⟨v, h.counterpartBy hcarries hwithin hcomputes hv, hnonneg⟩
  | leq =>
    obtain ⟨v, hv, hnonneg⟩ := hbs
    exact ⟨v, h.counterpartBy hcarries.negate hwithin hcomputes hv, hnonneg⟩
  | eq =>
    obtain ⟨rfl, hzero⟩ := hbs
    exact ⟨rfl, fun U => (h.values hcarries U).trans (hzero _)⟩

/-- Values that an objective may take carry over. -/
theorem compiledBy (h : Follows model lifted axes p p' ω ω') {o : RobustObjective ℝ}
    (hcarries : Carries model lifted axes o.expression e')
    (hwithin : o.expression.mode = .stochastic → model.OutcomesWithinBounds)
    (hcomputes : RobustObjective.Computes (.new o.sense e') lifted p')
    (hbs : RobustObjective.CompiledBy o model p ω bs v) :
    RobustObjective.CompiledBy (.new o.sense e') lifted p' ω'
      (bs.map (carryBlock model lifted axes)) v := by
  obtain ⟨sense, e, value?⟩ := o
  cases sense with
  | maximize => exact h.counterpartBy hcarries hwithin hcomputes hbs
  | minimize => exact h.counterpartBy hcarries.negate hwithin hcomputes hbs

end Follows

end LiftedModel

end AdjustableRobust
