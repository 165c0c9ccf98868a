import AdjustableRobust.Proofs.Policy.Appends
import AdjustableRobust.Proofs.Policy.Counterpart

/-!
# What a compiled model encodes

Every constraint, every decision bound and the objective of a robust model is compiled to a
condition on the policy variables. The compiled model can be satisfied exactly when all these
conditions hold, and its objective then takes exactly the values that the counterpart of the
objective may take.
-/

namespace AdjustableRobust

/-- The values that the counterpart of the expression may take: those below certified values, or
the expectation. -/
def UncertainExpr.CounterpartValue (e : UncertainExpr ℝ) (model : RobustModel ℝ)
    (p : PolicyVariables) (ω : ConicRef → ℝ) (v : ℝ) : Prop :=
  if e.mode = .stochastic then ∃ f, Counterpart.stochastic model p e = .ok f ∧ f.eval ω = v
  else e.CertifiedBelow model p ω v

/-- Unless it is an expectation, the counterpart is below certified values. -/
theorem UncertainExpr.CounterpartValue.certifiedBelow {e : UncertainExpr ℝ} {model : RobustModel ℝ}
    {p : PolicyVariables} {ω : ConicRef → ℝ} {v : ℝ} (h : e.CounterpartValue model p ω v)
    (hmode : e.mode ≠ .stochastic) : e.CertifiedBelow model p ω v := by
  rwa [CounterpartValue, if_neg hmode] at h

/-- The condition on the policy variables that a constraint is compiled to. -/
def RawConstraint.Ensured (c : RawConstraint (UncertainExpr ℝ)) (model : RobustModel ℝ)
    (p : PolicyVariables) (ω : ConicRef → ℝ) : Prop :=
  match c.sense with
  | .geq => ∃ v, c.expression.CounterpartValue model p ω v ∧ 0 ≤ v
  | .leq => ∃ v, c.expression.negate.CounterpartValue model p ω v ∧ 0 ≤ v
  | .eq => ∀ u, c.expression.underPolicies model p ω u = 0

/-- The values that the objective of the compiled model may take. -/
def RobustObjective.CompiledValue (o : RobustObjective ℝ) (model : RobustModel ℝ)
    (p : PolicyVariables) (ω : ConicRef → ℝ) (v : ℝ) : Prop :=
  match o.sense with
  | .maximize => o.expression.CounterpartValue model p ω v
  | .minimize => o.expression.negate.CounterpartValue model p ω (-v)

/-! ## Values of the compiled variables -/

/-- The variables of the counterpart of the expression may take the values, and the counterpart has
the given one: there is a block of variables unless the expression is an expectation. -/
def UncertainExpr.CounterpartBy (e : UncertainExpr ℝ) (model : RobustModel ℝ)
    (p : PolicyVariables) (ω : ConicRef → ℝ) (bs : List Block) (v : ℝ) : Prop :=
  if e.mode = .stochastic then
    bs = [] ∧ ∃ f, Counterpart.stochastic model p e = .ok f ∧ f.eval ω = v
  else ∃ b : Block, bs = [b] ∧ b.Valid e model p ω ∧ b.epigraph = v

/-- The variables that a constraint is compiled to may take the values. -/
def RawConstraint.EnsuredBy (c : RawConstraint (UncertainExpr ℝ)) (model : RobustModel ℝ)
    (p : PolicyVariables) (ω : ConicRef → ℝ) (bs : List Block) : Prop :=
  match c.sense with
  | .geq => ∃ v, c.expression.CounterpartBy model p ω bs v ∧ 0 ≤ v
  | .leq => ∃ v, c.expression.negate.CounterpartBy model p ω bs v ∧ 0 ≤ v
  | .eq => bs = [] ∧ ∀ u, c.expression.underPolicies model p ω u = 0

/-- The variables that an objective is compiled to may take the values, and the compiled objective
has the given one. -/
def RobustObjective.CompiledBy (o : RobustObjective ℝ) (model : RobustModel ℝ)
    (p : PolicyVariables) (ω : ConicRef → ℝ) (bs : List Block) (v : ℝ) : Prop :=
  match o.sense with
  | .maximize => o.expression.CounterpartBy model p ω bs v
  | .minimize => o.expression.negate.CounterpartBy model p ω bs (-v)

section Values

variable {model : RobustModel ℝ} {p : PolicyVariables} {ω : ConicRef → ℝ} {v : ℝ}

/-- The counterpart may take what it takes by some values of its variables. -/
theorem UncertainExpr.counterpartValue_iff {e : UncertainExpr ℝ} :
    e.CounterpartValue model p ω v ↔ ∃ bs, e.CounterpartBy model p ω bs v := by
  unfold CounterpartValue CounterpartBy
  split
  · simp
  · rw [certifiedBelow_iff_exists_block]
    constructor
    · rintro ⟨b, hb, hv⟩
      exact ⟨[b], b, rfl, hb, hv⟩
    · rintro ⟨_, b, -, hb, hv⟩
      exact ⟨b, hb, hv⟩

/-- A constraint is ensured by some values. -/
theorem RawConstraint.ensured_iff {c : RawConstraint (UncertainExpr ℝ)} :
    c.Ensured model p ω ↔ ∃ bs, c.EnsuredBy model p ω bs := by
  unfold Ensured EnsuredBy
  cases c.sense with
  | leq =>
    simp only [UncertainExpr.counterpartValue_iff]
    exact ⟨fun ⟨v, ⟨bs, hbs⟩, hv⟩ => ⟨bs, v, hbs, hv⟩, fun ⟨bs, v, hbs, hv⟩ => ⟨v, ⟨bs, hbs⟩, hv⟩⟩
  | geq =>
    simp only [UncertainExpr.counterpartValue_iff]
    exact ⟨fun ⟨v, ⟨bs, hbs⟩, hv⟩ => ⟨bs, v, hbs, hv⟩, fun ⟨bs, v, hbs, hv⟩ => ⟨v, ⟨bs, hbs⟩, hv⟩⟩
  | eq => simp

/-- A list of constraints is ensured by some values, one block list for each. -/
theorem RawConstraint.forall_ensured_iff {cs : List (RawConstraint (UncertainExpr ℝ))} :
    (∀ c ∈ cs, c.Ensured model p ω) ↔
      ∃ bss, List.Forall₂ (fun c bs => RawConstraint.EnsuredBy c model p ω bs) cs bss := by
  induction cs with
  | nil => simp
  | cons c cs ih =>
    rw [List.forall_mem_cons, ih, ensured_iff]
    constructor
    · rintro ⟨⟨bs, hbs⟩, bss, hbss⟩
      exact ⟨bs :: bss, .cons hbs hbss⟩
    · rintro ⟨_, _ | ⟨hbs, hbss⟩⟩
      exact ⟨⟨_, hbs⟩, _, hbss⟩

/-- The compiled objective may take what it takes by some values of its variables. -/
theorem RobustObjective.compiledValue_iff {o : RobustObjective ℝ} :
    o.CompiledValue model p ω v ↔ ∃ bs, o.CompiledBy model p ω bs v := by
  unfold CompiledValue CompiledBy
  cases o.sense <;> exact UncertainExpr.counterpartValue_iff

end Values

/-- The bounds of a decision as constraints, the lower one first. -/
noncomputable def DecisionVariable.rows (d : DecisionVariable ℝ) (h : DecisionRef) :
    List (RawConstraint (UncertainExpr ℝ)) :=
  (d.bounds.lower?.map ((UncertainExpr.decision h).relateValue .geq)).toList
    ++ (d.bounds.upper?.map ((UncertainExpr.decision h).relateValue .leq)).toList

/-- Bounds of decisions are required at every realization. -/
theorem DecisionVariable.mode_of_mem_rows {d : DecisionVariable ℝ} {h : DecisionRef}
    {c : RawConstraint (UncertainExpr ℝ)} (hc : c ∈ d.rows h) : c.expression.mode = .union := by
  rw [rows, List.mem_append, Option.mem_toList, Option.mem_toList] at hc
  rcases hc with hc | hc <;>
  · obtain ⟨b, -, rfl⟩ := Option.map_eq_some_iff.1 hc
    rfl

/-- Everything that a compiled model has to ensure: the constraints, then the bounds of the
decisions. -/
noncomputable def RobustModel.requirements (model : RobustModel ℝ) :
    List (RawConstraint (UncertainExpr ℝ)) :=
  model.constraints.map (·.toRawConstraint) ++ model.decisions.entries.flatMap fun d => d.2.rows d.1

/-- All requirements are all constraints and all bounds. -/
theorem RobustModel.forall_mem_requirements {model : RobustModel ℝ}
    {P : RawConstraint (UncertainExpr ℝ) → Prop} :
    (∀ c ∈ model.requirements, P c) ↔ (∀ c ∈ model.constraints, P c.toRawConstraint) ∧
      ∀ d ∈ model.decisions.entries, ∀ c ∈ d.2.rows d.1, P c := by
  rw [requirements, List.forall_mem_append, List.forall_mem_map]
  refine and_congr_right' ⟨fun h d hd c hc => h c (List.mem_flatMap.2 ⟨d, hd, hc⟩),
    fun h c hc => ?_⟩
  obtain ⟨d, hd, hc⟩ := List.mem_flatMap.1 hc
  exact h d hd c hc

namespace Counterpart

variable {model : RobustModel ℝ} {p : PolicyVariables} {m m' : ConicModel ℝ}
variable {e : UncertainExpr ℝ} {name : String} {ω ω' : ConicRef → ℝ}

/-! ## Conditions look at variables of the model only -/

private theorem expectedTerms_declared (hp : p.DeclaredIn m) {d : DecisionRef} {xs : List ℝ}
    {x : ℝ} {f f' : AffineExpr ℝ ConicRef} (hf : ∀ v ∈ f.vars, m.Declares v)
    (hrun : expectedTerms p d xs x f = .ok f') : ∀ v ∈ f'.vars, m.Declares v := by
  have hterm : ∀ {g : AffineExpr ℝ ConicRef} {c : ℝ} {v : ConicRef}, (∀ v ∈ g.vars, m.Declares v) →
      m.Declares v → ∀ w ∈ (g.addTerm c v).vars, m.Declares w := by
    intro g c v hg hv w hw
    rw [AffineExpr.vars_addTerm, List.mem_append, List.mem_singleton] at hw
    rcases hw with hw | rfl
    · exact hg w hw
    · exact hv
  simp only [expectedTerms, bind_eq_ok_iff, PolicyError.fromStore] at hrun
  obtain ⟨g, hfold, hrest⟩ := hrun
  have hg : ∀ v ∈ g.vars, m.Declares v := by
    refine foldlM_invariant (I := fun f => ∀ v ∈ f.vars, m.Declares v) ?_ hf hfold
    intro f x _ f' hf hstep
    split at hstep
    · rw [pure_eq_ok_iff] at hstep
      exact hstep ▸ hf
    · simp only [bind_eq_ok_iff, mapError_eq_ok_iff, pure_eq_ok_iff] at hstep
      obtain ⟨a, ha, rfl⟩ := hstep
      obtain ⟨fs, hfs, ha⟩ := PolicyVariables.factor_eq_ok_iff.1 ha
      exact hterm hf (hp.factors fs (List.mem_of_getElem? hfs) a (List.mem_of_getElem? ha))
  split at hrest
  · rw [pure_eq_ok_iff] at hrest
    exact hrest ▸ hg
  · simp only [bind_eq_ok_iff, mapError_eq_ok_iff, pure_eq_ok_iff] at hrest
    obtain ⟨b, hb, rfl⟩ := hrest
    rw [PolicyVariables.constant_eq_ok_iff] at hb
    exact hterm hg (hp.constants b (List.mem_of_getElem? hb))

private theorem stochastic_declared (hp : p.DeclaredIn m) {f : AffineExpr ℝ ConicRef}
    (hrun : stochastic model p e = .ok f) : ∀ v ∈ f.vars, m.Declares v := by
  simp only [stochastic, bind_eq_ok_iff] at hrun
  obtain ⟨_, _, _, _, _, _, _, _, hfold⟩ := hrun
  refine foldlM_invariant (I := fun f => ∀ v ∈ f.vars, m.Declares v) ?_ (by simp) hfold
  intro f x _ f' hf hstep
  exact expectedTerms_declared hp hf hstep

private theorem stochastic_congr (hp : p.DeclaredIn m) {f : AffineExpr ℝ ConicRef}
    (hrun : stochastic model p e = .ok f) (ha : m.Agree ω ω') : f.eval ω' = f.eval ω :=
  AffineExpr.eval_congr fun v hv => ha v (stochastic_declared hp hrun v hv)

/-- What the counterpart of an expression may take depends on variables of the model only. -/
theorem counterpartBy_congr (hp : p.DeclaredIn m) (ha : m.Agree ω ω') {bs : List Block}
    {v : ℝ} : e.CounterpartBy model p ω' bs v ↔ e.CounterpartBy model p ω bs v := by
  unfold UncertainExpr.CounterpartBy
  split
  · refine and_congr_right' (exists_congr fun f => and_congr_right fun hf => ?_)
    rw [stochastic_congr hp hf ha]
  · refine exists_congr fun b => and_congr_right' (and_congr_left' ?_)
    have hfun : e.underPolicies model p ω' = e.underPolicies model p ω :=
      e.underPolicies_congr hp ha
    exact ⟨fun h => ⟨hfun ▸ h.certificates, h.below⟩, fun h => ⟨hfun ▸ h.certificates, h.below⟩⟩

/-- What a constraint may take depends on variables of the model only. -/
theorem ensuredBy_congr (hp : p.DeclaredIn m) (ha : m.Agree ω ω') {bs : List Block}
    {c : RawConstraint (UncertainExpr ℝ)} :
    c.EnsuredBy model p ω' bs ↔ c.EnsuredBy model p ω bs := by
  obtain ⟨sense, e⟩ := c
  cases sense with
  | leq => exact exists_congr fun v => and_congr_left fun _ => counterpartBy_congr hp ha
  | geq => exact exists_congr fun v => and_congr_left fun _ => counterpartBy_congr hp ha
  | eq =>
    simp only [RawConstraint.EnsuredBy]
    rw [e.underPolicies_congr hp ha]

/-- What an objective may take depends on variables of the model only. -/
theorem compiledBy_congr (hp : p.DeclaredIn m) (ha : m.Agree ω ω') {bs : List Block} {v : ℝ}
    {o : RobustObjective ℝ} :
    RobustObjective.CompiledBy o model p ω' bs v ↔ RobustObjective.CompiledBy o model p ω bs v := by
  rw [RobustObjective.CompiledBy, RobustObjective.CompiledBy]
  cases o.sense <;> exact counterpartBy_congr hp ha

/-! ## The steps of the compilation -/

/-- The variables of a counterpart take exactly the values that they may take. Unless it is an
expectation, the expression and all alternatives refer to the model. -/
theorem counterpart_writes {f : AffineExpr ℝ ConicRef} (hp : p.DeclaredIn m)
    (hrun : counterpart model p e name m = .ok f m') :
    (e.mode ≠ .stochastic →
        ∀ alternative ∈ model.uncertainty.alternatives.items, ResolvesIn model p e alternative) ∧
      (∀ h ∈ f.vars, m'.Declares h) ∧ m.Writes m' f.eval fun ω vs v =>
        ∃ bs, e.CounterpartBy model p ω bs v ∧ vs = bs.flatMap (·.values) := by
  have hrobust : e.mode ≠ .stochastic → robust model p e name m = .ok f m' →
      (e.mode ≠ .stochastic →
        ∀ alternative ∈ model.uncertainty.alternatives.items, ResolvesIn model p e alternative) ∧
      (∀ h ∈ f.vars, m'.Declares h) ∧ m.Writes m' f.eval fun ω vs v =>
        ∃ bs, e.CounterpartBy model p ω bs v ∧ vs = bs.flatMap (·.values) := by
    intro hmode hrun
    obtain ⟨hresolves, hdeclares, hwrites⟩ := robust_writes hp hrun
    refine ⟨fun _ => hresolves, hdeclares, hwrites.of_iff fun ω vs v => ?_⟩
    simp only [UncertainExpr.CounterpartBy, if_neg hmode]
    constructor
    · rintro ⟨b, hb, rfl, rfl⟩
      exact ⟨[b], ⟨b, rfl, hb, rfl⟩, by simp⟩
    · rintro ⟨_, ⟨b, rfl, hb, rfl⟩, rfl⟩
      exact ⟨b, hb, by simp, rfl⟩
  unfold counterpart at hrun
  cases hmode : e.mode with
  | stochastic =>
    rw [hmode, Step.ofExcept_eq_ok_iff] at hrun
    obtain ⟨hf, rfl⟩ := hrun
    refine ⟨fun h => absurd rfl h, stochastic_declared hp hf, ?_⟩
    refine (ConicModel.Writes.unchanged fun ω ω' ha => stochastic_congr hp hf ha).of_iff
      fun ω vs v => ?_
    simp only [UncertainExpr.CounterpartBy, hmode, ite_true, hf]
    constructor
    · rintro ⟨rfl, rfl⟩
      exact ⟨[], ⟨rfl, f, rfl, rfl⟩, rfl⟩
    · rintro ⟨_, ⟨rfl, g, hg, rfl⟩, rfl⟩
      obtain rfl := Except.ok.inj hg
      exact ⟨rfl, rfl⟩
  | union =>
    rw [hmode] at hrun
    exact hmode ▸ hrobust (by simp [hmode]) hrun
  | average =>
    rw [hmode] at hrun
    exact hmode ▸ hrobust (by simp [hmode]) hrun

/-- An equality that is compiled is trivial, or its residuals and its objective are required to
vanish. -/
theorem compileEquality_eq_ok {u : Unit} (hrun : compileEquality model p e name m = .ok u m') :
    (e.simplify.isZero = true ∧ m' = m) ∨ e.simplify.isZero = false ∧ ∃ l m₁,
      addExpression model p (.zero model.numUncertainties) e.simplify = .ok l ∧
        requireResiduals model l (fun u => s!"{name}_AffRC_{u}") m = .ok () m₁ ∧
          requireAffine s!"{name}_AffRC_Base" .eq l.objective m₁ = .ok u m' := by
  unfold compileEquality at hrun
  split at hrun
  · obtain ⟨_, _, hthrow, _⟩ := Step.bind_eq_ok_iff.1 hrun
    exact absurd hthrow Step.throw_ne_ok
  · dsimp only at hrun
    split at hrun
    · next hzero => exact .inl ⟨hzero, (Step.pure_eq_ok_iff.1 hrun).2.symm⟩
    · next hzero =>
      simp only [Step.bind_eq_ok_iff, Step.ofExcept_eq_ok_iff] at hrun
      obtain ⟨l, _, ⟨hadd, rfl⟩, _, m₁, hresiduals, hbase⟩ := hrun
      exact .inr ⟨Bool.eq_false_iff.2 hzero, l, m₁, hadd, hresiduals, hbase⟩

/-- An equality appends constraints, if any, that hold together when the expression vanishes
whatever the uncertainties are. -/
theorem compileEquality_adds {u : Unit} (hrun : compileEquality model p e name m = .ok u m') :
    m.AddsConstraints m' fun ω => ∀ u, e.underPolicies model p ω u = 0 := by
  have hsimplify : ∀ ω u, e.simplify.underPolicies model p ω u = e.underPolicies model p ω u :=
    fun ω u => e.eval_simplify _ _
  obtain ⟨hzero, rfl⟩ | ⟨-, l, m₁, hadd, hresiduals, hbase⟩ := compileEquality_eq_ok hrun
  · refine .refl _ fun ω u => ?_
    rw [← hsimplify]
    exact UncertainExpr.eval_of_isZero hzero _ _
  · obtain ⟨-, hlen, hval⟩ := addExpression_eq_ok hadd
    have hfun : ∀ ω u, l.valueAt ω u = e.underPolicies model p ω u := fun ω u => by
      rw [hval, Lagrangian.valueAt_zero, Pi.zero_apply, zero_add, hsimplify]
    have hsize : l.residuals.length = model.numUncertainties := by
      rw [hlen, Lagrangian.zero, List.length_replicate]
    refine ((requireResiduals_adds hsize hresiduals).trans (requireAffine_adds hbase)).of_iff
      fun ω => ?_
    rw [← l.forall_valueAt_eq_iff, ← l.valueAt_origin]
    simp only [hfun]
    constructor
    · rintro ⟨hconst, horigin⟩ u
      rw [hconst u]
      exact horigin
    · intro hv
      exact ⟨fun u => by rw [hv, hv], hv 0⟩

/-- An equality is compiled to the condition that the expression vanishes at every realization. -/
theorem compileEquality_writes {u : Unit} (hp : p.DeclaredIn m)
    (hrun : compileEquality model p e name m = .ok u m') :
    m.Writes m' (fun _ => ()) fun ω vs _ => vs = [] ∧ ∀ u, e.underPolicies model p ω u = 0 :=
  (compileEquality_adds hrun).writes fun ω ω' ha => by rw [e.underPolicies_congr hp ha]

private theorem requireCounterpart_writes {f : AffineExpr ℝ ConicRef} {label : String}
    {m₁ : ConicModel ℝ} {u : Unit} (hp : p.DeclaredIn m)
    (hrun : counterpart model p e name m = .ok f m₁)
    (hrequire : requireAffine label .geq f m₁ = .ok u m') :
    m.Writes m' (fun _ => ()) fun ω vs _ =>
      ∃ bs, (∃ v, e.CounterpartBy model p ω bs v ∧ 0 ≤ v) ∧ vs = bs.flatMap (·.values) := by
  obtain ⟨-, -, henc⟩ := counterpart_writes hp hrun
  refine ((henc.addsConstraints (fun _ v => 0 ≤ v) (requireAffine_adds hrequire)
    (fun _ => Iff.rfl) fun _ _ _ => rfl).map (fun _ _ => ()) (fun _ _ _ => rfl)
    fun _ => rfl).of_iff fun ω vs _ => ?_
  constructor
  · rintro ⟨v, ⟨⟨bs, hbs, rfl⟩, hv⟩, -⟩
    exact ⟨bs, ⟨v, hbs, hv⟩, rfl⟩
  · rintro ⟨bs, ⟨v, hbs, hv⟩, rfl⟩
    exact ⟨v, ⟨⟨bs, hbs, rfl⟩, hv⟩, rfl⟩

/-- A constraint is compiled to the condition that ensures it. -/
theorem compileConstraint_writes {c : RawConstraint (UncertainExpr ℝ)} {u : Unit}
    (hp : p.DeclaredIn m) (hrun : compileConstraint model p name c m = .ok u m') :
    m.Writes m' (fun _ => ()) fun ω vs _ =>
      ∃ bs, c.EnsuredBy model p ω bs ∧ vs = bs.flatMap (·.values) := by
  obtain ⟨sense, e⟩ := c
  cases sense with
  | geq =>
    obtain ⟨f, m₁, hcounterpart, hrequire⟩ := Step.bind_eq_ok_iff.1 hrun
    exact requireCounterpart_writes hp hcounterpart hrequire
  | leq =>
    obtain ⟨f, m₁, hcounterpart, hrequire⟩ := Step.bind_eq_ok_iff.1 hrun
    exact requireCounterpart_writes hp hcounterpart hrequire
  | eq =>
    refine (compileEquality_writes hp hrun).of_iff fun ω vs _ => ?_
    constructor
    · rintro ⟨rfl, hzero⟩
      exact ⟨[], ⟨rfl, hzero⟩, rfl⟩
    · rintro ⟨_, ⟨rfl, hzero⟩, rfl⟩
      exact ⟨rfl, hzero⟩

/-- The values of constraints, one after the other. -/
private abbrev EnsuredInTurn (model : RobustModel ℝ) (p : PolicyVariables)
    (cs : List (RawConstraint (UncertainExpr ℝ))) (ω : ConicRef → ℝ) (vs : List ℝ) : Prop :=
  ∃ bss, List.Forall₂ (fun c bs => RawConstraint.EnsuredBy c model p ω bs) cs bss ∧
    vs = bss.flatten.flatMap (·.values)

private theorem ensuredInTurn_append_iff {cs ds : List (RawConstraint (UncertainExpr ℝ))}
    {vs : List ℝ} : EnsuredInTurn model p (cs ++ ds) ω vs ↔
      ∃ vs₁ vs₂, vs = vs₁ ++ vs₂ ∧
        EnsuredInTurn model p cs ω vs₁ ∧ EnsuredInTurn model p ds ω vs₂ := by
  constructor
  · rintro ⟨bss, hbss, rfl⟩
    induction cs generalizing bss with
    | nil => exact ⟨[], _, rfl, ⟨[], .nil, rfl⟩, bss, hbss, rfl⟩
    | cons c cs ih =>
      obtain ⟨bs, rest, hbs, hrest, rfl⟩ := List.forall₂_cons_left_iff.1 hbss
      obtain ⟨_, vs₂, heq, ⟨bss₁, hbss₁, rfl⟩, hds⟩ := ih rest hrest
      refine ⟨(bs :: bss₁).flatten.flatMap (·.values), vs₂, ?_, ⟨_, .cons hbs hbss₁, rfl⟩, hds⟩
      rw [List.flatten_cons, List.flatten_cons, List.flatMap_append, List.flatMap_append, heq,
        List.append_assoc]
  · rintro ⟨_, _, rfl, ⟨bss₁, hbss₁, rfl⟩, bss₂, hbss₂, rfl⟩
    exact ⟨bss₁ ++ bss₂, List.rel_append hbss₁ hbss₂, by
      rw [List.flatten_append, List.flatMap_append]⟩

private theorem ensuredInTurn_flatMap_iff {β : Type}
    {cs : β → List (RawConstraint (UncertainExpr ℝ))} {xs : List β} {vs : List ℝ} :
    EnsuredInTurn model p (xs.flatMap cs) ω vs ↔
      ∃ vss, List.Forall₂ (fun x vs => EnsuredInTurn model p (cs x) ω vs) xs vss ∧
        vs = vss.flatten := by
  induction xs generalizing vs with
  | nil => simp [EnsuredInTurn]
  | cons x xs ih =>
    rw [List.flatMap_cons, ensuredInTurn_append_iff]
    constructor
    · rintro ⟨vs₁, _, rfl, hx, hxs⟩
      obtain ⟨vss, hvss, rfl⟩ := ih.1 hxs
      exact ⟨vs₁ :: vss, .cons hx hvss, List.flatten_cons.symm⟩
    · rintro ⟨_, _ | ⟨hx, hxs⟩, rfl⟩
      exact ⟨_, _, List.flatten_cons, hx, ih.2 ⟨_, hxs, rfl⟩⟩

private theorem ensuredInTurn_congr (hp : p.DeclaredIn m) (ha : m.Agree ω ω')
    {cs : List (RawConstraint (UncertainExpr ℝ))} {vs : List ℝ}
    (h : EnsuredInTurn model p cs ω vs) : EnsuredInTurn model p cs ω' vs := by
  obtain ⟨bss, hbss, hvs⟩ := h
  exact ⟨bss, hbss.imp fun _ _ hc => (ensuredBy_congr hp ha).2 hc, hvs⟩

private theorem ensuredInTurn_singleton_iff {c : RawConstraint (UncertainExpr ℝ)} {vs : List ℝ} :
    EnsuredInTurn model p [c] ω vs ↔
      ∃ bs, c.EnsuredBy model p ω bs ∧ vs = bs.flatMap (·.values) := by
  constructor
  · rintro ⟨_, _ | ⟨hbs, _ | _⟩, rfl⟩
    exact ⟨_, hbs, by simp⟩
  · rintro ⟨bs, hbs, rfl⟩
    exact ⟨[bs], .cons hbs .nil, by simp⟩

private theorem forM_bound_writes {d : DecisionVariable ℝ} {h : DecisionRef} {label : String}
    {s : ConstraintSense} {b? : Option ℝ} {u : Unit} (hp : p.DeclaredIn m)
    (hrun : (b?.forM fun b => compileConstraint model p s!"{label}_{d.name}"
      ((UncertainExpr.decision h).relateValue s b)) m = .ok u m') :
    m.Writes m' (fun _ => ()) fun ω vs _ =>
      EnsuredInTurn model p (b?.map ((UncertainExpr.decision h).relateValue s)).toList ω vs := by
  cases b? with
  | none =>
    obtain ⟨-, rfl⟩ := Step.pure_eq_ok_iff.1 hrun
    exact (ConicModel.Writes.unchanged fun _ _ _ => rfl).of_iff fun ω vs _ => by
      simp [EnsuredInTurn]
  | some b =>
    exact (compileConstraint_writes hp hrun).of_iff fun ω vs _ => ensuredInTurn_singleton_iff.symm

private theorem compileBounds_writes {h : DecisionRef} {d : DecisionVariable ℝ} {u : Unit}
    (hp : p.DeclaredIn m) (hrun : compileBounds model p h d m = .ok u m') :
    m.Writes m' (fun _ => ()) fun ω vs _ => EnsuredInTurn model p (d.rows h) ω vs := by
  obtain ⟨_, m₁, hlower, hupper⟩ := Step.bind_eq_ok_iff.1 hrun
  have hfirst := forM_bound_writes hp hlower
  have hsecond := forM_bound_writes (hp.extend hfirst.extension) hupper
  refine (hfirst.seq (fun ω _ vs _ => EnsuredInTurn model p
      (d.bounds.upper?.map ((UncertainExpr.decision h).relateValue .leq)).toList ω vs)
    (fun _ _ _ => ()) hsecond (fun ω ω' _ _ _ ha hc => ensuredInTurn_congr hp ha hc)
    (fun _ _ _ => rfl) fun _ => rfl).of_iff fun ω vs _ => ?_
  rw [DecisionVariable.rows, ensuredInTurn_append_iff]
  constructor
  · rintro ⟨vs₁, vs₂, _, _, hvs, hl, hu, -⟩
    exact ⟨vs₁, vs₂, hvs, hl, hu⟩
  · rintro ⟨vs₁, vs₂, hvs, hl, hu⟩
    exact ⟨vs₁, vs₂, (), (), hvs, hl, hu, rfl⟩

private theorem compileRequirements_write {m₁ : ConicModel ℝ} {u₁ u₂ : Unit} (hp : p.DeclaredIn m)
    (hconstraints : (model.constraints.forM fun c =>
      compileConstraint model p c.name c.toRawConstraint) m = .ok u₁ m₁)
    (hbounds : (model.decisions.entries.forM fun (h, d) => compileBounds model p h d) m₁ =
      .ok u₂ m') :
    m.Writes m' (fun _ => ()) fun ω vs _ => EnsuredInTurn model p model.requirements ω vs := by
  have hextend : ∀ m m' : ConicModel ℝ, p.DeclaredIn m → m.Extends m' → p.DeclaredIn m' :=
    fun _ _ hp h => hp.extend h
  have hcs := (forM_writes
    (P := fun (c : RobustConstraint ℝ) ω vs => EnsuredInTurn model p [c.toRawConstraint] ω vs)
    hextend (fun _ _ _ _ _ hp ha h => ensuredInTurn_congr hp ha h)
    (fun _ _ _ _ _ hp hc => (compileConstraint_writes hp hc).of_iff
      fun _ _ _ => ensuredInTurn_singleton_iff.symm) hp hconstraints).of_iff fun ω vs _ =>
    show _ ↔ EnsuredInTurn model p (model.constraints.map (·.toRawConstraint)) ω vs by
      rw [List.map_eq_flatMap, ensuredInTurn_flatMap_iff]
  have hds := (forM_writes
    (P := fun (d : DecisionRef × DecisionVariable ℝ) ω vs =>
      EnsuredInTurn model p (d.2.rows d.1) ω vs)
    hextend (fun _ _ _ _ _ hp ha h => ensuredInTurn_congr hp ha h)
    (fun _ _ _ _ _ hp hd => compileBounds_writes hp hd) (hp.extend hcs.extension) hbounds).of_iff
    fun ω vs _ => ensuredInTurn_flatMap_iff.symm
  refine (hcs.seq (fun ω _ vs _ => EnsuredInTurn model p (model.decisions.entries.flatMap
      fun d : DecisionRef × DecisionVariable ℝ => d.2.rows d.1) ω vs) (fun _ _ _ => ()) hds
    (fun ω ω' _ _ _ ha h => ensuredInTurn_congr hp ha h) (fun _ _ _ => rfl)
    fun _ => rfl).of_iff fun ω vs _ => ?_
  rw [RobustModel.requirements, ensuredInTurn_append_iff]
  constructor
  · rintro ⟨vs₁, vs₂, _, _, hvs, hc, hd, -⟩
    exact ⟨vs₁, vs₂, hvs, hc, hd⟩
  · rintro ⟨vs₁, vs₂, hvs, hc, hd⟩
    exact ⟨vs₁, vs₂, (), (), hvs, hc, hd, rfl⟩

/-- The objective is compiled to a single objective of the same direction that takes exactly the
values it may take. -/
theorem compileObjective_writes {u : Unit} (hp : p.DeclaredIn m)
    (hrun : compileObjective model p m = .ok u m') :
    ∃ o f, model.objective = .ok o ∧ m'.objectives = m.objectives ++ [.new o.sense f] ∧
      (∀ h ∈ f.vars, m'.Declares h) ∧ m.Writes { m' with objectives := m.objectives } f.eval
        fun ω vs v => ∃ bs, RobustObjective.CompiledBy o model p ω bs v ∧
          vs = bs.flatMap (·.values) := by
  simp only [compileObjective, Step.bind_eq_ok_iff, Step.ofExcept_eq_ok_iff] at hrun
  obtain ⟨⟨sense, e, value?⟩, _, ⟨ho, rfl⟩, hrest⟩ := hrun
  cases sense with
  | maximize =>
    obtain ⟨f, m₁, hcounterpart, hmodify⟩ := Step.bind_eq_ok_iff.1 hrest
    obtain ⟨-, hdeclares, henc⟩ := counterpart_writes hp hcounterpart
    rw [← Step.modify_eq_ok_iff.1 hmodify]
    refine ⟨_, f, ho, by rw [ConicModel.addObjective, henc.extension.objectives], hdeclares, ?_⟩
    exact henc.withObjectives m.objectives
  | minimize =>
    obtain ⟨f, m₁, hcounterpart, hmodify⟩ := Step.bind_eq_ok_iff.1 hrest
    obtain ⟨-, hdeclares, henc⟩ := counterpart_writes hp hcounterpart
    rw [← Step.modify_eq_ok_iff.1 hmodify]
    refine ⟨_, f.negate, ho, by rw [ConicModel.addObjective, henc.extension.objectives],
      by rwa [AffineExpr.vars_negate], ?_⟩
    have hneg := (henc.withObjectives m.objectives).map (fun _ v => -v) (fun _ _ _ => rfl)
      fun ω => AffineExpr.eval_negate f ω
    refine hneg.of_iff fun ω vs v => ?_
    constructor
    · rintro ⟨w, ⟨bs, hbs, hvs⟩, rfl⟩
      exact ⟨bs, by rwa [RobustObjective.CompiledBy, neg_neg], hvs⟩
    · intro hv
      exact ⟨-v, hv, neg_neg v⟩

/-- The compiled model encodes that the objective takes a value it may take and that all
constraints and bounds are ensured, by the values of its variables in order. -/
theorem compile_writes {u : Unit} (hp : p.DeclaredIn m) (hrun : compile model p m = .ok u m') :
    ∃ o f, model.objective = .ok o ∧ m'.objectives = m.objectives ++ [.new o.sense f] ∧
      (∀ h ∈ f.vars, m'.Declares h) ∧ m.Writes { m' with objectives := m.objectives } f.eval
        fun ω vs v => ∃ bs bss, RobustObjective.CompiledBy o model p ω bs v ∧
          List.Forall₂ (fun c bs => RawConstraint.EnsuredBy c model p ω bs) model.requirements bss ∧
            vs = (bs ++ bss.flatten).flatMap (·.values) := by
  simp only [compile, Step.bind_eq_ok_iff] at hrun
  obtain ⟨_, m₁, hobjective, _, m₂, hconstraints, hbounds⟩ := hrun
  obtain ⟨o, f, ho, hos, hdeclares, henc⟩ := compileObjective_writes hp hobjective
  have hp₁ : p.DeclaredIn m₁ := by
    obtain ⟨hfactors, hconstants⟩ := hp.extend henc.extension
    exact ⟨hfactors, hconstants⟩
  have hrequirements := compileRequirements_write hp₁ hconstraints hbounds
  refine ⟨o, f, ho, by rw [hrequirements.extension.objectives, hos],
    fun h hh => hrequirements.extension.declares (hdeclares h hh), ?_⟩
  have hall : m.Writes { m' with objectives := m.objectives } f.eval _ := henc.seq
    (fun ω _ vs _ => EnsuredInTurn model p model.requirements ω vs) (fun _ v _ => v)
    (hrequirements.withObjectives m.objectives)
    (fun ω ω' _ _ _ ha h => ensuredInTurn_congr hp ha h) (fun _ _ _ => rfl) fun _ => rfl
  refine hall.of_iff fun ω vs v => ?_
  constructor
  · rintro ⟨_, _, v, _, rfl, ⟨bs, hbs, rfl⟩, ⟨bss, hbss, rfl⟩, rfl⟩
    exact ⟨bs, bss, hbs, hbss, List.flatMap_append.symm⟩
  · rintro ⟨bs, bss, hbs, hbss, rfl⟩
    exact ⟨_, _, v, (), List.flatMap_append, ⟨bs, hbs, rfl⟩, ⟨bss, hbss, rfl⟩, rfl⟩

/-- The compiled model encodes that the objective takes a value it may take and that all
constraints and bounds are ensured. -/
theorem compile_encodes {u : Unit} (hp : p.DeclaredIn m)
    (hrun : compile model p m = .ok u m') :
    ∃ o f, model.objective = .ok o ∧ m'.objectives = m.objectives ++ [.new o.sense f] ∧
      m.Encodes { m' with objectives := m.objectives } f.eval fun ω v =>
        RobustObjective.CompiledValue o model p ω v ∧
          ∀ c ∈ model.requirements, c.Ensured model p ω := by
  obtain ⟨o, f, ho, hos, -, hwrites⟩ := compile_writes hp hrun
  refine ⟨o, f, ho, hos, hwrites.encodes.of_iff fun ω v => ?_⟩
  rw [RobustObjective.compiledValue_iff, RawConstraint.forall_ensured_iff]
  constructor
  · rintro ⟨_, bs, bss, hbs, hbss, -⟩
    exact ⟨⟨bs, hbs⟩, bss, hbss⟩
  · rintro ⟨⟨bs, hbs⟩, bss, hbss⟩
    exact ⟨_, bs, bss, hbs, hbss, rfl⟩

/-! ## What a successful compilation shows -/

/-- A relation of an expression that is compiled for all alternatives refers to the model, and so
do the alternatives. -/
def Resolves (model : RobustModel ℝ) (p : PolicyVariables)
    (c : RawConstraint (UncertainExpr ℝ)) : Prop :=
  c.sense ≠ .eq → c.expression.mode ≠ .stochastic →
    ∀ alternative ∈ model.uncertainty.alternatives.items,
      ResolvesIn model p c.expression alternative

private theorem resolvesIn_negate {alternative : ConstraintSet ℝ}
    (h : ResolvesIn model p e.negate alternative) : ResolvesIn model p e alternative := by
  obtain ⟨hrefers, haffine, hslots⟩ := h
  refine ⟨UncertainExpr.refersTo_negate_iff.1 hrefers, fun ω => ?_, hslots⟩
  obtain ⟨a, d, hd⟩ := haffine ω
  refine ⟨-a, fun i => -d i, fun u => ?_⟩
  rw [← neg_neg (e.underPolicies model p ω u), ← e.underPolicies_negate, hd]
  simp only [neg_mul, Finset.sum_neg_distrib]
  ring

private theorem declaredIn_of_appends (hp : p.DeclaredIn m) (h : m.Appends m') :
    p.DeclaredIn m' := by
  have hvars := congrArg ConicModel.vars h.rest
  refine hp.mono fun v hv => ?_
  obtain ⟨howner, hepoch, hslot⟩ := ConicModel.declares_iff.1 hv
  refine ConicModel.declares_iff.2 ⟨?_, ?_, hslot.trans_le h.vars.length_le⟩
  · rw [hvars]
    exact howner
  · rw [hvars]
    exact hepoch

/-- A compiled constraint resolves. -/
theorem compileConstraint_resolves {c : RawConstraint (UncertainExpr ℝ)} {u : Unit}
    (hp : p.DeclaredIn m) (hrun : compileConstraint model p name c m = .ok u m') :
    Resolves model p c := by
  intro hsense hmode alternative halt
  obtain ⟨f, m₁, hcounterpart⟩ := exists_counterpart_of_compileConstraint hsense hrun
  have hmargin := (counterpart_writes hp hcounterpart).1 (c.mode_margin ▸ hmode) alternative halt
  obtain ⟨sense, e⟩ := c
  cases sense with
  | geq => exact hmargin
  | leq => exact resolvesIn_negate hmargin
  | eq => exact hmargin

/-- In a compiled model the constraints resolve, and so does the objective. -/
theorem compile_resolves {u : Unit} (hp : p.DeclaredIn m) (hrun : compile model p m = .ok u m') :
    (∀ o, model.objective = .ok o → Resolves model p ⟨.geq, o.expression⟩) ∧
      ∀ c ∈ model.constraints, Resolves model p c.toRawConstraint := by
  constructor
  · intro o ho _ hmode alternative halt
    obtain ⟨f, m₁, hcounterpart⟩ := exists_counterpart_of_compile hrun ho
    have hgain := (counterpart_writes hp hcounterpart).1 (o.mode_gain ▸ hmode) alternative halt
    obtain ⟨sense, e, value?⟩ := o
    cases sense with
    | maximize => exact hgain
    | minimize => exact resolvesIn_negate hgain
  · intro c hc
    obtain ⟨s, t, hbefore, hstep, -⟩ := compile_passes hrun hc
    exact compileConstraint_resolves (declaredIn_of_appends hp hbefore) hstep

end Counterpart

end AdjustableRobust
