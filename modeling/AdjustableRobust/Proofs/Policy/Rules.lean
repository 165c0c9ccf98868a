import AdjustableRobust.Proofs.Policy.Build

/-!
# Values of a compiled model

The variables of a compiled model hold an affine rule for each decision, then the variables of the
objective and of every requirement. What satisfies the compiled model is read as such values, and
values that may be taken satisfy it.
-/

namespace AdjustableRobust

/-! ## Affine rules -/

/-- Coefficients and constant of an affine decision rule. -/
structure DecisionRule where
  /-- One coefficient for each dependency. -/
  factors : List ℝ
  constant : ℝ

/-- What the rule decides at a realization. -/
noncomputable def DecisionRule.value (k : DecisionRule) (us : List UncertaintyRef)
    (u : ℕ → ℝ) : ℝ :=
  k.constant + (List.zipWith (fun d a => a * bySlot u d) us k.factors).sum

namespace PolicyVariables

variable {p : PolicyVariables} {model : RobustModel ℝ} {m : ConicModel ℝ} {ω : ConicRef → ℝ}

/-- The rules of all decisions that the policy variables encode. -/
noncomputable def rules (p : PolicyVariables) (ω : ConicRef → ℝ) : List DecisionRule :=
  List.zipWith (fun fs b => ⟨fs.map ω, ω b⟩) p.factors p.constants

/-- Rules depend on variables of the model only. -/
theorem DeclaredIn.rules_congr (hp : p.DeclaredIn m) {ω' : ConicRef → ℝ} (ha : m.Agree ω ω') :
    p.rules ω' = p.rules ω := by
  have hfactors : p.factors.map (·.map ω') = p.factors.map (·.map ω) :=
    List.map_congr_left fun fs hfs => List.map_congr_left fun h hh => ha h (hp.factors fs hfs h hh)
  have hconstants : p.constants.map ω' = p.constants.map ω :=
    List.map_congr_left fun h hh => ha h (hp.constants h hh)
  calc
    p.rules ω' = List.zipWith DecisionRule.mk (p.factors.map (·.map ω')) (p.constants.map ω') := by
      rw [rules, List.zipWith_map]
    _ = p.rules ω := by
      rw [hfactors, hconstants, List.zipWith_map, rules]

namespace Fill

/-- There is one list of coefficients for each decision. -/
theorem length_factors (h : p.Fill model m) : p.factors.length = model.decisions.items.length := by
  simpa using congrArg List.length h.factors

/-- There is one rule for each decision. -/
theorem length_rules (h : p.Fill model m) (ω : ConicRef → ℝ) :
    (p.rules ω).length = model.decisions.items.length := by
  rw [rules, List.length_zipWith, h.length_factors, h.constants, min_self]

/-- A decision follows its rule. -/
theorem decisionValue_eq (h : p.Fill model m) {x : DecisionRef} {d : DecisionVariable ℝ}
    (hd : model.decisions.items[x.slot]? = some d) {k : DecisionRule}
    (hk : (p.rules ω)[x.slot]? = some k) (u : ℕ → ℝ) :
    p.decisionValue model ω u x = k.value d.dependencies u := by
  have hfactors : x.slot < p.factors.length :=
    h.length_factors ▸ (List.getElem?_eq_some_iff.1 hd).1
  have hconstants : x.slot < p.constants.length :=
    h.constants ▸ (List.getElem?_eq_some_iff.1 hd).1
  rw [rules, List.getElem?_zipWith, List.getElem?_eq_getElem hfactors,
    List.getElem?_eq_getElem hconstants] at hk
  rw [← Option.some.inj hk, decisionValue, hd, Option.map_some, Option.getD_some, valueAt,
    DecisionRule.value, List.getElem?_eq_getElem hconstants, List.getD_eq_getElem?_getD,
    List.getElem?_eq_getElem hfactors, List.zipWith_map_right]
  rfl

/-- Policy variables can take any rules with the right numbers of coefficients. -/
theorem exists_rules (h : p.Fill model m) {ks : List DecisionRule}
    (hks : ks.map (·.factors.length) = model.decisions.items.map (·.dependencies.length)) :
    ∃ ω, p.rules ω = ks := by
  have hlengths : (ks.map (·.factors)).map List.length = p.factors.map List.length := by
    rw [List.map_map, h.factors]
    exact hks
  have hcount : ks.length = p.constants.length := by
    rw [h.constants]
    simpa using congrArg List.length hks
  have hflatten : (ks.map (·.factors)).flatten.length = p.factors.flatten.length := by
    rw [List.length_flatten, List.length_flatten, hlengths]
  have hlength : ((ks.map (·.factors)).flatten ++ ks.map (·.constant)).length = m.numVariables := by
    have hhandles : m.numVariables = m.vars.handles.length := by
      simp [Store.handles, ConicModel.numVariables]
    rw [hhandles, h.handles, List.length_append, List.length_append, hflatten, List.length_map,
      hcount]
  obtain ⟨ω, hω⟩ := m.exists_values_eq hlength
  rw [ConicModel.values, h.handles, List.map_append] at hω
  obtain ⟨hfactors, hconstants⟩ := List.append_inj hω (by rw [List.length_map, hflatten])
  rw [List.map_flatten] at hfactors
  have hrows : p.factors.map (·.map ω) = ks.map (·.factors) := by
    refine List.eq_iff_flatten_eq.2 ⟨hfactors, ?_⟩
    rw [hlengths, List.map_map]
    exact List.map_congr_left fun fs _ => List.length_map _
  refine ⟨ω, ?_⟩
  calc
    p.rules ω = List.zipWith DecisionRule.mk (p.factors.map (·.map ω)) (p.constants.map ω) := by
      rw [rules, List.zipWith_map]
    _ = ks.map fun k => ⟨k.factors, k.constant⟩ := by
      rw [hrows, hconstants, List.zipWith_map, List.zipWith_self]
    _ = ks := List.map_id ks

end Fill

end PolicyVariables

/-! ## All values -/

/-- Values of the variables of a compiled model. -/
structure CompiledValues where
  rules : List DecisionRule
  objective : List Block
  requirements : List (List Block)

/-- All values in a row: coefficients, constants, objective and requirements. -/
def CompiledValues.toList (x : CompiledValues) : List ℝ :=
  x.rules.flatMap (·.factors) ++ x.rules.map (·.constant) ++
    (x.objective ++ x.requirements.flatten).flatMap (·.values)

/-- The variables that hold policies have the values of the rules. -/
theorem PolicyVariables.Fill.values_eq {p : PolicyVariables} {model : RobustModel ℝ}
    {m : ConicModel ℝ} (h : p.Fill model m) (ω : ConicRef → ℝ) :
    m.values ω = (p.rules ω).flatMap (·.factors) ++ (p.rules ω).map (·.constant) := by
  have hlength : p.factors.length = p.constants.length := by rw [h.length_factors, h.constants]
  have hrules : ∀ (fss : List (List ConicRef)) (bs : List ConicRef), fss.length = bs.length →
      (List.zipWith (fun fs b => (⟨fs.map ω, ω b⟩ : DecisionRule)) fss bs).flatMap (·.factors) =
          fss.flatten.map ω ∧
        (List.zipWith (fun fs b => (⟨fs.map ω, ω b⟩ : DecisionRule)) fss bs).map (·.constant) =
          bs.map ω := by
    intro fss bs hsize
    induction fss generalizing bs with
    | nil =>
      obtain rfl : bs = [] := List.length_eq_zero_iff.1 hsize.symm
      exact ⟨rfl, rfl⟩
    | cons fs fss ih =>
      cases bs with
      | nil => cases hsize
      | cons b bs =>
        obtain ⟨hfactors, hconstants⟩ := ih bs (Nat.succ.inj hsize)
        rw [List.zipWith_cons_cons, List.flatMap_cons, List.map_cons, List.flatten_cons,
          List.map_append, List.map_cons, hfactors, hconstants]
        exact ⟨rfl, rfl⟩
  obtain ⟨hfactors, hconstants⟩ := hrules p.factors p.constants hlength
  rw [ConicModel.values, h.handles, List.map_append, rules, hfactors, hconstants]

namespace AffineCompiler

variable {β : Type} {c : AffineCompiler ℝ β} {model : RobustModel ℝ}
variable {backend : β} {settings : SolverSettings ℝ} {owner : OwnerId} {ω : ConicRef → ℝ}
variable {x : CompiledValues} {v : ℝ}

/-- With its policies, the compiler may take the values for objective and requirements, and the
compiled objective is worth the given value. -/
structure Takes (c : AffineCompiler ℝ β) (ω : ConicRef → ℝ) (x : CompiledValues)
    (v : ℝ) : Prop where
  rules : c.policy.rules ω = x.rules
  objective : ∃ o, c.model.objective = .ok o ∧
    RobustObjective.CompiledBy o c.model c.policy ω x.objective v
  requirements : List.Forall₂ (fun k bs => RawConstraint.EnsuredBy k c.model c.policy ω bs)
    c.model.requirements x.requirements

/-- The variables of the compiled model have the values, and these may be taken. -/
structure Reads (c : AffineCompiler ℝ β) (ω : ConicRef → ℝ) (x : CompiledValues) (v : ℝ) : Prop
    extends c.Takes ω x v where
  values : c.conic.values ω = x.toList

/-- What satisfies a compiled model is read as values that may be taken, and all values that may be
taken are read off something that satisfies it. The compiled objective is worth the value. -/
theorem build_reads {u : Unit} (hbuild : build (new model backend settings owner) = .ok u c) :
    ∃ o f, model.objective = .ok o ∧ c.conic.objective = .ok (.new o.sense f) ∧
      (∀ ω, c.conic.Feasible ω → ∃ x, c.Reads ω x (f.eval ω)) ∧
        ∀ ω x v, c.Takes ω x v → ∃ ω', c.conic.Feasible ω' ∧ c.Reads ω' x v ∧ f.eval ω' = v := by
  obtain ⟨m, hp, hfill, hos, hfree, hcompile⟩ := build_eq_ok hbuild
  obtain ⟨hmodel, -⟩ := model_of_build hbuild
  obtain ⟨o, f, ho, hos', -, hwrites⟩ := Counterpart.compile_writes hp hcompile
  have hvalues : ∀ ω, c.conic.values ω = (c.policy.rules ω).flatMap (·.factors) ++
      (c.policy.rules ω).map (·.constant) ++ m.addedValues c.conic ω := fun ω => by
    rw [← hfill.values_eq]
    exact hwrites.extension.values_eq ω
  refine ⟨o, f, ho, ?_, fun ω hω => ?_, fun ω x v hx => ?_⟩
  · rw [ConicModel.objective, hos', hos]
    rfl
  · have hadded : m.AddedFeasible { c.conic with objectives := m.objectives } ω :=
      ⟨fun e he _ => hω.bounds e he, fun k hk => hω.constraints k (List.mem_of_mem_drop hk)⟩
    obtain ⟨bs, bss, hbs, hbss, hvs⟩ := hwrites.sound ω hadded
    refine ⟨⟨c.policy.rules ω, bs, bss⟩, ⟨rfl, ⟨o, hmodel ▸ ho, hmodel ▸ hbs⟩, hmodel ▸ hbss⟩, ?_⟩
    rw [hvalues, CompiledValues.toList]
    exact congrArg _ hvs
  · obtain ⟨o', ho', hobjective⟩ := hx.objective
    obtain rfl : o = o' := Except.ok.inj (ho.symm.trans (hmodel ▸ ho'))
    have hrequirements := hx.requirements
    rw [hmodel] at hobjective hrequirements
    obtain ⟨ω', ha, hadded, hresult⟩ := hwrites.complete ω
      ((x.objective ++ x.requirements.flatten).flatMap (·.values), v)
      ⟨x.objective, x.requirements, hobjective, hrequirements, rfl⟩
    obtain ⟨hvs, hv⟩ := Prod.mk.inj hresult
    have hrules : c.policy.rules ω' = x.rules := by
      rw [← hx.rules]
      exact hp.rules_congr ha
    obtain ⟨hb, hk⟩ := hwrites.extension.feasible_iff.2 ⟨hfree ω', hadded⟩
    refine ⟨ω', ⟨hb, hk⟩, ⟨⟨hrules, ⟨o, ho', ?_⟩, ?_⟩, ?_⟩, hv⟩
    · rw [hmodel]
      exact (Counterpart.compiledBy_congr hp ha).2 hobjective
    · rw [hmodel]
      exact hrequirements.imp fun k bs hk => (Counterpart.ensuredBy_congr hp ha).2 hk
    · rw [hvalues, hrules, CompiledValues.toList]
      exact congrArg _ hvs

end AffineCompiler

end AdjustableRobust
