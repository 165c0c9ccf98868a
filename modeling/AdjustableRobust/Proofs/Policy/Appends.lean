import AdjustableRobust.Policy.Affine
import AdjustableRobust.Proofs.Keeping
import AdjustableRobust.Proofs.Runs

/-!
# Compilation only appends

Whatever is compiled, and wherever that fails, a conic model keeps the variables, constraints and
objectives that it has, at their positions; new ones are put behind them. What a step has written is
therefore still there when the compilation ends.
-/

namespace AdjustableRobust

namespace ConicModel

variable {α : Type} [Scalar α] {m m' m'' : ConicModel α}

/-- The second model arises from the first one by appending variables, constraints and objectives.
-/
structure Appends (m m' : ConicModel α) : Prop where
  rest : m' = { m with
    vars := { m.vars with items := m'.vars.items }
    constraints := m'.constraints
    objectives := m'.objectives }
  vars : m.vars.items <+: m'.vars.items
  constraints : m.constraints <+: m'.constraints
  objectives : m.objectives <+: m'.objectives

namespace Appends

/-- Nothing is appended. -/
theorem refl (m : ConicModel α) : m.Appends m :=
  ⟨rfl, List.prefix_refl _, List.prefix_refl _, List.prefix_refl _⟩

/-- Appending twice is appending. -/
theorem trans (h : m.Appends m') (h' : m'.Appends m'') : m.Appends m'' where
  rest := by rw [h'.rest, h.rest]
  vars := h.vars.trans h'.vars
  constraints := h.constraints.trans h'.constraints
  objectives := h.objectives.trans h'.objectives

instance : IsPreorder (ConicModel α) Appends where
  refl := refl
  trans _ _ _ := trans

/-- A further variable. -/
theorem push (h : m.Appends m') (v : ConicVariable α) : m.Appends (m'.push v).2 :=
  h.trans ⟨rfl, List.prefix_append _ _, List.prefix_refl _, List.prefix_refl _⟩

/-- Further numbered variables. -/
theorem addVariables (h : m.Appends m') (n : Nat) (name : String) (b : Bounds α) :
    m.Appends (m'.addVariables n name b).2 :=
  List.foldlRecOn (motive := fun p : List ConicRef × ConicModel α => m.Appends p.2) (List.range n) _
    h fun _ hp _ _ => hp.push _

/-- A further constraint. -/
theorem addConstraint (h : m.Appends m') (name : String)
    (c : RawConstraint (ConicExpr α ConicRef)) : m.Appends (m'.addConstraint name c) :=
  h.trans ⟨rfl, List.prefix_refl _, List.prefix_append _ _, List.prefix_refl _⟩

/-- A further objective. -/
theorem addObjective (h : m.Appends m') (o : ConicObjective α) : m.Appends (m'.addObjective o) :=
  h.trans ⟨rfl, List.prefix_refl _, List.prefix_refl _, List.prefix_append _ _⟩

end Appends

/-- Number of variables, constraints and objectives. -/
def size (m : ConicModel α) : Nat := m.numVariables + m.constraints.length + m.objectives.length

/-- Appending does not make a model smaller. -/
theorem Appends.size_le (h : m.Appends m') : m.size ≤ m'.size :=
  Nat.add_le_add (Nat.add_le_add h.vars.length_le h.constraints.length_le) h.objectives.length_le

/-- A further variable counts. -/
theorem size_addVariable (m : ConicModel α) (name : String) (b : Bounds α) :
    (m.addVariable name b).2.size = m.size + 1 := by
  have hvars : (m.addVariable name b).2.numVariables = m.numVariables + 1 := List.length_append
  rw [size, size, hvars]
  change m.numVariables + 1 + m.constraints.length + m.objectives.length = _
  omega

/-- A further objective counts. -/
theorem size_addObjective (m : ConicModel α) (o : ConicObjective α) :
    (m.addObjective o).size = m.size + 1 := by
  have hobjectives : (m.addObjective o).objectives.length = m.objectives.length + 1 :=
    List.length_append
  rw [size, size, hobjectives]
  rfl

end ConicModel

/-- The expression whose counterpart has to be non-negative where the relation is an inequality. -/
def RawConstraint.margin {α : Type} [Scalar α] (c : RawConstraint (UncertainExpr α)) :
    UncertainExpr α :=
  match c.sense with
  | .geq | .eq => c.expression
  | .leq => c.expression.negate

/-- The opposite has the same mode. -/
theorem RawConstraint.mode_margin {α : Type} [Scalar α] (c : RawConstraint (UncertainExpr α)) :
    c.margin.mode = c.expression.mode := by
  rw [margin]
  cases c.sense <;> rfl

namespace RobustObjective

variable {α : Type} [Scalar α]

/-- The expression whose counterpart is maximized. -/
def gain (o : RobustObjective α) : UncertainExpr α :=
  match o.sense with
  | .maximize => o.expression
  | .minimize => o.expression.negate

/-- The objective that is compiled from the counterpart of the gain. -/
def ofGain (o : RobustObjective α) (f : AffineExpr α ConicRef) : ConicObjective α :=
  match o.sense with
  | .maximize => .new .maximize f
  | .minimize => .new .minimize f.negate

/-- Maximizing the opposite does not change the mode. -/
theorem mode_gain (o : RobustObjective α) : o.gain.mode = o.expression.mode := by
  rw [gain]
  cases o.sense <;> rfl

end RobustObjective

namespace Counterpart

variable {α : Type} [Scalar α] {model : RobustModel α} {p : PolicyVariables} {m : ConicModel α}

open Step

/-! ## Writing -/

/-- A variable is appended. -/
theorem declare_extends (name : String) (b : Bounds α) : Keeps m.Appends (declare name b) :=
  .ofChange fun _ h => h.push _

private theorem require_extends (name : String) (c : RawConstraint (ConicExpr α ConicRef)) :
    Keeps m.Appends (require name c) :=
  .modify fun _ h => h.addConstraint _ _

/-! ## Dual blocks -/

private theorem dualizeConstraint_extends (name : String) (slot : Nat) (l : Lagrangian α)
    (c : UncertaintyConstraint α) : Keeps m.Appends (dualizeConstraint name slot l c) := by
  refine .bind (declare_extends _ _) fun dv => .bind .ofExcept fun l => ?_
  split
  · exact .bind (.ofChange fun _ h => h.addVariables _ _ _) fun _ => .bind .ofExcept fun _ =>
      .bind (require_extends _ _) fun _ => .pure
  · exact .pure

private theorem dualizeBounds_extends (name : String) (slot : Nat) (l : Lagrangian α)
    (h : UncertaintyRef) (u : UncertaintyVariable α) :
    Keeps m.Appends (dualizeBounds name slot l h u) := by
  have hrow : ∀ (name : String) (b : Bounds α) (f : ConicRef → Except StoreError (Lagrangian α)),
      Keeps m.Appends (do let dv ← declare name b; Step.ofExcept .store (f dv)) :=
    fun _ _ _ => .bind (declare_extends _ _) fun _ => .ofExcept
  unfold dualizeBounds
  cases u.bounds.lower? with
  | none =>
    refine .bind .pure fun l => ?_
    cases u.bounds.upper? with
    | none => exact .pure
    | some b => exact hrow _ _ _
  | some a =>
    refine .bind (declare_extends _ _) fun _ => .bind .ofExcept fun l => ?_
    cases u.bounds.upper? with
    | none => exact .pure
    | some b => exact hrow _ _ _

private theorem dualizeAlternative_extends (name : String) (set : ConstraintSetRef) :
    Keeps m.Appends (dualizeAlternative model name set) := by
  unfold dualizeAlternative
  refine .bind .ofExcept fun alternative => .bind (.foldlM fun l c _ => ?_) fun l => .foldlM ?_
  · exact dualizeConstraint_extends _ _ l c
  · exact fun l x _ => dualizeBounds_extends _ _ l x.1 x.2

private theorem requireResiduals_extends (l : Lagrangian α) (name : String → String) :
    Keeps m.Appends (requireResiduals model l name) :=
  .forM fun _ _ => require_extends _ _

/-! ## Counterparts -/

private theorem dualObjective_extends (e : UncertainExpr α) (name : String)
    (set : ConstraintSetRef) : Keeps m.Appends (dualObjective model p e name set) := by
  unfold dualObjective
  exact .bind (dualizeAlternative_extends _ _) fun _ => .bind .ofExcept fun l =>
    .bind (requireResiduals_extends l _) fun _ => .pure

/-- The worst case of an expression is compiled behind the variable that stands for it. -/
theorem robust_extends_epigraph (model : RobustModel α) (p : PolicyVariables) (m : ConicModel α)
    (e : UncertainExpr α) (name : String) :
    (m.addVariable s!"EpiVar{name}" .free).2.Appends ((robust model p e name).perform m).2 := by
  refine Keeps.bind_of_perform (.refl _) fun v => .bind (.mapM fun set _ => ?_) fun os => ?_
  · exact .bind (dualObjective_extends _ _ _) fun o => .before (require_extends _ _) .pure
  · exact .before (require_extends _ _) .pure

/-- The worst case of an expression. -/
theorem robust_extends (e : UncertainExpr α) (name : String) :
    Keeps m.Appends (robust model p e name) :=
  fun s hs => (hs.push _).trans (robust_extends_epigraph model p s e name)

/-- The counterpart of an expression. -/
theorem counterpart_extends (e : UncertainExpr α) (name : String) :
    Keeps m.Appends (counterpart model p e name) := by
  unfold counterpart
  split
  · exact robust_extends e name
  · exact robust_extends e name
  · exact .ofExcept

/-! ## The whole model -/

/-- An inequality is compiled from the counterpart of its margin. -/
theorem compileConstraint_eq {c : RawConstraint (UncertainExpr α)} (hc : c.sense ≠ .eq)
    (name : String) : compileConstraint model p name c =
      counterpart model p c.margin name >>= requireAffine s!"{name}RC" .geq := by
  obtain ⟨sense, e⟩ := c
  cases sense with
  | geq => rfl
  | leq => rfl
  | eq => exact absurd rfl hc

private theorem compileEquality_extends (e : UncertainExpr α) (name : String) :
    Keeps m.Appends (compileEquality model p e name) := by
  unfold compileEquality
  refine .check ?_
  dsimp only
  split
  · exact .pure
  · exact .bind .ofExcept fun _ => .bind (requireResiduals_extends _ _) fun _ =>
      require_extends _ _

/-- A constraint is compiled. -/
theorem compileConstraint_extends (name : String) (c : RawConstraint (UncertainExpr α)) :
    Keeps m.Appends (compileConstraint model p name c) := by
  by_cases hc : c.sense = .eq
  · rw [compileConstraint, hc]
    exact compileEquality_extends c.expression name
  · rw [compileConstraint_eq hc]
    exact .bind (counterpart_extends _ _) fun _ => require_extends _ _

/-- The objective is compiled from the counterpart of its gain. -/
theorem compileObjective_eq {o : RobustObjective α} (ho : model.objective = .ok o) :
    compileObjective model p =
      counterpart model p o.gain "Objective" >>= fun f => modify (·.addObjective (o.ofGain f)) := by
  obtain ⟨sense, e, value?⟩ := o
  rw [compileObjective, ho]
  cases sense with
  | maximize => rfl
  | minimize => rfl

/-- The objective is compiled. -/
theorem compileObjective_extends : Keeps m.Appends (compileObjective model p) := by
  cases ho : model.objective with
  | error e =>
    rw [compileObjective, ho]
    exact .throw
  | ok o =>
    rw [compileObjective_eq ho]
    exact .bind (counterpart_extends _ _) fun _ => .modify fun _ h => h.addObjective _

/-- The bounds of a decision are compiled. -/
theorem compileBounds_extends (h : DecisionRef) (d : DecisionVariable α) :
    Keeps m.Appends (compileBounds model p h d) := by
  unfold compileBounds
  refine .bind ?_ fun _ => ?_
  · cases d.bounds.lower? with
    | none => exact .pure
    | some b =>
      exact compileConstraint_extends s!"LB_{d.name}"
        ((UncertainExpr.decision h).relateValue .geq b)
  · cases d.bounds.upper? with
    | none => exact .pure
    | some b =>
      exact compileConstraint_extends s!"UB_{d.name}"
        ((UncertainExpr.decision h).relateValue .leq b)

private theorem compileRest_extends : Keeps m.Appends (do
    model.constraints.forM fun c => compileConstraint model p c.name c.toRawConstraint
    model.decisions.entries.forM fun (h, d) => compileBounds model p h d) :=
  .bind (.forM fun _ _ => compileConstraint_extends _ _) fun _ =>
    .forM fun _ _ => compileBounds_extends _ _

/-- Constraints and bounds are compiled behind what the objective is compiled to. -/
theorem compile_extends_objective (m : ConicModel α) :
    ((compileObjective model p).perform m).2.Appends ((compile model p).perform m).2 :=
  Keeps.bind_of_perform (.refl _) fun _ => compileRest_extends

/-- The whole model is compiled. -/
theorem compile_extends : Keeps m.Appends (compile model p) :=
  fun s hs => (compileObjective_extends s hs).trans (compile_extends_objective s)

/-! ## Counterparts that are compiled on the way -/

variable {m' : ConicModel α} {u : Unit}

/-- A compiled inequality has a counterpart of its margin. -/
theorem exists_counterpart_of_compileConstraint {c : RawConstraint (UncertainExpr α)}
    {name : String} (hc : c.sense ≠ .eq) (hrun : compileConstraint model p name c m = .ok u m') :
    ∃ f m₁, counterpart model p c.margin name m = .ok f m₁ := by
  rw [compileConstraint_eq hc, Step.bind_eq_ok_iff] at hrun
  obtain ⟨f, m₁, hcounterpart, -⟩ := hrun
  exact ⟨f, m₁, hcounterpart⟩

/-- A compiled model has a counterpart of the gain of its objective. -/
theorem exists_counterpart_of_compile (hrun : compile model p m = .ok u m')
    {o : RobustObjective α} (ho : model.objective = .ok o) :
    ∃ f m₁, counterpart model p o.gain "Objective" m = .ok f m₁ := by
  obtain ⟨_, _, hobjective, -⟩ := Step.bind_eq_ok_iff.1 hrun
  rw [compileObjective_eq ho, Step.bind_eq_ok_iff] at hobjective
  obtain ⟨f, m₁, hcounterpart, -⟩ := hobjective
  exact ⟨f, m₁, hcounterpart⟩

/-- The compilation of a model comes past every constraint, with what was compiled before at its
place, and keeps what the constraint is compiled to. -/
theorem compile_passes (hrun : compile model p m = .ok u m') {c : RobustConstraint α}
    (hc : c ∈ model.constraints) : ∃ s t, m.Appends s ∧
      compileConstraint model p c.name c.toRawConstraint s = .ok ⟨⟩ t ∧ t.Appends m' := by
  obtain ⟨_, m₁, hobjective, hrest⟩ := Step.bind_eq_ok_iff.1 hrun
  obtain ⟨_, m₂, hconstraints, hbounds⟩ := Step.bind_eq_ok_iff.1 hrest
  have hstep (c : RobustConstraint α) (s t : ConicModel α)
      (hrun : compileConstraint model p c.name c.toRawConstraint s = .ok ⟨⟩ t) : s.Appends t :=
    (compileConstraint_extends _ _).of_eq_ok (.refl s) hrun
  obtain ⟨s, t, hbefore, hrow, hafter⟩ := (Step.forM_passes hstep hconstraints).2 c hc
  have hstart : m.Appends m₁ := compileObjective_extends.of_eq_ok (.refl m) hobjective
  have hend : m₂.Appends m' :=
    (Keeps.forM fun _ _ => compileBounds_extends _ _).of_eq_ok (.refl m₂) hbounds
  exact ⟨s, t, hstart.trans hbefore, hrow, hafter.trans hend⟩

/-! ## What expectations are compiled to -/

/-- The counterpart of an expectation is written nowhere. -/
theorem counterpart_stochastic {e : UncertainExpr α} (hmode : e.mode = .stochastic)
    (name : String) :
    counterpart model p e name = Step.ofExcept id (stochastic model p e) := by
  rw [counterpart, hmode]

private theorem compileConstraint_stochastic {name : String} {c : RawConstraint (UncertainExpr α)}
    (hmode : c.expression.mode = .stochastic)
    (hrun : compileConstraint model p name c m = .ok u m') :
    c.sense ≠ .eq ∧ ∃ f, stochastic model p c.margin = .ok f ∧
      m' = m.addConstraint s!"{name}RC" (f.relateValue .geq 0).toConic := by
  by_cases hsense : c.sense = .eq
  · have hthrow : compileConstraint model p name c m =
        .error (.equalityUnderStochastic name) m := by
      rw [compileConstraint, hsense]
      dsimp only
      rw [compileEquality, if_pos hmode]
      rfl
    rw [hthrow] at hrun
    cases hrun
  · rw [compileConstraint_eq hsense, counterpart_stochastic (c.mode_margin.trans hmode),
      Step.bind_eq_ok_iff] at hrun
    obtain ⟨f, _, hcomputed, hrun⟩ := hrun
    obtain ⟨hf, rfl⟩ := Step.ofExcept_eq_ok_iff.1 hcomputed
    exact ⟨hsense, f, hf, (Step.modify_eq_ok_iff.1 hrun).symm⟩

/-- In a compiled model there is a row for every constraint on an expectation. -/
theorem exists_row_of_compile (hrun : compile model p m = .ok u m') {c : RobustConstraint α}
    (hc : c ∈ model.constraints) (hmode : c.expression.mode = .stochastic) :
    c.sense ≠ .eq ∧ ∃ f, stochastic model p c.margin = .ok f ∧
      .named s!"{c.name}RC" (f.relateValue .geq 0).toConic ∈ m'.constraints := by
  obtain ⟨s, t, -, hrow, hafter⟩ := compile_passes hrun hc
  obtain ⟨hsense, f, hf, rfl⟩ := compileConstraint_stochastic hmode hrow
  have hmem := hafter.constraints.subset (List.mem_append_right _ List.mem_cons_self)
  exact ⟨hsense, f, hf, hmem⟩

/-- A compiled model has the expectation to optimize as its objective. -/
theorem exists_objective_of_compile (hos : m.objectives = []) (hrun : compile model p m = .ok u m')
    {o : RobustObjective α} (ho : model.objective = .ok o)
    (hmode : o.expression.mode = .stochastic) :
    ∃ f, stochastic model p o.gain = .ok f ∧ m'.objective = .ok (o.ofGain f) := by
  obtain ⟨_, m₁, hobjective, hrest⟩ := Step.bind_eq_ok_iff.1 hrun
  rw [compileObjective_eq ho, counterpart_stochastic (o.mode_gain.trans hmode),
    Step.bind_eq_ok_iff] at hobjective
  obtain ⟨f, _, hcomputed, hadd⟩ := hobjective
  obtain ⟨hf, rfl⟩ := Step.ofExcept_eq_ok_iff.1 hcomputed
  obtain rfl := Step.modify_eq_ok_iff.1 hadd
  have hend : (m.addObjective (o.ofGain f)).Appends m' :=
    compileRest_extends.of_eq_ok (.refl _) hrest
  obtain ⟨os, hos'⟩ := hend.objectives
  refine ⟨f, hf, ?_⟩
  rw [ConicModel.objective, ← hos', ConicModel.addObjective, hos]
  rfl

end Counterpart

end AdjustableRobust
