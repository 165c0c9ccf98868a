import AdjustableRobust.Proofs.Lifting.Collection
import AdjustableRobust.Proofs.Lifting.Decisions
import AdjustableRobust.Proofs.Policy.Build

/-!
# Soundness of piecewise affine policies

Affine policies of the lifted model are piecewise affine policies of the base model: at a base
realization they decide what they decide at its lift. Whatever satisfies the compiled lifted model
gives policies that are robust for the base model.
-/

namespace AdjustableRobust

variable {model lifted : RobustModel ℝ} {lifting : Lifting ℝ} {p : PolicyVariables}
variable {ω : ConicRef → ℝ}

/-! ## Lifted expressions under policies -/

namespace LiftedModel

variable {axes : List (LiftedAxis ℝ)} {r R : List ℝ}

/-- There are as many decisions as before. -/
theorem Mirrors.numDecisions (h : Mirrors model lifted axes) :
    lifted.numDecisions = model.numDecisions :=
  h.decisions.length_eq.symm

/-- Decisions at a lifted realization, as decisions of the base model. -/
theorem Mirrors.length_decisions (h : Mirrors model lifted axes) :
    (p.decisions lifted ω R).length = model.numDecisions := by
  rw [PolicyVariables.length_decisions, h.numDecisions]

/-- A base expression has at a base realization, with the decisions at its lift, the value that the
lifted expression has under the policies. -/
theorem Carries.evaluate {e e' : UncertainExpr ℝ} (h : Carries model lifted axes e e')
    (hmodel : Mirrors model lifted axes) (hr : r.length = model.numUncertainties)
    (hR : axes.map (·.retract (bySlot (entryAt R))) = r) :
    (Solution.mk model r (p.decisions lifted ω R)).evaluate e =
      .ok (e'.underPolicies lifted p ω (entryAt R)) := by
  rw [Solution.evaluate_eq_ok h.refers hr hmodel.length_decisions, UncertainExpr.underPolicies,
    h.eval, hR, ← p.bySlot_decisions]
  rfl

/-- Bounds that are ensured in the lifted model are respected by the decisions of the base
model. -/
theorem Mirrors.admits (h : Mirrors model lifted axes)
    (hbounds : ∀ d ∈ lifted.decisions.entries, ∀ c ∈ d.2.rows d.1, c.Ensured lifted p ω)
    {b : ConstraintSet ℝ} (hb : b ∈ lifted.uncertainty.alternatives.items)
    (hR : lifted.uncertainty.Realizes b R) :
    List.Forall₂ (fun d x => d.bounds.admits x = true) model.decisions.items
      (p.decisions lifted ω R) := by
  refine List.forall₂_iff_get.2 ⟨h.length_decisions.symm, fun i hi hi' => ?_⟩
  have hi₁ : i < lifted.decisions.items.length := h.decisions.length_eq ▸ hi
  have hentry : (lifted.decisions.handleFor i, lifted.decisions.items[i]) ∈
      lifted.decisions.entries := Store.mem_entries_iff.2 ⟨i, List.getElem?_eq_getElem hi₁, rfl⟩
  have hadmits := DecisionVariable.admits_of_ensured (hbounds _ hentry) hb hR
  have hget : bySlot (entryAt (p.decisions lifted ω R)) (lifted.decisions.handleFor i) =
      (p.decisions lifted ω R)[i] := List.getD_eq_getElem _ _ hi'
  rw [← p.bySlot_decisions, hget] at hadmits
  have hsame := (h.decisions.get hi hi₁).bounds
  rw [List.get_eq_getElem, List.get_eq_getElem] at hsame
  rw [List.get_eq_getElem, List.get_eq_getElem, ← hsame]
  exact hadmits

end LiftedModel

/-! ## Robustness for the base model -/

/-- Decisions at a realization satisfy a robust model: constraints in union mode hold, equations
among them, decisions respect their bounds, and a promised objective value is no better than the
objective. -/
structure RobustModel.Keeps (model : RobustModel ℝ) (s : Solution ℝ) (promised : ℝ) : Prop where
  constraints : ∀ c ∈ model.constraints, c.expression.mode = .union → s.satisfies c 0 = .ok true
  bounds : List.Forall₂ (fun d x => d.bounds.admits x = true) model.decisions.items s.decisions
  objective : ∀ o, model.objective = .ok o → o.expression.mode = .union →
    ∃ x, s.objectiveFor model = .ok x ∧
      match o.sense with
      | .minimize => x ≤ promised
      | .maximize => promised ≤ x

namespace LiftingCompiler

variable {β : Type} {c c' : LiftingCompiler ℝ β}

/-- Building lifts the model, hands it to a compiler for affine policies and has that compile. -/
theorem build_eq_ok {u : Unit} (hrun : build c = .ok u c') :
    ∃ backend lifted lifting d inner, c.stage = .collecting backend ∧
      LiftedModel.build c.model c.series c.options c.liftedOwner c.diagnostics =
        .ok (lifted, lifting) d ∧
      AffineCompiler.build (.new lifted backend c.settings c.conicOwner) = .ok () inner ∧
      c'.stage = .lifted lifting inner := by
  simp only [build, Step.bind_eq_ok_iff, Step.get_eq_ok_iff] at hrun
  obtain ⟨_, _, ⟨rfl, rfl⟩, hrun⟩ := hrun
  cases hstage : c.stage with
  | lifted lifting inner =>
    rw [hstage] at hrun
    exact absurd hrun Step.throw_ne_ok
  | collecting backend =>
    simp only [hstage, Step.bind_eq_ok_iff, Step.focus_eq_ok_iff, Step.modify_eq_ok_iff,
      Step.ofExcept_eq_ok_iff] at hrun
    obtain ⟨⟨lifted, lifting⟩, c₁, ⟨d, hlifted, rfl⟩, _, _, rfl, hresult, rfl⟩ := hrun
    have hinner : ∀ x : AffineCompiler ℝ β, (AffineCompiler.build.perform x).1 = .ok u →
        AffineCompiler.build x = .ok () (AffineCompiler.build.perform x).2 := fun x hx => by
      unfold Step.perform at hx ⊢
      cases hrun : AffineCompiler.build x <;> simp_all
    exact ⟨backend, lifted, lifting, d, _, rfl, hlifted, hinner _ hresult, rfl⟩

/-- A model that is lifted, and compiles after that, is built. -/
theorem build_of_lifted {backend : β} {lifted : RobustModel ℝ} {lifting : Lifting ℝ}
    {d : Diagnostics} {inner : AffineCompiler ℝ β} (hstage : c.stage = .collecting backend)
    (hlifted : LiftedModel.build c.model c.series c.options c.liftedOwner c.diagnostics =
      .ok (lifted, lifting) d)
    (hinner : AffineCompiler.build (.new lifted backend c.settings c.conicOwner) = .ok () inner) :
    build c = .ok () { c with stage := .lifted lifting inner, diagnostics := d } := by
  have hperform : AffineCompiler.build.perform (.new lifted backend c.settings c.conicOwner) =
      (.ok (), inner) := by
    rw [Step.perform, hinner]
  simp only [build, Step.bind_eq_ok_iff, Step.get_eq_ok_iff]
  refine ⟨_, _, ⟨rfl, rfl⟩, ?_⟩
  simp only [hstage, Step.bind_eq_ok_iff, Step.focus_eq_ok_iff, Step.modify_eq_ok_iff,
    Step.ofExcept_eq_ok_iff]
  exact ⟨_, _, ⟨_, hlifted, rfl⟩, (), _, rfl, congrArg Prod.fst hperform, by simp only [hperform]⟩

/-- Soundness of piecewise affine policies: values of the variables of the compiled lifted model
that satisfy all its bounds and constraints give policies that, at the lift of every base
realization, decide what satisfies the base model, and the compiled objective promises no more than
the base objective keeps. -/
theorem build_robust {u : Unit} (hc : c.SeriesOver) (hbuild : build c = .ok u c') :
    ∃ lifting inner, c'.stage = .lifted lifting inner ∧
      ∀ ω, inner.conic.Feasible ω →
        ∃ o o' promised, c.model.objective = .ok o ∧ inner.conic.objective = .ok o' ∧
          o'.sense = o.sense ∧ o'.expression.value (.total ω) = .ok promised ∧
            ∀ alternative ∈ c.model.uncertainty.alternatives.items, ∀ r,
              c.model.uncertainty.Realizes alternative r →
                ∃ R, c'.lift r = .ok R ∧
                  c.model.Keeps ⟨c.model, r, inner.policy.decisions inner.model ω R⟩ promised := by
  obtain ⟨backend, lifted, lifting, d, inner, -, hlifted, hinner, hstage⟩ := build_eq_ok hbuild
  obtain ⟨hmodel, -⟩ := AffineCompiler.model_of_build hinner
  obtain ⟨m, hp, -, hos, -, hcompile⟩ := AffineCompiler.build_eq_ok hinner
  have hlifts := LiftedModel.build_lifts hc hlifted
  have hmirrors := LiftedModel.build_mirrors hc hlifted
  refine ⟨lifting, inner, hstage, fun ω hω => ?_⟩
  obtain ⟨o', x', x, ho', hx', hsense, hx, hvalue, hconstraints, hbounds⟩ :=
    Counterpart.compile_ensures hp hos hcompile hω
  obtain ⟨o, e', ho, ho'', hcarries⟩ := hmirrors.objective
  obtain rfl : o' = .new o.sense e' := Except.ok.inj (ho'.symm.trans ho'')
  refine ⟨o, x', x, ho, hx', hsense, hx, fun a ha r hr => ?_⟩
  obtain ⟨i, hi, rfl⟩ := List.getElem_of_mem ha
  obtain ⟨b, hb⟩ := hlifts.exists_alternative (List.getElem?_eq_getElem hi)
  obtain ⟨R, hR, hrealizes⟩ := hlifts.lift (List.getElem?_eq_getElem hi) hb hr
  have hmem := List.mem_of_getElem? hb
  have hretract : lifting.axes.map (·.retract (bySlot (entryAt R))) = r := by
    obtain ⟨R', hR', hretract⟩ := hlifts.retract_lift hr.length hr.bounds
    obtain rfl := Except.ok.inj (hR.symm.trans hR')
    exact hretract
  refine ⟨R, ?_, ⟨fun k hk hmode => ?_, ?_, fun o₁ ho₁ hmode => ?_⟩⟩
  · rw [lift, hstage]
    exact mapError_eq_ok_iff.2 hR
  · obtain ⟨k', hmem', hsame, hk'⟩ := exists_of_forall₂_left hmirrors.constraints hk
    have hholds := (hconstraints k' hmem').holds_union (hk'.mode.trans hmode) hmem hrealizes
    rw [hmodel]
    refine bind_eq_ok_iff.2 ⟨_, hk'.evaluate hmirrors hr.length hretract, pure_eq_ok_iff.2 ?_⟩
    rw [ConstraintSense.holds_zero_iff, ← hsame]
    exact hholds
  · rw [hmodel]
    exact hmirrors.admits hbounds hmem hrealizes
  · obtain rfl := Except.ok.inj (ho.symm.trans ho₁)
    rw [hmodel]
    refine ⟨_, bind_eq_ok_iff.2 ⟨o, ho, hcarries.evaluate hmirrors hr.length hretract⟩, ?_⟩
    exact hvalue.bounds_union (hcarries.mode.trans hmode) hmem hrealizes

/-- A decision that may react to the uncertainty of the segment, has to stay non-negative and
should be small. -/
noncomputable def resting : RobustModel ℝ :=
  LiftedModel.segmentWith ⟨⟨0⟩, 0, [⟨"x", none, .free, [⟨⟨0⟩, 0, 0⟩], none⟩]⟩
    [.named "floor" ⟨.geq, .decision ⟨⟨0⟩, 0, 0⟩⟩] (.new .minimize (.decision ⟨⟨0⟩, 0, 0⟩))

/-- The decision of the resting model after lifting: it may react to the halves. -/
noncomputable def restingLifted : RobustModel ℝ :=
  { LiftedModel.halved with
    decisions := ⟨⟨1⟩, 0, [⟨"x", none, .free, [⟨⟨1⟩, 0, 0⟩, ⟨⟨1⟩, 0, 1⟩], none⟩]⟩
    constraints := [.named "floor" ⟨.geq, ⟨0 + 0, .var ⟨⟨1⟩, 0, 0⟩, .zero, .zero, .union⟩⟩]
    objective? := some (.new .minimize ⟨0 + 0, .var ⟨⟨1⟩, 0, 0⟩, .zero, .zero, .union⟩) }

/-- The resting model is lifted along its halves. -/
theorem build_resting (d : Diagnostics) :
    ∃ b, LiftedModel.build resting [LiftedModel.halves] ⟨false, false⟩ ⟨1⟩ d =
      .ok (LiftedModel.withAlternative restingLifted b, ⟨[LiftedModel.halfAxis]⟩) d :=
  LiftedModel.build_segmentWith [⟨⟨1⟩, 0, 0⟩]
    { LiftedModel.halved with decisions := restingLifted.decisions }
    (fun _ => rfl) (fun _ => rfl) d

/-- After lifting the resting model compiles. -/
theorem restingLifted_compilable {b : ConstraintSet ℝ}
    (hb : ∀ c ∈ b.constraints, ∀ v ∈ c.expression.vars, v.slot < 2) :
    (LiftedModel.withAlternative restingLifted b).Compilable := by
  set m := LiftedModel.withAlternative restingLifted b
  have hcompiles : ∀ k : ℝ, UncertainExpr.Compilable
      ⟨k, .var ⟨⟨1⟩, 0, 0⟩, .zero, .zero, .union⟩ m := fun k =>
    ⟨⟨by simp, by simpa using ⟨_, rfl⟩, by simp⟩, by simp, by simp⟩
  refine ⟨⟨?_, List.forall_mem_singleton.2 hb⟩, ⟨_, rfl, hcompiles _⟩,
    List.forall_mem_singleton.2 (hcompiles _)⟩
  refine List.forall_mem_singleton.2 (List.forall_mem_cons.2 ⟨⟨_, rfl⟩, ?_⟩)
  exact List.forall_mem_singleton.2 ⟨_, rfl⟩

/-- A compilable model that keeps small and non-negative what is zero under zero policies, with free
decisions, is built, and zero policies satisfy it. -/
theorem exists_feasible_atRest {m : RobustModel ℝ} (hm : m.Compilable) {e : UncertainExpr ℝ}
    {name : String} (hconstraints : m.constraints = [.named name ⟨.geq, e⟩])
    (hobjective : m.objective = .ok (.new .minimize e))
    (hfree : ∀ d ∈ m.decisions.items, d.bounds = .free) (hmode : e.mode = .union)
    (hrests : ∀ p u, e.underPolicies m p (fun _ => 0) u = 0) (settings : SolverSettings ℝ)
    (owner : OwnerId) : ∃ (inner : AffineCompiler ℝ Unit) (ω : ConicRef → ℝ),
      AffineCompiler.build (.new m () settings owner) = .ok () inner ∧ inner.conic.Feasible ω := by
  obtain ⟨inner, hinner⟩ := AffineCompiler.build_succeeds hm () settings owner
  have hzero : ∀ e : UncertainExpr ℝ, e.mode = .union →
      (∀ u, e.underPolicies m inner.policy (fun _ => 0) u = 0) →
        e.CounterpartValue m inner.policy (fun _ => 0) 0 := fun e hmode h => by
    rw [UncertainExpr.CounterpartValue, if_neg (by simp [hmode])]
    refine ⟨m.uncertainty.alternatives.items.map fun _ => 0,
      List.forall₂_map_right_iff.2 (List.forall₂_same.2 fun a _ => ⟨0, .zero _, fun u => by
        simp [h]⟩), ?_⟩
    simp [hmode, UncertaintyMode.Below]
  obtain ⟨ω, _, hω, -⟩ := AffineCompiler.build_complete (v := 0) (ω := fun _ => 0) hinner hobjective
    (by
      rw [RobustObjective.CompiledValue, neg_zero]
      refine hzero _ hmode fun u => ?_
      rw [Objective.new, UncertainExpr.underPolicies_negate]
      exact neg_eq_zero.2 (hrests _ u))
    (by
      rw [hconstraints]
      exact List.forall_mem_singleton.2 ⟨0, hzero _ hmode (hrests _), le_rfl⟩)
    (fun d hd k hk => by
      rw [DecisionVariable.rows, hfree _ (Store.mem_items_of_mem_entries hd)] at hk
      cases hk)
  exact ⟨inner, ω, hinner, hω⟩

private theorem exists_feasible_resting {b : ConstraintSet ℝ}
    (hb : ∀ c ∈ b.constraints, ∀ v ∈ c.expression.vars, v.slot < 2) (settings : SolverSettings ℝ) :
    ∃ (inner : AffineCompiler ℝ Unit) (ω : ConicRef → ℝ),
      AffineCompiler.build (.new (LiftedModel.withAlternative restingLifted b) () settings ⟨2⟩) =
        .ok () inner ∧ inner.conic.Feasible ω :=
  exists_feasible_atRest (restingLifted_compilable hb) rfl rfl (List.forall_mem_singleton.2 rfl) rfl
    (fun p u => by simp [UncertainExpr.underPolicies, UncertainExpr.eval]) settings ⟨2⟩

/-- What satisfies the lifted resting model keeps the resting model for all of its realizations. -/
theorem build_robust_resting : ∃ (c c' : LiftingCompiler ℝ Unit) (inner : AffineCompiler ℝ Unit)
    (ω : ConicRef → ℝ), c.model = resting ∧ c.SeriesOver ∧ build c = .ok () c' ∧
      c'.stage = .lifted ⟨[LiftedModel.halfAxis]⟩ inner ∧ inner.conic.Feasible ω ∧
        ∀ r, resting.uncertainty.Realizes .empty r → ∃ R promised, c'.lift r = .ok R ∧
          resting.Keeps ⟨resting, r, inner.policy.decisions inner.model ω R⟩ promised := by
  obtain ⟨b, hb⟩ := build_resting .empty
  have hseries : ∀ s ∈ [LiftedModel.halves], s.IsOver resting.uncertainty :=
    List.forall_mem_singleton.2 LiftedModel.halves_isOver
  have hlifts := LiftedModel.build_lifts hseries hb
  set settings : SolverSettings ℝ := ⟨none, none, false, 0, 0⟩
  obtain ⟨inner, ω, hinner, hω⟩ := exists_feasible_resting (b := b) (fun k hk v hv => by
    have hmem := (hlifts.valid 0 b rfl k hk).occurs v hv
    rw [hlifts.handles, Store.handles] at hmem
    obtain ⟨j, hj, rfl⟩ := List.mem_map.1 hmem
    exact List.mem_range.1 hj) settings
  let c : LiftingCompiler ℝ Unit :=
    ⟨resting, ⟨false, false⟩, [LiftedModel.halves], settings, ⟨1⟩, ⟨2⟩, .collecting (), .empty⟩
  have hbuild : build c = .ok () { c with stage := .lifted ⟨[LiftedModel.halfAxis]⟩ inner } := by
    have hperform : AffineCompiler.build.perform
        (.new (LiftedModel.withAlternative restingLifted b) () settings ⟨2⟩) = (.ok (), inner) := by
      rw [Step.perform, hinner]
    simp only [build, Step.bind_eq_ok_iff, Step.get_eq_ok_iff]
    refine ⟨_, _, ⟨rfl, rfl⟩, ?_⟩
    simp only [c, Step.bind_eq_ok_iff, Step.focus_eq_ok_iff, Step.modify_eq_ok_iff,
      Step.ofExcept_eq_ok_iff]
    exact ⟨_, _, ⟨_, hb, rfl⟩, (), _, rfl, congrArg Prod.fst hperform, by simp only [hperform]⟩
  obtain ⟨lifting, inner', hstage, hrobust⟩ := build_robust (c := c) hseries hbuild
  obtain ⟨rfl, rfl⟩ := LiftingStage.lifted.inj hstage
  obtain ⟨_, _, promised, -, -, -, -, hkeeps⟩ := hrobust ω hω
  refine ⟨c, _, inner, ω, rfl, hseries, hbuild, rfl, hω, fun r hr => ?_⟩
  obtain ⟨R, hR, hR'⟩ := hkeeps .empty (List.mem_singleton.2 rfl) r hr
  exact ⟨R, promised, hR, hR'⟩

end LiftingCompiler

end AdjustableRobust
