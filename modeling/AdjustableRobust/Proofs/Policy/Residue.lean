import AdjustableRobust.Proofs.Policy.Appends
import AdjustableRobust.Proofs.Policy.Emission
import AdjustableRobust.Proofs.Robust.Wiring

/-!
# What failed compilations leave

The affine compiler writes into its conic model while it compiles. A compilation that fails leaves
what it has written, and each further attempt writes behind that again. Nothing is written only
when there is no decision and the objective fails at once: it is missing, or an expectation that
cannot be computed.
-/

namespace AdjustableRobust

/-- There is no decision to declare policy variables for, and the objective is missing or an
expectation that cannot be computed. -/
structure RobustModel.FailsUnwritten (model : RobustModel ℝ) : Prop where
  decisions : model.decisions.items = []
  objective : ∀ o, model.objective = .ok o → o.expression.mode = .stochastic ∧
    ∀ f, Counterpart.stochastic model ⟨[], []⟩ o.gain ≠ .ok f

variable {model : RobustModel ℝ}

namespace Counterpart

open Step

variable {p : PolicyVariables} {m : ConicModel ℝ} {o : RobustObjective ℝ}

/-- Without decisions an expectation is about no policy variables. -/
theorem stochastic_of_noDecisions (hmodel : model.decisions.items = []) (p p' : PolicyVariables)
    (e : UncertainExpr ℝ) : stochastic model p e = stochastic model p' e := by
  have hentries : model.decisions.entries = [] := by rw [Store.entries, hmodel]; rfl
  simp only [stochastic, hentries, List.zip_nil_left, List.foldlM_nil]

private theorem size_lt_compileObjective (m : ConicModel ℝ) (ho : model.objective = .ok o)
    (hwritten : o.expression.mode = .stochastic →
      ∃ f, stochastic model p o.gain = .ok f) :
    m.size < ((compileObjective model p).perform m).2.size := by
  have hrobust : m.size < ((robust model p o.gain "Objective" >>= fun f =>
      modify (·.addObjective (o.ofGain f))).perform m).2.size := by
    have hepigraph := robust_extends_epigraph model p m o.gain "Objective"
    have happends := Keeps.bind_of_perform (f := fun f => modify (·.addObjective (o.ofGain f)))
      hepigraph fun f => .modify fun _ h => h.addObjective _
    have hle := happends.size_le
    rw [ConicModel.size_addVariable] at hle
    exact hle
  rw [compileObjective_eq ho, counterpart, o.mode_gain]
  cases hstochastic : o.expression.mode with
  | union => exact hrobust
  | average => exact hrobust
  | stochastic =>
    obtain ⟨f, hf⟩ := hwritten hstochastic
    rw [hf]
    exact (ConicModel.size_addObjective m (o.ofGain f)).ge

private theorem perform_compile_unwritten (m : ConicModel ℝ)
    (hunwritten : ∀ o, model.objective = .ok o → o.expression.mode = .stochastic ∧
      ∀ f, stochastic model p o.gain ≠ .ok f) :
    ((compile model p).perform m).2 = m := by
  have hobjective : ∃ e, (compileObjective model p).perform m = (.error e, m) := by
    cases ho : model.objective with
    | error e => exact ⟨.model e, by rw [compileObjective, ho]; rfl⟩
    | ok o =>
      obtain ⟨hmode, hf⟩ := hunwritten o ho
      rw [compileObjective_eq ho, counterpart_stochastic (o.mode_gain.trans hmode)]
      cases hrun : stochastic model p o.gain with
      | error e => exact ⟨e, rfl⟩
      | ok f => exact absurd hrun (hf f)
  obtain ⟨e, he⟩ := hobjective
  rw [compile, perform_bind, he]

private theorem size_lt_compile (m : ConicModel ℝ) (hdecisions : model.decisions.items = [])
    (hwritten : ¬model.FailsUnwritten) : m.size < ((compile model p).perform m).2.size := by
  have hobjective : ∃ o, model.objective = .ok o ∧ (o.expression.mode = .stochastic →
      ∃ f, stochastic model p o.gain = .ok f) := by
    by_contra hnone
    push Not at hnone
    refine hwritten ⟨hdecisions, fun o ho => ?_⟩
    obtain ⟨hmode, hf⟩ := hnone o ho
    exact ⟨hmode, fun f => stochastic_of_noDecisions hdecisions p _ _ ▸ hf f⟩
  obtain ⟨o, ho, hwritten⟩ := hobjective
  exact (size_lt_compileObjective m ho hwritten).trans_le (compile_extends_objective m).size_le

end Counterpart

namespace AffineCompiler

open Step

variable {β : Type} {c c' : AffineCompiler ℝ β} {d d' : Draft ℝ}

/-! ## Declaring the policy variables -/

private theorem declareFactors_extends (model : RobustModel ℝ) {m : ConicModel ℝ}
    (vs : List (DecisionVariable ℝ)) :
    Keeps (fun d => m.Appends d.conic) (vs.forM (declareFactors model)) := by
  refine .forM fun v _ => .bind (.mapM fun _ _ => .bind .ofExcept fun _ => ?_) fun _ => ?_
  · exact .focus_part (Counterpart.declare_extends _ _) (fun _ h => h) fun _ _ _ h => h
  · exact .modify fun _ h => h

private theorem declareConstants_extends (vs : List (DecisionVariable ℝ)) (d : Draft ℝ) :
    d.conic.Appends ((vs.forM declareConstant).perform d).2.conic ∧
      ((vs.forM declareConstant).perform d).2.conic.size = d.conic.size + vs.length := by
  induction vs generalizing d with
  | nil => exact ⟨.refl _, rfl⟩
  | cons v vs ih =>
    let added := d.conic.addVariable s!"B_{v.name}" .free
    obtain ⟨happends, hsize⟩ :=
      ih ⟨added.2, d.policy.factors, d.policy.constants ++ [added.1]⟩
    refine ⟨((ConicModel.Appends.refl _).push _).trans happends, hsize.trans ?_⟩
    calc added.2.size + vs.length = d.conic.size + 1 + vs.length := by
          rw [ConicModel.size_addVariable]
      _ = d.conic.size + (v :: vs).length := by
          rw [List.length_cons]
          omega

private theorem exists_declarePolicies (hmodel : model.Connected) (d : Draft ℝ) :
    ∃ d', declarePolicies model d = .ok () d' ∧ d.conic.Appends d'.conic ∧
      d.conic.size + model.decisions.items.length ≤ d'.conic.size := by
  obtain ⟨_, d', hrun, -⟩ := declarePolicies_yields hmodel d
  obtain ⟨_, d₁, hfactors, hconstants⟩ := Step.bind_eq_ok_iff.1 hrun
  have hfirst := declareFactors_extends model model.decisions.items d (.refl _)
  obtain ⟨hsecond, hsize⟩ := declareConstants_extends model.decisions.items d₁
  rw [perform, hfactors] at hfirst
  rw [perform, hconstants] at hsecond hsize
  refine ⟨d', hrun, hfirst.trans hsecond, ?_⟩
  exact (Nat.add_le_add_right hfirst.size_le _).trans hsize.ge

private theorem declarePolicies_of_nil (hmodel : model.decisions.items = []) (d : Draft ℝ) :
    declarePolicies model d = .ok () d := by
  rw [declarePolicies, hmodel]
  rfl

/-! ## Failed compilations -/

private theorem perform_build_built (hbuilt : c.isBuilt = true) :
    build.perform c = (.error (.solver .alreadyBuilt), c) := by
  rw [build, perform_bind, perform_get]
  dsimp only
  rw [if_pos hbuilt]
  rfl

private theorem keeps_model_build (model : RobustModel ℝ) :
    Keeps (fun c : AffineCompiler ℝ β => c.model = model) build :=
  .bind_get fun _ _ => .check (.bind (.focus fun _ _ h => h) fun _ => .bind_get fun _ _ =>
    .bind (.focus fun _ _ h => h) fun _ => .modify fun _ h => h)

private theorem eq_of_build_error (hbuilt : c.isBuilt = false)
    (hdeclare : declarePolicies c.model ⟨c.conic, c.policy⟩ = .ok () d)
    {e : PolicyError ℝ} (hrun : build.perform c = (.error e, c')) :
    c' = { c with
      conic := ((Counterpart.compile c.model d.policy).perform d.conic).2
      policy := d.policy } := by
  rw [build, perform_bind, perform_get] at hrun
  dsimp only at hrun
  rw [if_neg (hbuilt ▸ Bool.false_ne_true), perform_bind, perform_focus, perform, hdeclare] at hrun
  dsimp only [Except.mapError] at hrun
  rw [perform_bind, perform_get] at hrun
  dsimp only at hrun
  rw [perform_bind, perform_focus] at hrun
  dsimp only at hrun
  cases hcompile : ((Counterpart.compile c.model d.policy).perform d.conic).1 with
  | error e =>
    rw [hcompile] at hrun
    exact (Prod.mk.inj hrun).2.symm
  | ok u =>
    rw [hcompile] at hrun
    cases (Prod.mk.inj hrun).1

private theorem build_error_leaves (hmodel : c.model.Connected) (hbuilt : c.isBuilt = false)
    {e : PolicyError ℝ} (hrun : build.perform c = (.error e, c')) :
    c'.isBuilt = false ∧ c.conic.Appends c'.conic ∧
      (c.model.FailsUnwritten → c'.conic = c.conic) ∧
        (¬c.model.FailsUnwritten → c.conic.size < c'.conic.size) := by
  obtain ⟨d, hdeclare, hdeclared, hsize⟩ := exists_declarePolicies hmodel ⟨c.conic, c.policy⟩
  obtain rfl := eq_of_build_error hbuilt hdeclare hrun
  have hcompiled : d.conic.Appends ((Counterpart.compile c.model d.policy).perform d.conic).2 :=
    Counterpart.compile_extends d.conic (.refl _)
  refine ⟨hbuilt, hdeclared.trans hcompiled, fun hunwritten => ?_, fun hwritten => ?_⟩
  · obtain ⟨-, rfl⟩ := EStateM.Result.ok.inj
      ((declarePolicies_of_nil hunwritten.decisions _).symm.trans hdeclare)
    refine Counterpart.perform_compile_unwritten _ fun o ho => ?_
    obtain ⟨hmode, hf⟩ := hunwritten.objective o ho
    exact ⟨hmode, Counterpart.stochastic_of_noDecisions hunwritten.decisions _ _ _ ▸ hf⟩
  · by_cases hdecisions : c.model.decisions.items = []
    · exact hdeclared.size_le.trans_lt (Counterpart.size_lt_compile _ hdecisions hwritten)
    · have hpos := List.length_pos_iff.2 hdecisions
      exact (Nat.lt_add_of_pos_right hpos).trans_le (hsize.trans hcompiled.size_le)

/-! ## Sequences of calls -/

variable [ConicBackend ℝ β] {call : Call}

/-- The result of the build step of a call, if the call has one. A solve compiles only what was not
compiled before. -/
noncomputable def buildStep? (c : AffineCompiler ℝ β) : Call → Option (Except (PolicyError ℝ) Unit)
  | .build => some (build.perform c).1
  | .solve => if c.isBuilt then none else some (build.perform c).1
  | .configure _ | .reoptimize _ => none

/-- Every call in turn fails in its build step. -/
def FailsThroughout (c : AffineCompiler ℝ β) : List Call → Prop
  | [] => True
  | call :: calls =>
    (∃ e, c.buildStep? call = some (.error e)) ∧ (c.respond call).FailsThroughout calls

private theorem perform_build_eq {e : PolicyError ℝ} (hstep : c.buildStep? call = some (.error e)) :
    build.perform c = (.error e, c.respond call) := by
  cases call with
  | build => exact Prod.ext (Option.some.inj hstep) rfl
  | configure settings => cases hstep
  | reoptimize r => cases hstep
  | solve =>
    rw [buildStep?] at hstep
    cases hbuilt : c.isBuilt with
    | true =>
      rw [hbuilt] at hstep
      cases hstep
    | false =>
      rw [hbuilt] at hstep
      have hresult : (build.perform c).1 = .error e := Option.some.inj hstep
      rw [respond, solve, perform_bind, perform_get]
      dsimp only
      rw [hbuilt, Bool.not_false, if_pos rfl, perform_bind]
      cases hrun : build.perform c with
      | mk result t =>
        rw [hrun] at hresult
        rw [show result = .error e from hresult]

private theorem model_respond (c : AffineCompiler ℝ β) (call : Call) :
    (c.respond call).model = c.model := by
  cases call with
  | build => exact keeps_model_build c.model c rfl
  | solve =>
    refine Keeps.bind_get (I := fun t : AffineCompiler ℝ β => t.model = c.model)
      (fun _ _ => .before (keeps_model_build c.model) ?_) c rfl
    exact .bind (.focus fun _ _ h => h) fun _ => .before (.modify fun _ h => h) .pure
  | configure settings => rfl
  | reoptimize r =>
    rw [respond]
    cases hrun : c.addReoptimization r with
    | error e => rfl
    | ok c' =>
      unfold addReoptimization at hrun
      split at hrun
      · exact absurd hrun throw_ne_ok
      obtain ⟨o, -, hrun⟩ := AdjustableRobust.bind_eq_ok_iff.1 hrun
      obtain ⟨f, -, hrun⟩ := AdjustableRobust.bind_eq_ok_iff.1 hrun
      exact AdjustableRobust.pure_eq_ok_iff.1 hrun ▸ rfl

private theorem model_after (c : AffineCompiler ℝ β) (calls : List Call) :
    (c.after calls).model = c.model :=
  List.foldlRecOn (motive := fun t : AffineCompiler ℝ β => t.model = c.model) calls respond rfl
    fun t ht call _ => (t.model_respond call).trans ht

private theorem failed_call_leaves (hmodel : c.model.Connected) {e : PolicyError ℝ}
    (hstep : c.buildStep? call = some (.error e)) :
    c.conic.Appends (c.respond call).conic ∧
      ((c.respond call).conic = c.conic ↔ c.isBuilt = true ∨ c.model.FailsUnwritten) := by
  have hrun := perform_build_eq hstep
  cases hbuilt : c.isBuilt with
  | true =>
    rw [perform_build_built hbuilt] at hrun
    rw [← (Prod.mk.inj hrun).2]
    exact ⟨.refl _, iff_of_true rfl (.inl rfl)⟩
  | false =>
    obtain ⟨-, happends, hunwritten, hwritten⟩ := build_error_leaves hmodel hbuilt hrun
    refine ⟨happends, fun heq => .inr ?_, fun h => hunwritten (h.resolve_left Bool.false_ne_true)⟩
    by_contra hnot
    exact (hwritten hnot).ne' (congrArg ConicModel.size heq)

private theorem size_after_failures (hmodel : c.model.Connected) (hbuilt : c.isBuilt = false)
    (hwritten : ¬c.model.FailsUnwritten) {attempts : List Call}
    (hfails : c.FailsThroughout attempts) :
    c.conic.size + attempts.length ≤ (c.after attempts).conic.size := by
  induction attempts generalizing c with
  | nil => exact le_rfl
  | cons call attempts ih =>
    obtain ⟨⟨e, hstep⟩, hrest⟩ := hfails
    obtain ⟨hbuilt', -, -, hlarger⟩ := build_error_leaves hmodel hbuilt (perform_build_eq hstep)
    have hkept := model_respond c call
    calc c.conic.size + (call :: attempts).length = c.conic.size + 1 + attempts.length := by
          rw [List.length_cons]
          omega
      _ ≤ (c.respond call).conic.size + attempts.length :=
          Nat.add_le_add_right (hlarger hwritten) _
      _ ≤ (c.after (call :: attempts)).conic.size :=
          ih (hkept ▸ hmodel) hbuilt' (hkept ▸ hwritten) hrest

/-- Failed compilations leave a residue: whatever was asked of a compiler before, a call whose build
step fails appends to the conic model. It leaves the conic model as it was only when the robust
model had been compiled or the failure comes before anything is written; otherwise every further
attempt that fails makes the conic model larger. -/
theorem failed_builds_accumulate (hmodel : model.Reachable) {backend : β}
    {settings : SolverSettings ℝ} {owner : OwnerId} {calls : List Call}
    (hc : c = (new model backend settings owner).after calls) :
    (∀ call e, c.buildStep? call = some (.error e) →
      c.conic.Appends (c.respond call).conic ∧
        ((c.respond call).conic = c.conic ↔ c.isBuilt = true ∨ model.FailsUnwritten)) ∧
    (c.isBuilt = false → ¬model.FailsUnwritten → ∀ attempts, c.FailsThroughout attempts →
      c.conic.size + attempts.length ≤ (c.after attempts).conic.size) := by
  have hkept : c.model = model := hc ▸ model_after _ calls
  have hconnected : c.model.Connected := hkept ▸ hmodel.connected
  refine ⟨fun call e hstep => ?_, fun hbuilt hwritten attempts hfails => ?_⟩
  · rw [← hkept]
    exact failed_call_leaves hconnected hstep
  · exact size_after_failures hconnected hbuilt (hkept ▸ hwritten) hfails

/-- One decision, and nothing to optimize. -/
noncomputable def aimless : RobustModel ℝ where
  name := "aimless"
  decisions := ⟨⟨0⟩, 0, [⟨"x", none, .free, [], none⟩]⟩
  uncertainty := .new "aimless" ⟨0⟩
  constraints := []
  objective? := none
  distribution? := none

/-- Two attempts to compile a model without an objective leave at least two entries behind. -/
theorem failed_builds_accumulate_aimless :
    aimless.Reachable ∧
      2 ≤ ((new aimless allOnes ⟨none, none, false, 0, 0⟩ ⟨0⟩).after
        [.build, .solve]).conic.size := by
  have hadd : (RobustModel.new "aimless" ⟨0⟩).addDecision "x" none none none =
      .ok (⟨⟨0⟩, 0, 0⟩, aimless) := rfl
  have hreachable : aimless.Reachable := .addDecision (.new "aimless" ⟨0⟩) hadd
  refine ⟨hreachable, ?_⟩
  have hstart : new aimless allOnes ⟨none, none, false, 0, 0⟩ ⟨0⟩ =
      (new aimless allOnes ⟨none, none, false, 0, 0⟩ ⟨0⟩).after [] := rfl
  refine (failed_builds_accumulate hreachable hstart).2 rfl (fun h => ?_) [.build, .solve]
    ⟨⟨_, rfl⟩, ⟨_, rfl⟩, trivial⟩
  cases h.decisions

/-- The variable that a failed compilation has declared stays, and the next one declares another. -/
theorem aimless_leaves_variables :
    (new aimless allOnes ⟨none, none, false, 0, 0⟩ ⟨0⟩).buildStep? .build =
        some (.error (.model .missingObjective)) ∧
      (new aimless allOnes ⟨none, none, false, 0, 0⟩ ⟨0⟩).conic.numVariables = 0 ∧
      ((new aimless allOnes ⟨none, none, false, 0, 0⟩ ⟨0⟩).after [.build]).conic.numVariables = 1 ∧
      ((new aimless allOnes ⟨none, none, false, 0, 0⟩ ⟨0⟩).after
        [.build, .build]).conic.numVariables = 2 :=
  ⟨rfl, rfl, rfl, rfl⟩

end AffineCompiler

end AdjustableRobust
