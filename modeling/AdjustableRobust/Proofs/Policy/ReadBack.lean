import AdjustableRobust.Proofs.Entries
import AdjustableRobust.Proofs.Expression.Uncertain
import AdjustableRobust.Proofs.Policy.Build
import AdjustableRobust.Proofs.Solver.Lifecycle

/-!
# Reading policies back

A solved policy is read back as one coefficient for each uncertainty. A decision that lists an
uncertainty more than once has several coefficients for it: the compiled policy adds them up, but
only the last one is read back. As long as no uncertainty is listed twice, the policy that is read
back decides what the compiled policy decides, and a reoptimization objective is worth at the
solution what the objective of the robust model is worth there.
-/

namespace AdjustableRobust

/-- A policy has the value of its terms, when the realization has values for them. -/
theorem AffinePolicy.value_eq_ok {p : AffinePolicy ℝ} {r : List ℝ}
    (h : ∀ e ∈ p.scales, e.1.slot < r.length) :
    p.value (.ofList r) =
      .ok (p.constant + (p.scales.map fun e => e.2 * bySlot (entryAt r) e.1).sum) := by
  obtain ⟨b, scales⟩ := p
  rw [value]
  induction scales generalizing b with
  | nil => simp [pure_eq_ok_iff]
  | cons e scales ih =>
    obtain ⟨he, hrest⟩ := List.forall_mem_cons.1 h
    have hstep := Assignment.ofList_eq_bySlot_iff.2 he
    rw [List.foldlM_cons]
    refine bind_eq_ok_iff.2 ⟨_, bind_eq_ok_iff.2 ⟨_, hstep, rfl⟩, (ih _ hrest).trans ?_⟩
    rw [List.map_cons, List.sum_cons, add_assoc]

/-- Value of the policy of a decision as it is read back: every uncertainty counts once, with its
last coefficient. -/
noncomputable def PolicyVariables.readValue (p : PolicyVariables) (slot : ℕ)
    (dependencies : List UncertaintyRef) (ω : ConicRef → ℝ) (u : ℕ → ℝ) : ℝ :=
  (p.constants[slot]?.map ω).getD 0
    + ((entriesOf (dependencies.zip ((p.factors.getD slot []).map ω))).map fun e =>
        e.2 * bySlot u e.1).sum

/-- Without repeated dependencies the policy is read back as it was compiled. -/
theorem PolicyVariables.readValue_of_nodup {p : PolicyVariables} {slot : ℕ}
    {us : List UncertaintyRef} (h : us.Nodup)
    (hlength : us.length ≤ (p.factors.getD slot []).length) (ω : ConicRef → ℝ) (u : ℕ → ℝ) :
    p.readValue slot us ω u = p.valueAt slot us ω u := by
  have hkeys : (us.zip ((p.factors.getD slot []).map ω)).map (·.1) = us :=
    List.map_fst_zip (by rwa [List.length_map])
  rw [readValue, valueAt, entriesOf_of_nodup (hkeys.symm ▸ h), List.zip_map_right, List.map_map,
    List.zip, List.map_zipWith]
  rfl

/-! ## Stored values -/

namespace AffineCompiler

variable {model : RobustModel ℝ} {β : Type} {c c₀ : AffineCompiler ℝ β}

/-! ## Compiled states -/

/-- The compiler has compiled the model: for each decision there are a constant and one
coefficient for each dependency, all of them variables of the conic model. -/
structure Compiled (model : RobustModel ℝ) (c : AffineCompiler ℝ β) : Prop where
  model_eq : c.model = model
  isBuilt : c.isBuilt = true
  policy : ∀ (i : ℕ) d, model.decisions.items[i]? = some d → ∃ fs b,
    c.policy.factors[i]? = some fs ∧ fs.length = d.dependencies.length ∧
      c.policy.constants[i]? = some b ∧ (∀ a ∈ fs, a ∈ c.conic.vars.handles) ∧
        b ∈ c.conic.vars.handles
  dependencies : ∀ d ∈ model.decisions.items, ∀ u ∈ d.dependencies, u.slot < model.numUncertainties

variable {backend : β} {settings : SolverSettings ℝ} {owner : OwnerId}

/-- Building compiles. -/
theorem compiled_of_build {u : Unit} (hrun : build (new model backend settings owner) = .ok u c) :
    c.Compiled model := by
  obtain ⟨hmodel, hbuilt, -⟩ := model_of_build hrun
  obtain ⟨m, hp, hfill, hos, -, hcompile⟩ := build_eq_ok hrun
  obtain ⟨_, _, _, _, -, hwrites⟩ := Counterpart.compile_writes hp hcompile
  have hhandles : ∀ h, m.Declares h → h ∈ c.conic.vars.handles := fun h hh => by
    obtain ⟨howner, hepoch, hslot⟩ :=
      ConicModel.declares_iff.1 (hwrites.extension.declares (m := { m with objectives := _ }) hh)
    exact List.mem_map.2 ⟨h.slot, List.mem_range.2 hslot, by
      rw [Store.handleFor, ← howner, ← hepoch]⟩
  refine ⟨hmodel, hbuilt, fun i d hd => ?_, fun d hd u hu => ?_⟩
  · have hlength : (c.policy.factors[i]?).map List.length = some d.dependencies.length := by
      rw [← List.getElem?_map, hfill.factors, List.getElem?_map, hd, Option.map_some]
    obtain ⟨fs, hfs, hlength⟩ := Option.map_eq_some_iff.1 hlength
    have hi : i < c.policy.constants.length := hfill.constants ▸ (List.getElem?_eq_some_iff.1 hd).1
    exact ⟨fs, _, hfs, hlength, List.getElem?_eq_getElem hi,
      fun a ha => hhandles a (hp.factors fs (List.mem_of_getElem? hfs) a ha),
      hhandles _ (hp.constants _ (List.getElem_mem hi))⟩
  · obtain ⟨x, hx⟩ := hfill.dependencies d hd u hu
    exact UncertaintySet.slot_lt_of_variableAt hx

variable [ConicBackend ℝ β]

/-- An optimal solve of a compiled model keeps it compiled and leaves a solution. -/
theorem Compiled.solve (h : c₀.Compiled model) (hrun : AffineCompiler.solve c₀ = .ok .optimal c) :
    c.Compiled model ∧ c.solver.hasSolution = true ∧ c.policy = c₀.policy := by
  simp only [AffineCompiler.solve, Step.bind_eq_ok_iff, Step.get_eq_ok_iff] at hrun
  obtain ⟨_, _, ⟨rfl, rfl⟩, hrun⟩ := hrun
  simp only [h.isBuilt, Bool.not_true, Bool.false_eq_true, ite_false, Step.bind_eq_ok_iff,
    Step.focus_eq_ok_iff] at hrun
  obtain ⟨status, _, ⟨r, hsolve, rfl⟩, hrun⟩ := hrun
  have hend : status = .optimal ∧
      { c₀ with solver := r.solver, conic := r.model, isBuilt := true } = c := by
    split at hrun
    · next hne =>
      obtain ⟨_, _, -, hreturn⟩ := Step.bind_eq_ok_iff.1 hrun
      exact absurd (Step.pure_eq_ok_iff.1 hreturn).1 hne
    · exact Step.pure_eq_ok_iff.1 hrun
  obtain ⟨rfl, rfl⟩ := hend
  have hhandles : r.model.vars.handles = c₀.conic.vars.handles := by
    have hkeeps := SolverRun.keeps_solve (β := β) ⟨c₀.solver, c₀.conic⟩ rfl
    rw [Step.perform, hsolve] at hkeeps
    exact ConicModel.handles_congr hkeeps
  refine ⟨⟨h.model_eq, rfl, fun i d hd => ?_, h.dependencies⟩, ?_, rfl⟩
  · simp only [hhandles]
    exact h.policy i d hd
  · simp [ConicSolver.hasSolution, ConicSolver.status, SolverRun.state_of_solve hsolve]

omit [ConicBackend ℝ β]

/-! ## Policies that are read back -/

variable {xs r : List ℝ}

/-- Values of policy variables are found in the solution. -/
theorem valueOf_eq_ok (hsolution : c.solver.hasSolution = true)
    (hvalues : c.conic.solutionValues = .ok xs) {h : ConicRef} (hh : h ∈ c.conic.vars.handles) :
    c.valueOf h = .ok (bySlot (entryAt xs) h) := by
  rw [valueOf, PolicyError.fromSolver, mapError_eq_ok_iff]
  exact ConicSolver.value_eq_ok hsolution hvalues hh

/-- The policy of a decision is read back. -/
theorem Compiled.affinePolicy_eq_ok (h : c.Compiled model) (hsolution : c.solver.hasSolution = true)
    (hvalues : c.conic.solutionValues = .ok xs) {i : ℕ} {d : DecisionVariable ℝ}
    (hd : model.decisions.items[i]? = some d) : ∃ fs b, c.policy.factors[i]? = some fs ∧
      fs.length = d.dependencies.length ∧ c.policy.constants[i]? = some b ∧
        c.affinePolicy (model.decisions.handleFor i) = .ok ⟨bySlot (entryAt xs) b,
          entriesOf (d.dependencies.zip (fs.map (bySlot (entryAt xs))))⟩ := by
  obtain ⟨fs, b, hfs, hlength, hb, hfactors, hconstant⟩ := h.policy i d hd
  refine ⟨fs, b, hfs, hlength, hb, ?_⟩
  have hdecision : c.model.decisionAt (model.decisions.handleFor i) = .ok d := by
    rw [h.model_eq]
    exact RobustModel.decisionAt_eq_ok_iff.2 ⟨rfl, rfl, hd⟩
  have hpairs : (d.dependencies.zip fs).mapM (fun p => return (p.1, ← c.valueOf p.2)) =
      (.ok (d.dependencies.zip (fs.map (bySlot (entryAt xs)))) : Except (PolicyError ℝ) _) := by
    rw [mapM_eq_ok_iff, List.zip_map_right, List.forall₂_map_right_iff, List.forall₂_same]
    intro p hp
    have hvalue := valueOf_eq_ok hsolution hvalues (hfactors _ (List.of_mem_zip hp).2)
    exact bind_eq_ok_iff.2 ⟨_, hvalue, rfl⟩
  have hb' : c.constant (model.decisions.handleFor i) = .ok b := by
    simp only [constant, h.isBuilt, Bool.not_true, Bool.false_eq_true, ite_false, hdecision]
    exact mapError_eq_ok_iff.2 (Handle.lookup_eq_ok_iff.2 hb)
  have hfs' : c.factors (model.decisions.handleFor i) = .ok fs := by
    simp only [factors, h.isBuilt, Bool.not_true, Bool.false_eq_true, ite_false, hdecision]
    exact mapError_eq_ok_iff.2 (Handle.lookup_eq_ok_iff.2 hfs)
  exact bind_eq_ok_iff.2 ⟨d, mapError_eq_ok_iff.2 hdecision, bind_eq_ok_iff.2 ⟨b, hb',
    bind_eq_ok_iff.2 ⟨_, valueOf_eq_ok hsolution hvalues hconstant, bind_eq_ok_iff.2 ⟨fs, hfs',
      bind_eq_ok_iff.2 ⟨_, hpairs, rfl⟩⟩⟩⟩⟩

/-- The solution at a realization decides by the policies that are read back. -/
theorem Compiled.solutionAt_eq_ok (h : c.Compiled model) (hsolution : c.solver.hasSolution = true)
    (hvalues : c.conic.solutionValues = .ok xs) (hr : r.length = model.numUncertainties) :
    c.solutionAt r = .ok ⟨model, r, model.decisions.items.zipIdx.map fun d =>
      c.policy.readValue d.2 d.1.dependencies (bySlot (entryAt xs)) (entryAt r)⟩ := by
  have hdecisions : c.model.decisions.handles.mapM (fun d => do
      PolicyError.fromModel ((← c.affinePolicy d).value (.ofList r))) =
        (.ok (model.decisions.items.zipIdx.map fun d => c.policy.readValue d.2 d.1.dependencies
          (bySlot (entryAt xs)) (entryAt r)) : Except (PolicyError ℝ) _) := by
    rw [h.model_eq, mapM_eq_ok_iff, List.forall₂_iff_get]
    refine ⟨by simp [Store.handles, Store.size], fun i hi hi' => ?_⟩
    have hlt : i < model.decisions.items.length := by simpa using hi'
    obtain ⟨fs, b, hfs, -, hb, hpolicy⟩ :=
      h.affinePolicy_eq_ok hsolution hvalues (List.getElem?_eq_getElem hlt)
    have hvalue := AffinePolicy.value_eq_ok (r := r) (p := ⟨bySlot (entryAt xs) b, entriesOf
      (model.decisions.items[i].dependencies.zip (fs.map (bySlot (entryAt xs))))⟩) fun e he => by
        obtain ⟨p, hp, hkey⟩ := fst_mem_of_mem_entriesOf he
        rw [hr, ← hkey]
        exact h.dependencies _ (List.getElem_mem hlt) _ (List.of_mem_zip hp).1
    have hhandle : model.decisions.handles.get ⟨i, hi⟩ = model.decisions.handleFor i := by
      simp [Store.handles]
    rw [hhandle]
    refine bind_eq_ok_iff.2 ⟨_, hpolicy, mapError_eq_ok_iff.2 (hvalue.trans ?_)⟩
    simp [PolicyVariables.readValue, hfs, hb, List.getD_eq_getElem?_getD]
  simp only [solutionAt, h.model_eq, hr, ne_eq, not_true_eq_false, ite_false, bind_eq_ok_iff]
  rw [h.model_eq] at hdecisions
  refine ⟨_, hdecisions, mapError_eq_ok_iff.2 ?_⟩
  simp [Solution.make, hr, RobustModel.numDecisions, Store.size, pure_eq_ok_iff]

/-! ## Reoptimization -/

private theorem foldlM_policyAt_eq_ok (us : List UncertaintyRef) (fs : List ConicRef)
    (hus : ∀ u ∈ us, u.slot < r.length) (start : AffineExpr ℝ ConicRef) :
    ∃ e, (us.zip fs).foldlM (fun (e : AffineExpr ℝ ConicRef) (u, a) => do
        return e.addTerm (← Assignment.ofList r u) a) start = (.ok e : Except (ModelError ℝ) _) ∧
      (∀ w ∈ e.vars, w ∈ start.vars ∨ w ∈ fs) ∧ ∀ ω : ConicRef → ℝ, e.eval ω = start.eval ω +
        (List.zipWith (fun u a => ω a * bySlot (entryAt r) u) us fs).sum := by
  induction us generalizing start fs with
  | nil => exact ⟨start, rfl, fun w hw => .inl hw, by simp⟩
  | cons u us ih =>
    cases fs with
    | nil => exact ⟨start, rfl, fun w hw => .inl hw, by simp⟩
    | cons a fs =>
      obtain ⟨hu, hus⟩ := List.forall_mem_cons.1 hus
      obtain ⟨e, he, hvars, heval⟩ := ih fs hus
        (start.addTerm (bySlot (entryAt r) u) a)
      refine ⟨e, ?_, fun w hw => ?_, fun ω => ?_⟩
      · rw [List.zip_cons_cons, List.foldlM_cons]
        exact bind_eq_ok_iff.2 ⟨_, bind_eq_ok_iff.2
          ⟨_, Assignment.ofList_eq_bySlot_iff.2 hu, rfl⟩, he⟩
      · rcases hvars w hw with hw | hw
        · rw [AffineExpr.vars_addTerm, List.mem_append, List.mem_singleton] at hw
          rcases hw with hw | rfl
          · exact .inl hw
          · exact .inr List.mem_cons_self
        · exact .inr (List.mem_cons_of_mem _ hw)
      · rw [heval, AffineExpr.eval_addTerm, List.zipWith_cons_cons, List.sum_cons, add_assoc,
          mul_comm (bySlot (entryAt r) u)]

/-- A policy with the uncertainties fixed is an affine expression in its variables, whose value is
what the policy decides. -/
theorem Compiled.policyAt_eq_ok (h : c.Compiled model) (hr : r.length = model.numUncertainties)
    {d : DecisionRef} {v : DecisionVariable ℝ} (hd : model.decisionAt d = .ok v) :
    ∃ e, c.policyAt r d = .ok e ∧ (∀ w ∈ e.vars, w ∈ c.conic.vars.handles) ∧
      ∀ ω, e.eval ω = c.policy.decisionValue model ω (entryAt r) d := by
  have hitem := (RobustModel.decisionAt_eq_ok_iff.1 hd).2.2
  obtain ⟨fs, b, hfs, -, hb, hfactors, hconstant⟩ := h.policy _ v hitem
  obtain ⟨e, he, hvars, heval⟩ := foldlM_policyAt_eq_ok v.dependencies fs
    (fun u hu => hr ▸ h.dependencies v (List.mem_of_getElem? hitem) u hu) (.var b)
  refine ⟨e, ?_, fun w hw => ?_, fun ω => ?_⟩
  · rw [policyAt, h.model_eq]
    exact bind_eq_ok_iff.2 ⟨v, hd, bind_eq_ok_iff.2 ⟨fs, liftM_eq_ok_iff.2
      (Handle.lookup_eq_ok_iff.2 hfs), bind_eq_ok_iff.2 ⟨b, liftM_eq_ok_iff.2
        (Handle.lookup_eq_ok_iff.2 hb), he⟩⟩⟩
  · rcases hvars w hw with hw | hw
    · rw [AffineExpr.vars_var, List.mem_singleton] at hw
      exact hw ▸ hconstant
    · exact hfactors w hw
  · rw [heval, AffineExpr.eval_var, PolicyVariables.decisionValue, hitem, Option.map_some,
      Option.getD_some, PolicyVariables.valueAt, hb, Option.map_some, Option.getD_some,
      List.getD_eq_getElem?_getD, hfs, Option.getD_some]

/-- The reoptimization objective at a realization is the objective under the compiled policies. -/
theorem Compiled.addReoptimization_eq_ok (h : c.Compiled model)
    (hr : r.length = model.numUncertainties) {o : RobustObjective ℝ}
    (ho : model.objective = .ok o) (hrefers : o.expression.RefersTo model) :
    ∃ e, c.addReoptimization r = .ok { c with conic := c.conic.addObjective (.new o.sense e) } ∧
      (∀ w ∈ e.vars, w ∈ c.conic.vars.handles) ∧
        ∀ ω, e.eval ω = o.expression.underPolicies model c.policy ω (entryAt r) := by
  have hpolicy : ∀ d g, c.policyAt r d = .ok g → ∃ v, model.decisionAt d = .ok v := fun d g hg => by
    rw [policyAt, h.model_eq] at hg
    obtain ⟨v, hv, -⟩ := bind_eq_ok_iff.1 hg
    exact ⟨v, hv⟩
  have hvars : ∀ d g, c.policyAt r d = .ok g → ∀ w ∈ g.vars, w ∈ c.conic.vars.handles :=
    fun d g hg => by
      obtain ⟨v, hv⟩ := hpolicy d g hg
      obtain ⟨g', hg', hvars, -⟩ := h.policyAt_eq_ok hr hv
      obtain rfl := Except.ok.inj (hg.symm.trans hg')
      exact hvars
  have hslot : ∀ u : UncertaintyRef, (∃ x, model.uncertainty.variableAt u = .ok x) →
      Assignment.ofList r u = .ok (bySlot (entryAt r) u) := fun u ⟨x, hx⟩ => by
    rw [Assignment.ofList_eq_bySlot_iff, hr]
    exact UncertaintySet.slot_lt_of_variableAt hx
  have hdecision : ∀ d, (∃ x, model.decisionAt d = .ok x) → ∃ g, c.policyAt r d = .ok g :=
    fun d ⟨x, hx⟩ => by
      obtain ⟨g, hg, -⟩ := h.policyAt_eq_ok hr hx
      exact ⟨g, hg⟩
  obtain ⟨e, he, hdeclared, heval⟩ := UncertainExpr.substituteToConic_eq_ok
    (Assignment.ofList_within r) hvars (fun v hv => hslot v (hrefers.uncertainties v hv))
    (fun v hv => hdecision v (hrefers.decisions v hv))
    fun v hv => ⟨hslot _ (hrefers.products v hv).1, hdecision _ (hrefers.products v hv).2⟩
  refine ⟨e, ?_, hdeclared, fun ω => heval ω _ fun d g hg => ?_⟩
  · simp only [addReoptimization, h.isBuilt, Bool.not_true, Bool.false_eq_true, ite_false,
      h.model_eq]
    exact bind_eq_ok_iff.2 ⟨o, mapError_eq_ok_iff.2 ho, bind_eq_ok_iff.2
      ⟨e, mapError_eq_ok_iff.2 he, rfl⟩⟩
  · obtain ⟨v, hv⟩ := hpolicy d g hg
    obtain ⟨g', hg', -, heval⟩ := h.policyAt_eq_ok hr hv
    obtain rfl := Except.ok.inj (hg.symm.trans hg')
    exact heval ω

/-! ## Agreement -/

/-- Policies are read back as they were compiled when no decision lists an uncertainty twice: after
an optimal solve the solution at a realization decides by the compiled policies at the stored
values, and the reoptimization objective there has at the stored values the value that the objective
of the robust model has at the solution. -/
theorem reads_back [ConicBackend ℝ β] {u : Unit}
    (hbuild : build (new model backend settings owner) = .ok u c₀)
    (hsolve : solve c₀ = .ok .optimal c) (hvalues : c.conic.solutionValues = .ok xs)
    (hdistinct : ∀ d ∈ model.decisions.items, d.dependencies.Nodup)
    (hr : r.length = model.numUncertainties) :
    ∃ s, c.solutionAt r = .ok s ∧ s.realization = r ∧
      s.decisions = c.policy.decisions model (bySlot (entryAt xs)) r ∧
        ∀ o, model.objective = .ok o → o.expression.RefersTo model →
          ∃ c' e x, c.addReoptimization r = .ok c' ∧
            c'.conic = c.conic.addObjective (.new o.sense e) ∧
              e.value c'.conic.assignment = .ok x ∧ s.objectiveFor model = .ok x := by
  obtain ⟨hc, hsolution, -⟩ := (compiled_of_build hbuild).solve hsolve
  have hdecisions : (model.decisions.items.zipIdx.map fun d =>
      c.policy.readValue d.2 d.1.dependencies (bySlot (entryAt xs)) (entryAt r)) =
        c.policy.decisions model (bySlot (entryAt xs)) r := by
    refine List.map_congr_left fun d hd => ?_
    have hitem : model.decisions.items[d.2]? = some d.1 := List.mem_zipIdx_iff_getElem?.1 hd
    obtain ⟨fs, b, hfs, hlength, -⟩ := hc.policy _ _ hitem
    refine PolicyVariables.readValue_of_nodup (hdistinct _ (List.mem_of_getElem? hitem)) ?_ _ _
    rw [List.getD_eq_getElem?_getD, hfs, Option.getD_some, hlength]
  refine ⟨_, hc.solutionAt_eq_ok hsolution hvalues hr, rfl, hdecisions, fun o ho hrefers => ?_⟩
  obtain ⟨e, he, hvars, heval⟩ := hc.addReoptimization_eq_ok hr ho hrefers
  refine ⟨_, e, e.eval (bySlot (entryAt xs)), he, rfl, ?_, ?_⟩
  · exact (AffineExpr.value_eq_ok_iff (ConicModel.assignment_within hvalues)).2
      ⟨fun w hw => ConicModel.assignment_eq_ok hvalues (hvars w hw), rfl⟩
  · rw [hdecisions, heval]
    exact bind_eq_ok_iff.2 ⟨o, ho, Solution.evaluate_decisions hrefers _ _ hr⟩

/-- A solver whose backend has recorded an optimum at which every variable is one. -/
noncomputable def allOnes : Replay ℝ :=
  .new [.solution .optimal none (some fun n => List.replicate n 1) none 0]

private theorem exists_solved (hmodel : model.Compilable) (settings : SolverSettings ℝ)
    (owner : OwnerId) :
    ∃ c₀ c, build (new model allOnes settings owner) = .ok () c₀ ∧ solve c₀ = .ok .optimal c ∧
      c.conic.solutionValues = .ok (List.replicate c.conic.numVariables 1) := by
  obtain ⟨c₀, hbuild⟩ := build_succeeds hmodel allOnes settings owner
  obtain ⟨-, hbuilt, hsolver⟩ := model_of_build hbuild
  obtain ⟨m, hp, -, hos, -, hcompile⟩ := build_eq_ok hbuild
  obtain ⟨o, f, -, hos', hdeclares, -⟩ := Counterpart.compile_writes hp hcompile
  obtain ⟨r, hsolve, hvalues⟩ := SolverRun.solve_recorded (r := ⟨c₀.solver, c₀.conic⟩)
    (by rw [hsolver]; rfl) (by rw [hsolver]; rfl) (List.length_replicate ..) (by
      rw [hos', hos]
      exact List.forall_mem_singleton.2 fun v hv =>
        (ConicModel.declares_iff.1 (hdeclares v hv)).2.2)
  have hsize : r.model.numVariables = c₀.conic.numVariables := by
    have hkeeps := SolverRun.keeps_solve (β := Replay ℝ) ⟨c₀.solver, c₀.conic⟩ rfl
    rw [Step.perform, hsolve] at hkeeps
    simpa [Store.handles, ConicModel.numVariables] using
      congrArg List.length (ConicModel.handles_congr hkeeps)
  refine ⟨c₀, { c₀ with solver := r.solver, conic := r.model }, hbuild, ?_, ?_⟩
  · simp only [solve, Step.bind_eq_ok_iff, Step.get_eq_ok_iff]
    refine ⟨c₀, c₀, ⟨rfl, rfl⟩, ?_⟩
    simp only [hbuilt, Bool.not_true, Bool.false_eq_true, ite_false]
    refine Step.bind_eq_ok_iff.2 ⟨_, _, Step.focus_eq_ok hsolve, ?_⟩
    rw [if_neg (by simp), hbuilt]
    rfl
  · rw [hvalues, ← hsize]

/-- The recorded optimum of the capped model is read back, and it can be reoptimized at one half. -/
theorem reads_back_capped : ∃ (c₀ c : AffineCompiler ℝ (Replay ℝ)) (xs : List ℝ) (s : Solution ℝ)
    (c' : AffineCompiler ℝ (Replay ℝ)) (x : ℝ),
    build (new capped allOnes ⟨none, none, false, 0, 0⟩ ⟨0⟩) = .ok () c₀ ∧
      solve c₀ = .ok .optimal c ∧ c.conic.solutionValues = .ok xs ∧
        (∀ d ∈ capped.decisions.items, d.dependencies.Nodup) ∧ c.solutionAt [1 / 2] = .ok s ∧
          s.decisions = c.policy.decisions capped (bySlot (entryAt xs)) [1 / 2] ∧
            c.addReoptimization [1 / 2] = .ok c' ∧ s.objectiveFor capped = .ok x := by
  have hcapped : capped.Compilable := capped_compilable (by simp)
  obtain ⟨c₀, c, hbuild, hsolve, hvalues⟩ := exists_solved hcapped ⟨none, none, false, 0, 0⟩ ⟨0⟩
  have hdistinct : ∀ d ∈ capped.decisions.items, d.dependencies.Nodup :=
    List.forall_mem_singleton.2 (by simp)
  obtain ⟨s, hs, -, hdecisions, hobjective⟩ :=
    reads_back (r := [1 / 2]) hbuild hsolve hvalues hdistinct rfl
  obtain ⟨o, ho, hcompiles⟩ := hcapped.objective
  obtain ⟨c', e, x, hc', -, -, hx⟩ := hobjective o ho hcompiles.refers
  exact ⟨c₀, c, _, s, c', x, hbuild, hsolve, hvalues, hdistinct, hs, hdecisions, hc', hx⟩

/-- The largest decision below an uncertainty on which it depends twice. -/
noncomputable def repeated : RobustModel ℝ :=
  { capped with
    decisions := ⟨⟨0⟩, 0, [⟨"x", none, .free, [⟨⟨0⟩, 0, 0⟩, ⟨⟨0⟩, 0, 0⟩], none⟩]⟩ }

/-- With both coefficients and the constant one, the compiled policy decides three where the
uncertainty is one; but it is read back with a single coefficient, which decides two. -/
theorem reads_back_once : ∃ (c₀ c : AffineCompiler ℝ (Replay ℝ)) (xs : List ℝ) (s : Solution ℝ),
    build (new repeated allOnes ⟨none, none, false, 0, 0⟩ ⟨0⟩) = .ok () c₀ ∧
      solve c₀ = .ok .optimal c ∧ c.conic.solutionValues = .ok xs ∧ c.solutionAt [1] = .ok s ∧
        s.decisions = [2] ∧ c.policy.decisions repeated (bySlot (entryAt xs)) [1] = [3] := by
  have hmodel : repeated.Compilable := capped_compilable (by simp)
  obtain ⟨c₀, c, hbuild, hsolve, hvalues⟩ := exists_solved hmodel ⟨none, none, false, 0, 0⟩ ⟨0⟩
  obtain ⟨hc, hsolution, -⟩ := (compiled_of_build hbuild).solve hsolve
  obtain ⟨fs, b, hfs, hlength, hb, hfactors, hconstant⟩ := hc.policy 0 _ rfl
  obtain ⟨a, a', rfl⟩ := List.length_eq_two.1 hlength
  set ω : ConicRef → ℝ := bySlot (entryAt (List.replicate c.conic.numVariables 1)) with hω
  have hone : ∀ h ∈ c.conic.vars.handles, ω h = 1 := fun h hh => by
    obtain ⟨i, hi, rfl⟩ := List.mem_map.1 hh
    have hlt : i < c.conic.numVariables := List.mem_range.1 hi
    simp [hω, bySlot, entryAt, Store.handleFor, List.getD_eq_getElem?_getD, hlt]
  have ha : ω a = 1 := hone a (hfactors a (by simp))
  have ha' : ω a' = 1 := hone a' (hfactors a' (by simp))
  have hread : c.policy.readValue 0 [⟨⟨0⟩, 0, 0⟩, ⟨⟨0⟩, 0, 0⟩] ω (entryAt [1]) = 2 := by
    simp [PolicyVariables.readValue, hfs, hb, List.getD_eq_getElem?_getD, ha, ha', hone b hconstant,
      entriesOf, setEntry, bySlot, entryAt]
    norm_num
  have hcompiled : c.policy.valueAt 0 [⟨⟨0⟩, 0, 0⟩, ⟨⟨0⟩, 0, 0⟩] ω (entryAt [1]) = 3 := by
    simp [PolicyVariables.valueAt, hfs, hb, List.getD_eq_getElem?_getD, ha, ha', hone b hconstant,
      bySlot, entryAt]
    norm_num
  exact ⟨c₀, c, _, _, hbuild, hsolve, hvalues, hc.solutionAt_eq_ok hsolution hvalues rfl,
    congrArg (fun x => [x]) hread, congrArg (fun x => [x]) hcompiled⟩

end AffineCompiler

end AdjustableRobust
