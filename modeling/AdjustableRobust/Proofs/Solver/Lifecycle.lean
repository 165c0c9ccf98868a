import AdjustableRobust.Proofs.Conic.Values
import AdjustableRobust.Proofs.Keeping
import AdjustableRobust.Solver.Replay
import AdjustableRobust.Solver.Lifecycle
import Mathlib.Data.List.GetD

/-!
# What a solve does to the model

A solve stores values in the conic model it works on, or drops those of the solve before. It touches
nothing else, whatever the backend answers and wherever the solve fails: what is left when the
values are dropped stays the same.
-/

namespace AdjustableRobust

variable {bare : ConicModel ℝ}

namespace ConicModel

/-- Dropping values keeps the handles. -/
theorem handles_dropSolution (m : ConicModel ℝ) : m.dropSolution.vars.handles = m.vars.handles := by
  simp [dropSolution, Store.mapItems, Store.handles, Store.size, Store.handleFor]

/-- Models that differ in values only have the same handles. -/
theorem handles_congr {m m' : ConicModel ℝ} (h : m'.dropSolution = m.dropSolution) :
    m'.vars.handles = m.vars.handles := by
  rw [← handles_dropSolution, h, handles_dropSolution]

/-- Dropping values once is enough. -/
theorem dropSolution_dropSolution (m : ConicModel ℝ) :
    m.dropSolution.dropSolution = m.dropSolution := by
  simp [dropSolution, Store.mapItems, Function.comp_def, ConicVariable.dropValue,
    Objective.dropValue, Constraint.dropDual]

private theorem map_dropValue_evaluateObjectives (xs : List ℝ) (os : List (ConicObjective ℝ)) :
    (evaluateObjectives xs os).2.map (·.dropValue) = os.map (·.dropValue) := by
  induction os with
  | nil => rfl
  | cons o os ih =>
    rw [evaluateObjectives]
    cases o.expression.value (.ofList xs) with
    | error e => rfl
    | ok x => exact congrArg (o.dropValue :: ·) ih

private theorem map_zipWith_of_left {α β γ : Type} {f : α → β → α} {g : α → γ}
    (h : ∀ a b, g (f a b) = g a) {as : List α} {bs : List β} (hlength : bs.length = as.length) :
    (List.zipWith f as bs).map g = as.map g := by
  refine List.ext_getElem (by simp [hlength]) fun i hi hi' => ?_
  simp [h]

/-- Storing values changes values only. -/
theorem keeps_setSolution (xs : List ℝ) :
    Step.Keeps (fun m : ConicModel ℝ => m.dropSolution = bare) (setSolution xs) := by
  refine .bind_get fun m hm => ?_
  dsimp only
  split
  · exact .throw
  · next hlength =>
    refine .bind (.set ?_) fun _ => .ofExcept
    have hitems : (List.zipWith ConicVariable.setValue m.vars.items xs).map (·.dropValue) =
        m.vars.items.map (·.dropValue) :=
      map_zipWith_of_left (f := ConicVariable.setValue) (fun _ _ => rfl) (not_not.1 hlength)
    rw [← hm]
    simp only [dropSolution, Store.mapItems, hitems, map_dropValue_evaluateObjectives]

private theorem evaluateObjectives_eq_ok (xs : List ℝ) {os : List (ConicObjective ℝ)}
    (hos : ∀ o ∈ os, ∀ v ∈ o.expression.vars, v.slot < xs.length) :
    ∃ os', evaluateObjectives xs os = (.ok (), os') := by
  induction os with
  | nil => exact ⟨[], rfl⟩
  | cons o os ih =>
    obtain ⟨ho, hos⟩ := List.forall_mem_cons.1 hos
    obtain ⟨os', hos'⟩ := ih hos
    have hvalue := (AffineExpr.value_eq_ok_iff (Assignment.ofList_within xs)).2
      ⟨fun v hv => Assignment.ofList_eq_bySlot_iff.2 (ho v hv), rfl⟩
    exact ⟨_, by rw [evaluateObjectives, hvalue, hos']⟩

/-- Values for all variables are stored when the objectives are in variables of the model. -/
theorem setSolution_eq_ok {m : ConicModel ℝ} (xs : List ℝ) (hxs : xs.length = m.numVariables)
    (hos : ∀ o ∈ m.objectives, ∀ v ∈ o.expression.vars, v.slot < m.numVariables) :
    ∃ m', setSolution xs m = .ok () m' ∧ m'.solutionValues = .ok xs := by
  obtain ⟨os', hos'⟩ := evaluateObjectives_eq_ok xs (hxs ▸ hos)
  refine ⟨{ m with vars := { m.vars with items := m.vars.items.zipWith ConicVariable.setValue xs },
                   objectives := os' }, ?_, ?_⟩
  · simp only [setSolution, Step.bind_eq_ok_iff, Step.get_eq_ok_iff]
    refine ⟨m, m, ⟨rfl, rfl⟩, ?_⟩
    rw [if_neg (not_not.2 hxs), hos']
    rfl
  · rw [solutionValues, mapM_eq_ok_iff, List.forall₂_iff_get]
    have hitems : xs.length = m.vars.items.length := hxs
    refine ⟨by simp [hitems], fun i hi hi' => ?_⟩
    simp [ConicVariable.setValue, ConicVariable.value]

/-- Storing duals changes duals only. -/
theorem keeps_setConstraintDuals (xs : List ℝ) :
    Step.Keeps (fun m : ConicModel ℝ => m.dropSolution = bare) (setConstraintDuals xs) := by
  refine .bind_get fun m hm => ?_
  dsimp only
  split
  · exact .throw
  · next hlength =>
    refine .set ?_
    have hconstraints : (List.zipWith Constraint.setDual m.constraints xs).map (·.dropDual) =
        m.constraints.map (·.dropDual) :=
      map_zipWith_of_left (f := Constraint.setDual) (fun _ _ => rfl) (not_not.1 hlength)
    rw [← hm]
    simp only [dropSolution, hconstraints]

/-- In a model with values for all variables every handle of the model has its value. -/
theorem assignment_eq_ok {m : ConicModel ℝ} {xs : List ℝ}
    (hvalues : m.solutionValues = .ok xs) {h : ConicRef} (hh : h ∈ m.vars.handles) :
    m.assignment h = .ok (bySlot (entryAt xs) h) := by
  obtain ⟨i, hi, rfl⟩ := List.mem_map.1 hh
  have hlt : i < m.vars.items.length := List.mem_range.1 hi
  rw [solutionValues, mapM_eq_ok_iff] at hvalues
  have hvalue := hvalues.get hlt (hvalues.length_eq ▸ hlt)
  refine bind_eq_ok_iff.2 ⟨m.vars.items[i], ?_, ?_⟩
  · exact liftM_eq_ok_iff.2 ((Store.get_eq_ok_iff _ _ _).2 ⟨rfl, rfl, List.getElem?_eq_getElem hlt⟩)
  · rw [List.get_eq_getElem, List.get_eq_getElem] at hvalue
    rw [hvalue, bySlot, entryAt, List.getD_eq_getElem]
    rfl

/-- The stored values are found only where there are some. -/
theorem assignment_within {m : ConicModel ℝ} {xs : List ℝ}
    (hvalues : m.solutionValues = .ok xs) : m.assignment.Within (bySlot (entryAt xs)) := by
  intro h x hx
  obtain ⟨v, hv, hx'⟩ := bind_eq_ok_iff.1 hx
  obtain ⟨howner, hepoch, hitem⟩ := (Store.get_eq_ok_iff _ _ _).1 (liftM_eq_ok_iff.1 hv)
  have hh : h ∈ m.vars.handles := List.mem_map.2
    ⟨h.slot, List.mem_range.2 (List.getElem?_eq_some_iff.1 hitem).1, by
      rw [Store.handleFor, ← howner, ← hepoch]⟩
  exact Except.ok.inj (hx.symm.trans (assignment_eq_ok hvalues hh))

end ConicModel

/-- After an optimal solve with values for all variables every handle of the model has its value. -/
theorem ConicSolver.value_eq_ok {β : Type} {s : ConicSolver ℝ β} {m : ConicModel ℝ} {xs : List ℝ}
    (hsolution : s.hasSolution = true) (hvalues : m.solutionValues = .ok xs) {h : ConicRef}
    (hh : h ∈ m.vars.handles) : s.value m h = .ok (bySlot (entryAt xs) h) := by
  have hvalue := ConicModel.assignment_eq_ok hvalues hh
  rw [value, hsolution]
  simp only [Bool.not_true, Bool.false_eq_true, ite_false, hvalue]
  rfl

namespace SolverRun

variable {β γ : Type}

/-- Acting on the solver keeps the model. -/
theorem keeps_onSolver (x : Step (ConicSolver ℝ β) (SolverError ℝ) γ) :
    Step.Keeps (fun r : SolverRun ℝ β => r.model.dropSolution = bare) (onSolver x) :=
  .focus fun _ _ h => h

/-- Acting on the model changes values only when the action does. -/
theorem keeps_onModel {x : Step (ConicModel ℝ) (ModelError ℝ) γ}
    (hx : Step.Keeps (fun m : ConicModel ℝ => m.dropSolution = bare) x) :
    Step.Keeps (fun r : SolverRun ℝ β => r.model.dropSolution = bare) (onModel x) :=
  .focus_part hx (fun _ h => h) fun _ _ _ h => h

/-- Storing a reported solution changes values only. -/
theorem keeps_store (solution : ProblemSolution ℝ) :
    Step.Keeps (fun r : SolverRun ℝ β => r.model.dropSolution = bare) (store solution) := by
  rw [store]
  split
  · exact .pure
  · refine .bind (keeps_onModel (ConicModel.keeps_setSolution _)) fun _ =>
      .bind (.modify fun _ h => h) fun _ => .bind_get fun r _ => ?_
    dsimp only
    split
    · split
      · exact keeps_onModel (ConicModel.keeps_setConstraintDuals _)
      · exact .pure
    · exact .pure

variable [ConicBackend ℝ β]

/-- Make the backend know the model. -/
noncomputable def prepare : Step (SolverRun ℝ β) (SolverError ℝ) Unit := do
  let r ← get
  if r.solver.isBuilt then onSolver (ConicSolver.onBackend (ConicBackend.update r.model))
  else onSolver (ConicSolver.build r.model)

/-- Have the backend solve what it knows, and store the outcome. -/
noncomputable def conclude : Step (SolverRun ℝ β) (SolverError ℝ) OptimizationStatus := do
  modify fun r =>
    { solver := { r.solver with objective? := none }, model := r.model.dropSolution }
  let solution ← onSolver do
    ConicSolver.onBackend (ConicBackend.solve (← get).settings)
  modify fun r => { r with solver := { r.solver with runtime? := some solution.runtime } }
  if solution.status = .optimal then store solution
  modify fun r => { r with solver := { r.solver with state := .solved solution.status } }
  return solution.status

/-- A solve first makes the backend know the model. -/
theorem solve_eq : solve (α := ℝ) (β := β) = prepare >>= fun _ => conclude := by
  funext r
  change (if r.solver.isBuilt then _ else _ : Step (SolverRun ℝ β) (SolverError ℝ) _) r =
    ((if r.solver.isBuilt then _ else _ : Step (SolverRun ℝ β) (SolverError ℝ) Unit) >>= _) r
  split <;> rfl

/-- Making the model known changes nothing. -/
theorem keeps_prepare :
    Step.Keeps (fun r : SolverRun ℝ β => r.model.dropSolution = bare) prepare := by
  refine .bind_get fun r _ => ?_
  split
  · exact keeps_onSolver _
  · exact keeps_onSolver _

/-- Storing the outcome changes values only. -/
theorem keeps_conclude :
    Step.Keeps (fun r : SolverRun ℝ β => r.model.dropSolution = bare) conclude := by
  refine .bind (.modify fun r h => (r.model.dropSolution_dropSolution).trans h) fun _ =>
    .bind (keeps_onSolver _) fun solution => .bind (.modify fun _ h => h) fun _ => ?_
  exact .before (keeps_store solution) (.bind (.modify fun _ h => h) fun _ => .pure)

/-- A solve changes values only. -/
theorem keeps_solve :
    Step.Keeps (fun r : SolverRun ℝ β => r.model.dropSolution = bare) solve := by
  rw [solve_eq]
  exact .bind keeps_prepare fun _ => keeps_conclude

/-- A solve that ends with an outcome leaves the solver there. -/
theorem state_of_solve {r r' : SolverRun ℝ β} {status : OptimizationStatus}
    (hrun : solve r = .ok status r') : r'.solver.state = .solved status := by
  rw [solve_eq, Step.bind_eq_ok_iff] at hrun
  obtain ⟨_, r₁, -, hrun⟩ := hrun
  obtain ⟨_, _, -, hrun⟩ := Step.bind_eq_ok_iff.1 hrun
  obtain ⟨solution, _, -, hrun⟩ := Step.bind_eq_ok_iff.1 hrun
  obtain ⟨_, r₂, -, hrun⟩ := Step.bind_eq_ok_iff.1 hrun
  have hend : ∀ r₃, (do
      modify fun r => { r with solver := { r.solver with state := .solved solution.status } }
      return solution.status : Step (SolverRun ℝ β) (SolverError ℝ) _) r₃ = .ok status r' →
        r'.solver.state = .solved status := by
    intro r₃ h
    obtain ⟨_, _, hmodify, hreturn⟩ := Step.bind_eq_ok_iff.1 h
    obtain ⟨rfl, rfl⟩ := Step.pure_eq_ok_iff.1 hreturn
    rw [← Step.modify_eq_ok_iff.1 hmodify]
  dsimp only at hrun
  split at hrun
  · obtain ⟨_, r₃, -, hrun⟩ := Step.bind_eq_ok_iff.1 hrun
    exact hend r₃ hrun
  · exact hend r₂ hrun

private theorem store_eq_ok {r : SolverRun ℝ (Replay ℝ)} (solution : ProblemSolution ℝ)
    {xs : List ℝ}
    {m : ConicModel ℝ} (hvalues : solution.values? = some xs) (hduals : solution.duals? = none)
    (hm : ConicModel.setSolution xs r.model = .ok () m) :
    ∃ r', store solution r = .ok () r' ∧ r'.model = m := by
  refine ⟨⟨{ r.solver with objective? := solution.objective? }, m⟩, ?_, rfl⟩
  simp only [store, hvalues, hduals, Step.bind_eq_ok_iff, Step.get_eq_ok_iff]
  refine ⟨(), _, Step.focus_eq_ok hm, (), _, rfl, _, _, ⟨rfl, rfl⟩, ?_⟩
  split <;> rfl

/-- A recorded optimum is stored by the first solve. -/
theorem solve_recorded {r : SolverRun ℝ (Replay ℝ)} {objective? : Option ℝ} {values : ℕ → List ℝ}
    {runtime : ℝ} {answers : List (RecordedAnswer ℝ)} (hstate : r.solver.state = .unbuilt)
    (hanswers : r.solver.backend.answers =
      .solution .optimal objective? (some values) none runtime :: answers)
    (hlength : (values r.model.numVariables).length = r.model.numVariables)
    (hobjectives : ∀ o ∈ r.model.objectives, ∀ v ∈ o.expression.vars,
      v.slot < r.model.numVariables) :
    ∃ r', solve r = .ok .optimal r' ∧
      r'.model.solutionValues = .ok (values r.model.numVariables) := by
  obtain ⟨⟨⟨_, log, vars, constraints⟩, settings, _, runtime?, objective?'⟩, m⟩ := r
  obtain rfl := hstate
  obtain rfl := hanswers
  dsimp only at hlength hobjectives
  have hsize : m.dropSolution.numVariables = m.numVariables := by
    simp [ConicModel.numVariables, ConicModel.dropSolution, Store.mapItems, Store.size]
  obtain ⟨m', hm', hvalues⟩ := ConicModel.setSolution_eq_ok (m := m.dropSolution)
    (values m.numVariables) (by rw [hlength, hsize]) (by
      rw [hsize, ConicModel.dropSolution, List.forall_mem_map]
      exact hobjectives)
  obtain ⟨r', hstore, hr'⟩ := store_eq_ok (r := ⟨⟨⟨answers, (log ++ [.build m.name m.numVariables
    m.constraints.length]) ++ [.solve settings], m.numVariables, m.constraints.length⟩, settings,
      .built, some runtime, none⟩, m.dropSolution⟩)
    ⟨.optimal, objective?, some (values m.numVariables), none, runtime⟩ rfl rfl hm'
  refine ⟨{ r' with solver := { r'.solver with state := .solved .optimal } }, ?_, hr' ▸ hvalues⟩
  rw [solve_eq]
  refine Step.bind_eq_ok_iff.2 ⟨(), _, rfl, Step.bind_eq_ok_iff.2 ⟨(), _, rfl,
    Step.bind_eq_ok_iff.2 ⟨_, _, rfl, Step.bind_eq_ok_iff.2 ⟨(), _, rfl, ?_⟩⟩⟩⟩
  exact Step.bind_eq_ok_iff.2 ⟨(), r', hstore, rfl⟩

end SolverRun

end AdjustableRobust
