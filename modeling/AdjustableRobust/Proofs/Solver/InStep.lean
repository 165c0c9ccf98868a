import AdjustableRobust.Proofs.Conic.Storing
import AdjustableRobust.Proofs.Solver.Lifecycle

/-!
# Solver and model in step

A solver records the outcome of a solve, the model holds the values that it delivered. The two are
changed at different points of a solve, and a solve may fail between them. Whatever was asked of a
solver and whatever its backend answered, the model holds what the latest solve that came to the
backend delivered, and nothing older. The record agrees with it exactly when that solve recorded an
optimum if and only if it delivered one; a solve that fails records nothing, so the outcome recorded
before it stays.
-/

namespace AdjustableRobust

namespace ConicModel

/-- No variable and no objective has a value, and no constraint a dual. -/
structure HoldsNothing (m : ConicModel ℝ) : Prop where
  vars : ∀ v ∈ m.vars.items, v.value? = none
  objectives : ∀ o ∈ m.objectives, o.value? = none
  constraints : ∀ c ∈ m.constraints, c.dual? = none

/-- The model holds the given values of all variables, or nothing. -/
def Holds (m : ConicModel ℝ) : Option (List ℝ) → Prop
  | none => m.HoldsNothing
  | some xs => m.solutionValues = .ok xs

/-- Dropping the solution leaves nothing. -/
theorem holdsNothing_dropSolution (m : ConicModel ℝ) : m.dropSolution.HoldsNothing := by
  refine ⟨?_, ?_, ?_⟩
  · simp [dropSolution, Store.mapItems, ConicVariable.dropValue]
  · simp [dropSolution, Objective.dropValue]
  · simp [dropSolution, Constraint.dropDual]

/-- The number of variables is that of their handles. -/
theorem numVariables_congr {m m' : ConicModel ℝ} (h : m'.vars.handles = m.vars.handles) :
    m'.numVariables = m.numVariables := by
  simpa [Store.handles, numVariables] using congrArg List.length h

/-- A model with a variable does not hold both values and nothing. -/
theorem HoldsNothing.solutionValues_ne {m : ConicModel ℝ} (h : m.HoldsNothing)
    (hpositive : 0 < m.numVariables) (xs : List ℝ) : m.solutionValues ≠ .ok xs := by
  intro hvalues
  rw [solutionValues, mapM_eq_ok_iff] at hvalues
  have hvalue := hvalues.get hpositive (hvalues.length_eq ▸ hpositive)
  rw [List.get_eq_getElem, ConicVariable.value, h.vars _ (List.getElem_mem _)] at hvalue
  cases hvalue

/-- One value for each variable is stored, also when an objective cannot be evaluated. -/
theorem solutionValues_setSolution {m : ConicModel ℝ} {xs : List ℝ}
    (hxs : xs.length = m.numVariables) :
    ((setSolution xs).perform m).2.solutionValues = .ok xs := by
  have hlength : xs.length = m.vars.items.length := hxs
  rw [perform_setSolution hxs, solutionValues, mapM_eq_ok_iff, List.forall₂_iff_get]
  refine ⟨by simp [withValues, hlength], fun i hi hi' => ?_⟩
  simp [withValues, ConicVariable.setValue, ConicVariable.value]

/-- Storing duals keeps the values. -/
theorem keeps_solutionValues (ys xs : List ℝ) :
    Step.Keeps (fun m : ConicModel ℝ => m.solutionValues = .ok xs) (setConstraintDuals ys) :=
  .bind_get fun _ hm => .check <| .set hm

end ConicModel

namespace SolverRun

variable {β : Type}

/-! ## Storing what a backend reports -/

/-- Storing a report leaves the record alone. -/
theorem keeps_state_store (solution : ProblemSolution ℝ) (state : SolverState) :
    Step.Keeps (fun r : SolverRun ℝ β => r.solver.state = state) (store solution) := by
  rw [store]
  split
  · exact .pure
  · refine .bind (.focus fun _ _ h => h) fun _ => .bind (.modify fun _ h => h) fun _ =>
      .bind_get fun r _ => ?_
    dsimp only
    split
    · split
      · exact .focus fun _ _ h => h
      · exact .pure
    · exact .pure

/-- Without values nothing is stored. -/
theorem store_of_none {solution : ProblemSolution ℝ} (h : solution.values? = none)
    (r : SolverRun ℝ β) : (store solution).perform r = (.ok (), r) := by
  rw [store, h]
  rfl

/-- One value for each variable is stored, even if the rest of the report is refused. -/
theorem solutionValues_store {solution : ProblemSolution ℝ} {xs : List ℝ}
    (h : solution.values? = some xs) {r : SolverRun ℝ β} (hxs : xs.length = r.model.numVariables) :
    ((store solution).perform r).2.model.solutionValues = .ok xs := by
  rw [store, h]
  refine Step.Keeps.bind_of_perform (I := fun r : SolverRun ℝ β => r.model.solutionValues = .ok xs)
    ?_ fun _ => .bind (.modify fun _ h => h) fun _ => .bind_get fun r _ => ?_
  · rw [onModel, Step.perform_focus]
    exact ConicModel.solutionValues_setSolution hxs
  · dsimp only
    split
    · split
      · exact .focus_part (ConicModel.keeps_solutionValues _ xs) (fun _ h => h) fun _ _ _ h => h
      · exact .pure
    · exact .pure

/-- A wrong number of values is refused, and nothing is stored. -/
theorem store_of_length_ne {solution : ProblemSolution ℝ} {xs : List ℝ}
    (h : solution.values? = some xs) {r : SolverRun ℝ β} (hxs : xs.length ≠ r.model.numVariables) :
    (store solution).perform r =
      (.error (.model (.realizationDimension r.model.numVariables xs.length)), r) := by
  rw [store, h]
  dsimp only
  rw [Step.perform_bind, onModel, Step.perform_focus, ConicModel.perform_setSolution_of_ne hxs]
  rfl

/-- The values that a report delivers to a model with the given number of variables: an optimum with
one value for each of them. -/
noncomputable def delivered? (n : ℕ) :
    Except (SolverError ℝ) (ProblemSolution ℝ) → Option (List ℝ)
  | .ok s => if s.status = .optimal then s.values?.filter (·.length = n) else none
  | .error _ => none

/-- Store what the backend reports and record the outcome. -/
noncomputable def record (solution : ProblemSolution ℝ) :
    Step (SolverRun ℝ β) (SolverError ℝ) OptimizationStatus := do
  if solution.status = .optimal then store solution
  modify fun r => { r with solver := { r.solver with state := .solved solution.status } }
  return solution.status

/-- A model that holds nothing holds what a reported optimum delivers once that is stored. -/
theorem holds_store {s : ProblemSolution ℝ} (hs : s.status = .optimal) {r : SolverRun ℝ β}
    (hr : r.model.HoldsNothing) :
    ((store s).perform r).2.model.Holds (delivered? r.model.numVariables (.ok s)) := by
  rw [delivered?, if_pos hs]
  cases hvalues : s.values? with
  | none =>
    rw [store_of_none hvalues]
    exact hr
  | some xs =>
    by_cases hxs : xs.length = r.model.numVariables
    · rw [Option.filter_some, if_pos (decide_eq_true hxs)]
      exact solutionValues_store hvalues hxs
    · rw [Option.filter_some, if_neg (by simpa using hxs), store_of_length_ne hvalues hxs]
      exact hr

/-- The outcome of a report is recorded unless storing it fails. -/
theorem record_spec (s : ProblemSolution ℝ) {r : SolverRun ℝ β} (hr : r.model.HoldsNothing) :
    ((record s).perform r).2.model.Holds (delivered? r.model.numVariables (.ok s)) ∧
      match ((record s).perform r).1 with
      | .ok status => ((record s).perform r).2.solver.state = .solved status
      | .error _ => ((record s).perform r).2.solver.state = r.solver.state := by
  by_cases hs : s.status = .optimal
  · have hmodel := holds_store hs hr
    have hstate := keeps_state_store (β := β) s r.solver.state r rfl
    rw [record, if_pos hs, Step.perform_bind]
    cases hstore : (store s).perform r with
    | mk result t =>
      rw [hstore] at hmodel hstate
      cases result with
      | error e => exact ⟨hmodel, hstate⟩
      | ok u => exact ⟨hmodel, rfl⟩
  · rw [record, if_neg hs, delivered?, if_neg hs]
    exact ⟨hr, rfl⟩

/-! ## Solving -/

/-- Acting on the solver changes no more than the action does. -/
theorem keeps_record_onSolver {γ : Type} {m : ConicModel ℝ} {recorded : Bool}
    {x : Step (ConicSolver ℝ β) (SolverError ℝ) γ}
    (hx : Step.Keeps (fun s : ConicSolver ℝ β => s.hasSolution = recorded) x) :
    Step.Keeps (fun r : SolverRun ℝ β => r.model = m ∧ r.solver.hasSolution = recorded)
      (onSolver x) :=
  .focus_part hx (fun _ h => h.2) fun _ _ h h' => ⟨h.1, h'⟩

variable [ConicBackend ℝ β]

/-- Building a model records no optimum and forgets none. -/
theorem keeps_hasSolution_build (m : ConicModel ℝ) (recorded : Bool) :
    Step.Keeps (fun s : ConicSolver ℝ β => s.hasSolution = recorded) (ConicSolver.build m) := by
  refine .bind_get fun s hs => ?_
  by_cases hbuilt : s.isBuilt = true
  · rw [if_pos hbuilt]
    exact fun _ h => h
  · have hunbuilt : s.state = .unbuilt := by simpa [ConicSolver.isBuilt] using hbuilt
    have hnone : recorded = false := by
      rw [← hs, ConicSolver.hasSolution, ConicSolver.status, hunbuilt]
      rfl
    rw [if_neg hbuilt, hnone]
    exact .bind (.focus fun _ _ h => h) fun _ => .modify fun _ _ => rfl

/-- Making the model known to the backend changes neither the model nor whether an optimum is
recorded. -/
theorem keeps_record_prepare (m : ConicModel ℝ) (recorded : Bool) :
    Step.Keeps (fun r : SolverRun ℝ β => r.model = m ∧ r.solver.hasSolution = recorded)
      prepare := by
  refine .bind_get fun r _ => ?_
  split
  · exact keeps_record_onSolver (.focus fun _ _ h => h)
  · exact keeps_record_onSolver (keeps_hasSolution_build _ _)

/-- What the backend reports when it is asked to solve. -/
noncomputable def report (r : SolverRun ℝ β) : Except (SolverError ℝ) (ProblemSolution ℝ) :=
  ((ConicBackend.solve r.solver.settings).perform r.solver.backend).1

/-- The previous solution is dropped before the backend is asked; its report is recorded. -/
theorem perform_conclude (r : SolverRun ℝ β) :
    conclude.perform r = match (ConicBackend.solve r.solver.settings).perform r.solver.backend with
      | (.error e, b) =>
        (.error e, ⟨{ r.solver with backend := b, objective? := none }, r.model.dropSolution⟩)
      | (.ok s, b) => (record s).perform
        ⟨{ r.solver with backend := b, objective? := none, runtime? := some s.runtime },
          r.model.dropSolution⟩ := by
  simp only [conclude, Step.perform_bind, Step.perform_modify, Step.perform_get, onSolver,
    ConicSolver.onBackend, Step.perform_focus]
  cases (ConicBackend.solve r.solver.settings).perform r.solver.backend with
  | mk x b => cases x <;> rfl

/-- Once the backend has been asked, the model holds what it delivered. The outcome is recorded if
the solve ends with it, and the record stays if the solve fails. -/
theorem conclude_spec (r : SolverRun ℝ β) :
    (conclude.perform r).2.model.Holds (delivered? r.model.numVariables r.report) ∧
      match (conclude.perform r).1 with
      | .ok status => (conclude.perform r).2.solver.state = .solved status
      | .error _ => (conclude.perform r).2.solver.state = r.solver.state := by
  have hdropped := r.model.holdsNothing_dropSolution
  rw [perform_conclude, report]
  cases (ConicBackend.solve r.solver.settings).perform r.solver.backend with
  | mk x b =>
    cases x with
    | error e => exact ⟨hdropped, rfl⟩
    | ok s =>
      rw [← ConicModel.numVariables_congr r.model.handles_dropSolution]
      exact record_spec s hdropped

/-! ## Sequences of calls -/

/-- What may be asked of a solver. -/
inductive Call where
  | build
  | solve

/-- A solve that came to the backend. -/
structure Attempt where
  report : Except (SolverError ℝ) (ProblemSolution ℝ)
  ending : Except (SolverError ℝ) OptimizationStatus
  /-- Whether an optimum was recorded before. -/
  before : Bool

/-- An optimum is recorded after the attempt: it ended with one, or it failed and one was recorded
before. -/
def Attempt.Records (a : Attempt) : Prop :=
  match a.ending with
  | .ok status => status = .optimal
  | .error _ => a.before = true

/-- The attempt of a solve, which does not come about when the backend does not accept the model. -/
noncomputable def attempt? (r : SolverRun ℝ β) : Option Attempt :=
  match prepare.perform r with
  | (.error _, _) => none
  | (.ok _, r') => some ⟨r'.report, (solve.perform r).1, r.solver.hasSolution⟩

/-- The state after a call, also if it failed, next to the latest attempt. -/
noncomputable def respond (p : SolverRun ℝ β × Option Attempt) :
    Call → SolverRun ℝ β × Option Attempt
  | .build => (((onSolver (ConicSolver.build p.1.model)).perform p.1).2, p.2)
  | .solve => ((solve.perform p.1).2, p.1.attempt?.or p.2)

/-- The state after a sequence of calls, next to the latest attempt. -/
noncomputable def after (r : SolverRun ℝ β) (calls : List Call) : SolverRun ℝ β × Option Attempt :=
  calls.foldl respond (r, none)

/-- The model holds what the latest attempt delivered, and the record is what it left. Before the
first attempt the model is the one that was handed over, and no optimum is recorded. -/
structure Tracks (m : ConicModel ℝ) (p : SolverRun ℝ β × Option Attempt) : Prop where
  handles : p.1.model.vars.handles = m.vars.handles
  untouched : p.2 = none → p.1.model = m ∧ p.1.solver.hasSolution = false
  holds : ∀ a, p.2 = some a → p.1.model.Holds (delivered? m.numVariables a.report)
  records : ∀ a, p.2 = some a → (p.1.solver.hasSolution = true ↔ a.Records)

/-- The record agrees with what the model holds: where an optimum is recorded, every variable has
the value that the latest attempt delivered, and where none is recorded, the model holds nothing, or
is untouched if there was no attempt. -/
structure InStep (m : ConicModel ℝ) (p : SolverRun ℝ β × Option Attempt) : Prop where
  values : p.1.solver.hasSolution = true → ∃ a xs, p.2 = some a ∧
    delivered? m.numVariables a.report = some xs ∧
      ∀ h ∈ p.1.model.vars.handles, p.1.solver.value p.1.model h = .ok (bySlot (entryAt xs) h)
  nothing : p.1.solver.hasSolution = false →
    p.1.model.HoldsNothing ∨ p.2 = none ∧ p.1.model = m

/-- Solving comes to an attempt once the model is known to the backend. -/
theorem perform_solve (r : SolverRun ℝ β) :
    (attempt? r = none ∧ (solve.perform r).2.model = r.model ∧
      (solve.perform r).2.solver.hasSolution = r.solver.hasSolution) ∨
    ∃ r', r'.model = r.model ∧ r'.solver.hasSolution = r.solver.hasSolution ∧
      solve.perform r = conclude.perform r' ∧
        attempt? r = some ⟨r'.report, (conclude.perform r').1, r.solver.hasSolution⟩ := by
  have hkept := keeps_record_prepare r.model r.solver.hasSolution r ⟨rfl, rfl⟩
  have hsolve : solve.perform r = (prepare >>= fun _ => conclude).perform r := by rw [solve_eq]
  rw [Step.perform_bind] at hsolve
  rw [attempt?, hsolve]
  cases hprepare : prepare.perform r with
  | mk result r' =>
    rw [hprepare] at hkept
    cases result with
    | error e => exact .inl ⟨rfl, hkept⟩
    | ok u => exact .inr ⟨r', hkept.1, hkept.2, rfl, rfl⟩

omit [ConicBackend ℝ β] in
private theorem Tracks.of_kept {m : ConicModel ℝ} {p p' : SolverRun ℝ β × Option Attempt}
    (h : Tracks m p) (hmodel : p'.1.model = p.1.model)
    (hrecord : p'.1.solver.hasSolution = p.1.solver.hasSolution) (hlast : p'.2 = p.2) :
    Tracks m p' := by
  refine ⟨by rw [hmodel, h.handles], fun hnone => ?_, fun a ha => ?_, fun a ha => ?_⟩
  · rw [hmodel, hrecord]
    exact h.untouched (hlast ▸ hnone)
  · rw [hmodel]
    exact h.holds a (hlast ▸ ha)
  · rw [hrecord]
    exact h.records a (hlast ▸ ha)

private theorem tracks_conclude {m : ConicModel ℝ} {r : SolverRun ℝ β} {recorded : Bool}
    (hhandles : r.model.vars.handles = m.vars.handles)
    (hrecord : r.solver.hasSolution = recorded) :
    Tracks m ((conclude.perform r).2, some ⟨r.report, (conclude.perform r).1, recorded⟩) := by
  have hsize : r.model.numVariables = m.numVariables := ConicModel.numVariables_congr hhandles
  have hkept := ConicModel.handles_congr (keeps_conclude r rfl)
  obtain ⟨hholds, hstate⟩ := conclude_spec r
  refine ⟨hkept.trans hhandles, nofun, fun a ha => ?_, fun a ha => ?_⟩
  · obtain rfl := Option.some.inj ha
    exact hsize ▸ hholds
  · obtain rfl := Option.some.inj ha
    rw [Attempt.Records]
    cases hending : (conclude.perform r).1 with
    | ok status =>
      rw [hending] at hstate
      simp [ConicSolver.hasSolution, ConicSolver.status, hstate]
    | error e =>
      rw [hending] at hstate
      dsimp only at hstate ⊢
      rw [← hrecord, ConicSolver.hasSolution, ConicSolver.status, hstate]
      rfl

/-- A call leaves the model with what the latest attempt delivered. -/
theorem Tracks.respond {m : ConicModel ℝ} {p : SolverRun ℝ β × Option Attempt} (h : Tracks m p)
    (call : Call) : Tracks m (respond p call) := by
  obtain ⟨r, last⟩ := p
  cases call with
  | build =>
    obtain ⟨hmodel, hrecord⟩ := keeps_record_onSolver (keeps_hasSolution_build r.model
      r.solver.hasSolution) (m := r.model) r ⟨rfl, rfl⟩
    exact h.of_kept hmodel hrecord rfl
  | solve =>
    rcases perform_solve r with ⟨hnone, hmodel, hrecord⟩ | ⟨r', hmodel, hrecord, hsolve, hattempt⟩
    · exact h.of_kept hmodel hrecord (by rw [SolverRun.respond, hnone, Option.none_or])
    · rw [SolverRun.respond, hattempt, Option.some_or, hsolve]
      exact tracks_conclude ((congrArg (·.vars.handles) hmodel).trans h.handles) hrecord

/-- Whatever was asked, the model holds what the latest attempt delivered. -/
theorem tracks_after {r : SolverRun ℝ β} (hstart : r.solver.state = .unbuilt) (calls : List Call) :
    Tracks r.model (after r calls) := by
  induction calls using List.reverseRecOn with
  | nil =>
    refine ⟨rfl, fun _ => ⟨rfl, ?_⟩, fun a ha => (Option.some_ne_none a ha.symm).elim,
      fun a ha => (Option.some_ne_none a ha.symm).elim⟩
    simp [after, ConicSolver.hasSolution, ConicSolver.status, hstart]
  | append_singleton calls call ih =>
    rw [after, List.foldl_concat]
    exact ih.respond call

/-- Whatever was asked of a solver and whatever its backend answered, solver and model are in step
exactly when the latest solve that came to the backend recorded an optimum if and only if it
delivered one. -/
theorem inStep_iff {r : SolverRun ℝ β} (hstart : r.solver.state = .unbuilt)
    (hpositive : 0 < r.model.numVariables) (calls : List Call) :
    InStep r.model (after r calls) ↔ ∀ a, (after r calls).2 = some a →
      (a.Records ↔ ∃ xs, delivered? r.model.numVariables a.report = some xs) := by
  have htracks := tracks_after hstart calls
  cases hlast : (after r calls).2 with
  | none =>
    obtain ⟨hmodel, hrecord⟩ := htracks.untouched hlast
    exact iff_of_true ⟨fun h => absurd (hrecord.symm.trans h) Bool.false_ne_true,
      fun _ => .inr ⟨hlast, hmodel⟩⟩ fun a ha => nomatch ha
  | some a =>
    have hholds := htracks.holds a hlast
    have hrecords := htracks.records a hlast
    constructor
    · rintro ⟨hvalues, hnothing⟩ a' ha'
      obtain rfl := Option.some.inj ha'
      constructor
      · intro h
        obtain ⟨a', xs, ha', hxs, -⟩ := hvalues (hrecords.2 h)
        obtain rfl := Option.some.inj (hlast.symm.trans ha')
        exact ⟨xs, hxs⟩
      · rintro ⟨xs, hxs⟩
        by_contra hnot
        rw [← hrecords, Bool.not_eq_true] at hnot
        rw [hxs] at hholds
        rcases hnothing hnot with h | h
        · refine h.solutionValues_ne ?_ xs hholds
          rwa [ConicModel.numVariables_congr htracks.handles]
        · rw [hlast] at h
          cases h.1
    · intro hagree
      refine ⟨fun h => ?_, fun h => .inl ?_⟩
      · obtain ⟨xs, hxs⟩ := (hagree a rfl).1 (hrecords.1 h)
        rw [hxs] at hholds
        exact ⟨a, xs, hlast, hxs, fun x hx => ConicSolver.value_eq_ok h hholds hx⟩
      · cases hdelivered : delivered? r.model.numVariables a.report with
        | none =>
          rw [hdelivered] at hholds
          exact hholds
        | some xs =>
          rw [hrecords.2 ((hagree a rfl).2 ⟨xs, hdelivered⟩)] at h
          cases h

/-- A model of one variable whose solver finds an optimum once and fails after that. -/
noncomputable def refused : SolverRun ℝ (Replay ℝ) where
  solver := .new (.new [.solution .optimal none (some fun n => List.replicate n 1) none 0,
    .failure "out of answers"]) ⟨none, none, false, 0, 0⟩
  model := ⟨"single", ⟨⟨0⟩, 0, [⟨"x", .free, .continuous, none, none⟩]⟩, [], [], []⟩

/-- A model that the backend refuses to build stays in step with its solver. -/
theorem inStep_iff_refused : refused.solver.state = .unbuilt ∧ 0 < refused.model.numVariables ∧
    InStep refused.model (after refused [.build, .solve]) := by
  refine ⟨rfl, Nat.one_pos, (inStep_iff (r := refused) rfl Nat.one_pos _).2 fun a ha => ?_⟩
  have hattempt : (after refused [.build, .solve]).2 =
      some ⟨.ok ⟨.optimal, none, some [1], none, 0⟩, .ok .optimal, false⟩ := rfl
  obtain rfl := Option.some.inj (hattempt.symm.trans ha)
  exact iff_of_true rfl ⟨[1], rfl⟩

/-- When a solve fails after an optimum was recorded, the record stays, although the values are
gone: solver and model are out of step. -/
theorem not_inStep_refused :
    (after refused [.solve, .solve]).1.solver.hasSolution = true ∧
      (after refused [.solve, .solve]).1.model.HoldsNothing ∧
        ¬InStep refused.model (after refused [.solve, .solve]) := by
  have hrecord : (after refused [.solve, .solve]).1.solver.hasSolution = true := rfl
  have hattempt : (after refused [.solve, .solve]).2 =
      some ⟨.error (.backend "out of answers"), .error (.backend "out of answers"), true⟩ := rfl
  refine ⟨hrecord, (tracks_after rfl [.solve, .solve]).holds _ hattempt, fun h => ?_⟩
  obtain ⟨a, xs, ha, hxs, -⟩ := h.values hrecord
  obtain rfl := Option.some.inj (hattempt.symm.trans ha)
  cases hxs

end SolverRun

end AdjustableRobust
