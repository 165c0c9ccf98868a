import AdjustableRobust.Proofs.Solver.StandardForm
import AdjustableRobust.Solver.Hierarchy

/-!
# What later passes keep of earlier ones

Before the next objective is optimized, a row keeps the one just optimized close to its optimum.
Rows are only appended: one pass leaves the rows it was given to the next one, together with what it
adds, so a point that satisfies the rows of the last pass satisfies those of the problem and is
close to the optimum of every earlier objective. Nothing is asked of the solver for a single
objective but that points it calls solved satisfy the rows it was given.
-/

namespace AdjustableRobust

namespace ColumnObjective

/-- The value of an objective is its row at the column values, plus its constant. -/
theorem value_eq (o : ColumnObjective ℝ) (x : List ℝ) :
    o.value x = o.constant + Row.eval o.coefficients (entryAt x) := by
  simp [value, Row.eval, entryAt, List.getD_eq_getElem?_getD]

/-- At these column values the objective is not much worse than at an optimum. The tolerance is
relative to the optimum, but to one if the optimum is smaller. -/
def Keeps (o : ColumnObjective ℝ) (tolerance optimum : ℝ) (x : List ℝ) : Prop :=
  match o.sense with
  | .minimize => o.value x ≤ optimum + tolerance * max 1 |optimum|
  | .maximize => optimum - tolerance * max 1 |optimum| ≤ o.value x

end ColumnObjective

/-- A point that is called solved has a value for each column and satisfies the rows. -/
def SingleSolver.Sound (solver : SingleSolver ℝ) : Prop :=
  ∀ settings n (rows : ConeRows ℝ) costs, rows.Within n →
    (solver settings n rows costs).status = .solved →
      (solver settings n rows costs).point.length = n ∧
        Cone.InProduct rows.cones (rows.residual (solver settings n rows costs).point)

namespace StandardForm

variable {m : ConicModel ℝ} {f : StandardForm ℝ} {solver : SingleSolver ℝ}
  {settings : SolverSettings ℝ} {n : ℕ} {rows : ConeRows ℝ} {o? : Option (ColumnObjective ℝ)}
  {os : List (Option (ColumnObjective ℝ))} {s : SingleSolution ℝ} {x : List ℝ}

/-! ## One pass -/

/-- The row of an objective has a slack exactly where the objective is kept. -/
theorem admits_fixRow_iff (tolerance : ℝ) (o : ColumnObjective ℝ) (optimum : ℝ) :
    LinearCone.nonnegative.Admits
        ((fixRow tolerance o optimum).2 - (fixRow tolerance o optimum).1.eval (entryAt x)) ↔
      o.Keeps tolerance optimum x := by
  rw [LinearCone.Admits, ColumnObjective.Keeps, o.value_eq, fixRow, max_comm]
  cases o.sense with
  | minimize =>
    simp only [Scalar.max_real, Scalar.abs_real]
    constructor <;> intro <;> linarith
  | maximize =>
    simp only [Scalar.max_real, Scalar.abs_real, Row.eval_opposite]
    constructor <;> intro <;> linarith

/-- The rows of the next pass, if there is one. -/
noncomputable def rowsAfter (settings : SolverSettings ℝ) (o? : Option (ColumnObjective ℝ))
    (os : List (Option (ColumnObjective ℝ))) (rows : ConeRows ℝ) (s : SingleSolution ℝ) :
    ConeRows ℝ :=
  match o?, os with
  | some o, _ :: _ =>
    let (row, b) := fixRow settings.objectiveTolerance o (o.value s.point)
    rows.pushLinear row b .nonnegative
  | _, _ => rows

/-- A pass that finds an optimum is followed by the next one, another one is the last. -/
theorem passes_cons (runtime : ℝ) (last? : Option (SingleSolution ℝ)) :
    passes solver settings n (o? :: os) rows runtime last? =
      let s := solver settings n rows (costs n o?)
      if s.status = .solved then
        passes solver settings n os (rowsAfter settings o? os rows s) (runtime + s.runtime) (some s)
      else .error (s.status.outcome, runtime + s.runtime) := by
  rcases o? with _ | o
  · rfl
  · cases os <;> rfl

/-- The row of an objective has the columns of the objective. -/
theorem within_fixRow {o : ColumnObjective ℝ} (h : Row.Within o.coefficients n)
    (tolerance optimum : ℝ) : (fixRow tolerance o optimum).1.Within n := by
  unfold fixRow
  cases o.sense with
  | minimize => exact h
  | maximize => exact h.opposite

/-- The rows of the next pass are in order if the objective has no other columns. -/
theorem within_rowsAfter (h : rows.Within n) (ho : ∀ o ∈ o?, Row.Within o.coefficients n) :
    (rowsAfter settings o? os rows s).Within n := by
  unfold rowsAfter
  split
  · exact h.pushLinear (within_fixRow (ho _ rfl) _ _) _
  · exact h

/-- The rows of the next pass are those of this one, and they keep the objective. -/
theorem satisfied_rowsAfter_iff (h : rows.Within n) (hos : os ≠ []) :
    (rowsAfter settings o? os rows s).Satisfied (entryAt x) ↔ rows.Satisfied (entryAt x) ∧
      ∀ o ∈ o?, o.Keeps settings.objectiveTolerance (o.value s.point) x := by
  obtain ⟨_, _, rfl⟩ := List.exists_cons_of_ne_nil hos
  cases o? with
  | none => simp [rowsAfter]
  | some o =>
    rw [rowsAfter, h.satisfied_pushLinear_iff, admits_fixRow_iff]
    simp

/-! ## All passes -/

/-- The answers of the solver, pass by pass, up to the first one that is no optimum. -/
noncomputable def answersFrom (solver : SingleSolver ℝ) (settings : SolverSettings ℝ) (n : ℕ) :
    List (Option (ColumnObjective ℝ)) → ConeRows ℝ → List (SingleSolution ℝ)
  | [], _ => []
  | o? :: os, rows =>
    let s := solver settings n rows (costs n o?)
    s :: if s.status = .solved then
        answersFrom solver settings n os (rowsAfter settings o? os rows s)
      else []

/-- The answers of the solver when a standard form is solved for its objectives. -/
noncomputable def answers (f : StandardForm ℝ) (solver : SingleSolver ℝ)
    (settings : SolverSettings ℝ) : List (SingleSolution ℝ) :=
  answersFrom solver settings f.numColumns (f.objectives.map some) f.rows

/-- Passes that all find an optimum end with a point that satisfies the rows of the first one and
keeps the objectives of all but the last. -/
theorem passes_eq_ok (hsolver : solver.Sound) (hos : os ≠ []) (hrows : rows.Within n)
    (hwithin : ∀ o, some o ∈ os → Row.Within o.coefficients n) {runtime runtime' : ℝ}
    {last? last?' : Option (SingleSolution ℝ)}
    (hrun : passes solver settings n os rows runtime last? = .ok (last?', runtime')) :
    ∃ last, last?' = some last ∧ last.point.length = n ∧ rows.Satisfied (entryAt last.point) ∧
      ∀ i o, os[i]? = some (some o) → i + 1 < os.length →
        ∃ s, (answersFrom solver settings n os rows)[i]? = some s ∧
          o.Keeps settings.objectiveTolerance (o.value s.point) last.point := by
  induction os generalizing rows runtime last? with
  | nil => exact absurd rfl hos
  | cons o? os ih =>
    set s := solver settings n rows (costs n o?) with hs
    rw [passes_cons] at hrun
    by_cases hsolved : s.status = .solved
    swap
    · simp [← hs, hsolved] at hrun
    simp only [← hs, hsolved, if_true] at hrun
    rcases eq_or_ne os [] with rfl | hmore
    · -- This pass is the last one, its point satisfies the rows it was given.
      obtain ⟨hlength, hproduct⟩ := hsolver settings n rows _ hrows hsolved
      obtain ⟨rfl, -⟩ := Prod.mk.inj (Except.ok.inj hrun)
      refine ⟨s, rfl, hlength, (hrows.inProduct_residual_iff hlength).1 hproduct, ?_⟩
      intro i o ho hi
      simp at hi
    · -- The last point satisfies the rows of the next pass, which keep the objective of this one.
      obtain ⟨last, rfl, hlength, hsatisfied, hkept⟩ := ih hmore
        (within_rowsAfter hrows fun o ho => hwithin o (ho ▸ List.mem_cons_self))
        (fun o ho => hwithin o (List.mem_cons_of_mem _ ho)) hrun
      obtain ⟨hfirst, hkeeps⟩ := (satisfied_rowsAfter_iff hrows hmore).1 hsatisfied
      refine ⟨last, rfl, hlength, hfirst, fun i o ho hi => ?_⟩
      rw [answersFrom, ← hs, if_pos hsolved]
      cases i with
      | zero => exact ⟨s, rfl, hkeeps o (by simpa using ho)⟩
      | succ i => exact hkept i o (by simpa using ho) (by simpa using hi)

/-- Passes that stop early report no optimum. -/
theorem passes_ne_error_optimal {runtime runtime' : ℝ} {last? : Option (SingleSolution ℝ)} :
    passes solver settings n os rows runtime last? ≠ .error (.optimal, runtime') := by
  induction os generalizing rows runtime last? with
  | nil => simp [passes]
  | cons o? os ih =>
    rw [passes_cons]
    dsimp only
    split
    · exact ih
    · next hstatus =>
      cases hs : (solver settings n rows (costs n o?)).status <;>
        simp_all [SingleStatus.outcome]

/-- The objectives of a standard form have columns of variables only. -/
theorem within_objectives_ofModel (hrun : ofModel m = .ok f) :
    ∀ o ∈ f.objectives, Row.Within o.coefficients m.numVariables := by
  obtain ⟨-, -, -, -, -, -, hobjectives⟩ := ofModel_eq_ok hrun
  intro o ho
  obtain ⟨_, -, row, hrow, rfl⟩ := exists_of_forall₂_right hobjectives ho
  exact (rowOf_eq_ok hrow).1

/-- What a reported optimum says: the last pass ended with a point that satisfies all rows and keeps
the objectives before the last. -/
theorem solve_optimal (hsolver : solver.Sound) (hrun : ofModel m = .ok f)
    (hoptimal : (f.solve solver settings).status = .optimal) :
    ∃ last : SingleSolution ℝ,
      (f.solve solver settings).values? = some (last.point.take f.numVariables) ∧
      (f.solve solver settings).objective? = f.objectives.head?.map (·.value last.point) ∧
      last.point.length = f.numColumns ∧ f.rows.Satisfied (entryAt last.point) ∧
      ∀ i o, f.objectives[i]? = some o → i + 1 < f.objectives.length →
        ∃ s, (f.answers solver settings)[i]? = some s ∧
          o.Keeps settings.objectiveTolerance (o.value s.point) last.point := by
  have hdemands := demands_ofModel hrun
  set os := if f.objectives.isEmpty then [none] else f.objectives.map some with hos
  have hne : os ≠ [] := by
    rw [hos]
    split
    · simp
    · simp_all
  have hwithin : ∀ o, some o ∈ os → Row.Within o.coefficients f.numColumns := by
    intro o ho
    rw [hos] at ho
    split at ho
    · simp at ho
    · exact (within_objectives_ofModel hrun o (by simpa using ho)).mono hdemands.le
  rw [solve, ← hos] at hoptimal ⊢
  cases hpasses : passes solver settings f.numColumns os f.rows 0 none with
  | error p =>
    obtain ⟨status, runtime⟩ := p
    rw [hpasses] at hoptimal
    obtain rfl : status = .optimal := hoptimal
    exact absurd hpasses passes_ne_error_optimal
  | ok p =>
    obtain ⟨last?, runtime⟩ := p
    obtain ⟨last, rfl, hlength, hsatisfied, hkept⟩ :=
      passes_eq_ok hsolver hne hdemands.within hwithin hpasses
    refine ⟨last, rfl, rfl, hlength, hsatisfied, fun i o ho hi => ?_⟩
    have hmap : os = f.objectives.map some := by
      rw [hos, if_neg]
      intro hempty
      rw [List.isEmpty_iff.1 hempty] at hi
      exact absurd hi (Nat.not_lt_zero _)
    rw [answers, ← hmap]
    refine hkept i o ?_ ?_
    · rw [hmap, List.getElem?_map, ho, Option.map_some]
    · rwa [hmap, List.length_map]

end StandardForm

namespace ConeBackend

/-- Later objectives do not undo earlier ones. The values of an optimal solve extend to all columns
such that all rows of the problem are satisfied, and there every objective but the last is kept
within the tolerance of the value it had in the pass that optimized it. The first objective is the
one whose value is reported. -/
theorem solve_keeps_objectives {m : ConicModel ℝ} {f : StandardForm ℝ} {b b' : ConeBackend ℝ}
    {settings : SolverSettings ℝ} {r : ProblemSolution ℝ} (hsolver : b.solver.Sound)
    (hmodel : StandardForm.ofModel m = .ok f) (hbuilt : b.problem? = some f)
    (hsolve : solve settings b = .ok r b') (hoptimal : r.status = .optimal) :
    ∃ x aux : List ℝ, r.values? = some x ∧ x.length = m.numVariables ∧
      (x ++ aux).length = f.numColumns ∧
      Cone.InProduct f.rows.cones (f.rows.residual (x ++ aux)) ∧
      r.objective? = f.objectives.head?.map (·.value (x ++ aux)) ∧
      ∀ i o, f.objectives[i]? = some o → i + 1 < f.objectives.length →
        ∃ s, (f.answers b.solver settings)[i]? = some s ∧
          o.Keeps settings.objectiveTolerance (o.value s.point) (x ++ aux) := by
  obtain ⟨solver, problem?⟩ := b
  obtain rfl : problem? = some f := hbuilt
  obtain ⟨rfl, -⟩ : f.solve solver settings = r ∧ _ = b' := EStateM.Result.ok.inj hsolve
  obtain ⟨last, hvalues, hobjective, hlength, hsatisfied, hkept⟩ :=
    StandardForm.solve_optimal hsolver hmodel hoptimal
  have hdemands := StandardForm.demands_ofModel hmodel
  obtain ⟨-, -, hvariables, -⟩ := StandardForm.ofModel_eq_ok hmodel
  have hpoint : last.point.take f.numVariables ++ last.point.drop f.numVariables = last.point :=
    List.take_append_drop _ _
  refine ⟨_, last.point.drop f.numVariables, hvalues, ?_, ?_⟩
  · rw [List.length_take, hlength, hvariables, min_eq_left hdemands.le]
  · rw [hpoint]
    have hrows := (hdemands.within.inProduct_residual_iff hlength).2 hsatisfied
    exact ⟨hlength, hrows, hobjective, hkept⟩

/-- One variable between zero and one. First `x + 1` is maximized, then `x` minimized. -/
noncomputable def opposed : ConicModel ℝ :=
  ⟨"opposed", ⟨⟨0⟩, 0, [⟨"x", .unit, .continuous, none, none⟩]⟩, [], [],
    [.new .maximize ⟨1, .term 1 ⟨⟨0⟩, 0, 0⟩⟩, .new .minimize ⟨0, .term 1 ⟨⟨0⟩, 0, 0⟩⟩]⟩

/-- The standard form: a row for each bound. -/
noncomputable def opposedForm : StandardForm ℝ :=
  ⟨1, 1, ⟨[⟨0, 0, -1⟩, ⟨1, 0, 1⟩], [-0, 1], [.nonnegative 2]⟩,
    [⟨.maximize, [(0, 1)], 1⟩, ⟨.minimize, [(0, 1)], 0⟩], some []⟩

open Classical in
/-- Knows only one point, and finds it wherever it satisfies the rows. -/
noncomputable def guess : SingleSolver ℝ := fun _ n rows _ =>
  if n = 1 ∧ Cone.InProduct rows.cones (rows.residual [1]) then ⟨.solved, [1], [], 0⟩
  else ⟨.failed, [], [], 0⟩

private theorem sound_guess : guess.Sound := by
  intro settings n rows costs _ hsolved
  by_cases h : n = 1 ∧ Cone.InProduct rows.cones (rows.residual [1])
  · rw [guess, if_pos h]
    exact ⟨h.1.symm, h.2⟩
  · simp [guess, h] at hsolved

private theorem ofModel_opposed : StandardForm.ofModel opposed = .ok opposedForm := by
  have hrow : ∀ k : ℝ, StandardForm.rowOf opposed ⟨k, .term 1 ⟨⟨0⟩, 0, 0⟩⟩ 1 = .ok [(0, 1)] := by
    intro k
    have hterms : (LinearExpr.term 1 ⟨⟨0⟩, 0, 0⟩ : LinearExpr ℝ ConicRef).simplify.terms =
        [⟨1, ⟨⟨0⟩, 0, 0⟩⟩] := by
      simp [LinearExpr.term, LinearExpr.simplify, LinearExpr.merged, LinearExpr.mergeTerm]
    simp [StandardForm.rowOf, hterms]
    rfl
  have hmodel : StandardForm.ofModel opposed = (do
      let objectives ← opposed.objectives.mapM fun o =>
        return ⟨o.sense, ← StandardForm.rowOf opposed o.expression 1, o.expression.constant⟩
      return ⟨1, 1, StandardForm.addBounds .empty 0 .unit, objectives,
        some []⟩) := rfl
  have hfirst : StandardForm.rowOf opposed ((Objective.new .maximize ⟨1, .term 1 ⟨⟨0⟩, 0, 0⟩⟩ :
      ConicObjective ℝ)).expression 1 = .ok [(0, 1)] := hrow 1
  have hsecond : StandardForm.rowOf opposed ((Objective.new .minimize ⟨0, .term 1 ⟨⟨0⟩, 0, 0⟩⟩ :
      ConicObjective ℝ)).expression 1 = .ok [(0, 1)] := hrow 0
  rw [hmodel, opposed, List.mapM_cons, List.mapM_cons]
  rw [← opposed, hfirst, hsecond]
  rfl

private theorem passes_guess {settings : SolverSettings ℝ} {rows : ConeRows ℝ} {runtime : ℝ}
    {last? : Option (SingleSolution ℝ)} (o? : Option (ColumnObjective ℝ))
    (os : List (Option (ColumnObjective ℝ))) (h : rows.Within 1)
    (hrows : rows.Satisfied (entryAt [1])) :
    StandardForm.passes guess settings 1 (o? :: os) rows runtime last? =
      StandardForm.passes guess settings 1 os (StandardForm.rowsAfter settings o? os rows
        ⟨.solved, [1], [], 0⟩) (runtime + 0) (some ⟨.solved, [1], [], 0⟩) := by
  have hguess : guess settings 1 rows (StandardForm.costs 1 o?) = ⟨.solved, [1], [], 0⟩ := by
    rw [guess, if_pos ⟨rfl, (h.inProduct_residual_iff rfl).2 hrows⟩]
  rw [StandardForm.passes_cons, hguess]
  rfl

/-- Settings without limits that leave earlier objectives no tolerance. -/
noncomputable def strict : SolverSettings ℝ := ⟨none, none, false, 0, 0⟩

private theorem optimal_opposed : (opposedForm.solve guess strict).status = .optimal := by
  let best : SingleSolution ℝ := ⟨.solved, [1], [], 0⟩
  let goals : List (ColumnObjective ℝ) := [⟨.maximize, [(0, 1)], 1⟩, ⟨.minimize, [(0, 1)], 0⟩]
  have hempty : (ConeRows.empty : ConeRows ℝ).Within 1 := ConeRows.within_empty 1
  have hlower : (ConeRows.empty.pushLinear [(0, -1)] (-0) .nonnegative : ConeRows ℝ).Within 1 :=
    hempty.pushLinear (by simp [Row.Within]) _
  have hrows : opposedForm.rows = (ConeRows.empty.pushLinear [(0, -1)] (-0) .nonnegative).pushLinear
      [(0, 1)] 1 .nonnegative := rfl
  have hwithin : opposedForm.rows.Within 1 := hrows ▸ hlower.pushLinear (by simp [Row.Within]) _
  have hfirst : opposedForm.rows.Satisfied (entryAt [1]) := by
    rw [hrows, hlower.satisfied_pushLinear_iff, hempty.satisfied_pushLinear_iff]
    exact ⟨⟨ConeRows.satisfied_empty _, by norm_num [LinearCone.Admits, entryAt]⟩,
      by norm_num [LinearCone.Admits, entryAt]⟩
  have hsecond : (StandardForm.rowsAfter strict goals[0] [some goals[1]] opposedForm.rows
      best).Satisfied (entryAt [1]) := by
    refine (StandardForm.satisfied_rowsAfter_iff hwithin (List.cons_ne_nil _ _)).2 ⟨hfirst, ?_⟩
    norm_num [ColumnObjective.Keeps, goals, strict, best]
  have hpasses : StandardForm.passes guess strict 1 (goals.map some) opposedForm.rows 0 none =
      .ok (some best, 0 + 0 + 0) := by
    have hnext : (StandardForm.rowsAfter strict goals[0] [some goals[1]] opposedForm.rows
        best).Within 1 := StandardForm.within_rowsAfter hwithin (by simp [goals, Row.Within])
    exact (passes_guess _ _ hwithin hfirst).trans (passes_guess _ _ hnext hsecond)
  have hobjectives : opposedForm.objectives = goals := rfl
  rw [StandardForm.solve, hobjectives]
  rw [show opposedForm.numColumns = 1 from rfl, if_neg (by simp [goals]), hpasses]

/-- With two opposed objectives the second pass keeps the value that the first one reached. -/
theorem solve_keeps_objectives_opposed : ∃ (r : ProblemSolution ℝ) (x aux : List ℝ)
    (s : SingleSolution ℝ),
    solve strict ⟨guess, some opposedForm⟩ = .ok r ⟨guess, some opposedForm⟩ ∧
      r.status = .optimal ∧ r.values? = some x ∧ x.length = 1 ∧
      Cone.InProduct opposedForm.rows.cones (opposedForm.rows.residual (x ++ aux)) ∧
      (opposedForm.answers guess strict)[0]? = some s ∧
      ColumnObjective.Keeps ⟨.maximize, [(0, 1)], 1⟩ 0
        (ColumnObjective.value ⟨.maximize, [(0, 1)], 1⟩ s.point) (x ++ aux) := by
  have hsound : (ConeBackend.mk guess (some opposedForm)).solver.Sound := sound_guess
  have hsolve : solve strict ⟨guess, some opposedForm⟩ =
      .ok (opposedForm.solve guess strict) ⟨guess, some opposedForm⟩ := rfl
  obtain ⟨x, aux, hx, hlength, -, hproduct, -, hkept⟩ :=
    solve_keeps_objectives hsound ofModel_opposed rfl hsolve optimal_opposed
  obtain ⟨s, hs, hkeeps⟩ := hkept 0 ⟨.maximize, [(0, 1)], 1⟩ rfl (by simp [opposedForm])
  exact ⟨_, x, aux, s, rfl, optimal_opposed, hx, hlength, hproduct, hs, hkeeps⟩

end ConeBackend

end AdjustableRobust
