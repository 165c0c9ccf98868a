import AdjustableRobust.Conic.Model
import AdjustableRobust.Proofs.Expression.Value
import AdjustableRobust.Proofs.Failure

/-!
# Storing solutions

A solution is stored in two stages: all variables get their values, then one objective after the
other is evaluated there. The number of values is checked before the first stage, so a wrong one
leaves the model alone, and so do duals of a wrong number. An objective is evaluated by position, so
it fails when it refers to a position that the model does not have. By then the variables and the
objectives before it have their new values, and keep them.
-/

namespace AdjustableRobust

/-! ## Values by position -/

/-- A list of values refuses handles for not having their positions. -/
theorem Assignment.ofList_blames {κ : EntityKind} (xs : List ℝ) (h : Handle κ) :
    Blames (fun e => xs.length ≤ h.slot ∧ e = .store (.outOfRange h.slot xs.length))
      (Assignment.ofList xs h) := by
  intro e he
  cases hget : xs[h.slot]? with
  | some x =>
    rw [Assignment.ofList_eq_ok_iff.2 hget] at he
    cases he
  | none =>
    have hlookup : h.lookup xs = .error (.outOfRange h.slot xs.length) := by
      rw [Handle.lookup, hget]
    rw [Assignment.ofList, hlookup] at he
    exact ⟨List.getElem?_eq_none_iff.1 hget, (Except.error.inj he).symm⟩

/-- Evaluation fails where a variable is refused. -/
theorem AffineExpr.value_blames {V : Type} (e : AffineExpr ℝ V) (a : Assignment ℝ V) :
    Blames (fun cause => ∃ v ∈ e.vars, a v = .error cause) (e.value a) := by
  refine .bind (.foldlM fun total t ht => .bind (.bind (fun cause hcause => ?_) fun _ => .pure)
    fun _ => .pure) fun _ => .pure
  exact ⟨t.var, List.mem_map_of_mem ht, hcause⟩

namespace ConicModel

variable {m : ConicModel ℝ} {xs : List ℝ}

/-! ## What a model holds -/

/-- Values of the variables, as far as there are any. -/
def values? (m : ConicModel ℝ) : List (Option ℝ) := m.vars.items.map (·.value?)

/-- Values of the objectives, as far as there are any. -/
def objectiveValues? (m : ConicModel ℝ) : List (Option ℝ) := m.objectives.map (·.value?)

/-- Duals of the constraints, as far as there are any. -/
def duals? (m : ConicModel ℝ) : List (Option ℝ) := m.constraints.map (·.dual?)

/-- An objective refers to positions below the given number only. -/
def RefersBelow (n : ℕ) (o : ConicObjective ℝ) : Prop := ∀ h ∈ o.expression.vars, h.slot < n

/-- Value of an objective when the variables have the values at their positions. -/
noncomputable def valueAt (xs : List ℝ) (o : ConicObjective ℝ) : ℝ :=
  o.expression.eval (bySlot (entryAt xs))

/-! ## Evaluating objectives -/

private theorem evaluateObjectives_cases (xs : List ℝ) (os : List (ConicObjective ℝ)) :
    ((∀ o ∈ os, RefersBelow xs.length o) ∧
      evaluateObjectives xs os = (.ok (), os.map fun o => o.setValue (valueAt xs o))) ∨
    ∃ before o after, os = before ++ o :: after ∧ (∀ p ∈ before, RefersBelow xs.length p) ∧
      ∃ h ∈ o.expression.vars, xs.length ≤ h.slot ∧
        evaluateObjectives xs os = (.error (.store (.outOfRange h.slot xs.length)),
          (before.map fun p => p.setValue (valueAt xs p)) ++ o :: after) := by
  induction os with
  | nil => exact .inl ⟨by simp, rfl⟩
  | cons o os ih =>
    cases hvalue : o.expression.value (.ofList xs) with
    | error e =>
      obtain ⟨h, hmem, hrefused⟩ := AffineExpr.value_blames _ _ e hvalue
      obtain ⟨hslot, rfl⟩ := Assignment.ofList_blames xs h e hrefused
      exact .inr ⟨[], o, os, rfl, by simp, h, hmem, hslot, by rw [evaluateObjectives, hvalue]; rfl⟩
    | ok x =>
      obtain ⟨hvars, rfl⟩ := (AffineExpr.value_eq_ok_iff (Assignment.ofList_within xs)).1 hvalue
      have ho : RefersBelow xs.length o := fun h hh =>
        Assignment.ofList_eq_bySlot_iff.1 (hvars h hh)
      rcases ih with ⟨hos, hrun⟩ | ⟨before, p, after, rfl, hbefore, h, hmem, hslot, hrun⟩
      · exact .inl ⟨List.forall_mem_cons.2 ⟨ho, hos⟩,
          by rw [evaluateObjectives, hvalue, hrun]; rfl⟩
      · exact .inr ⟨o :: before, p, after, rfl, List.forall_mem_cons.2 ⟨ho, hbefore⟩, h, hmem,
          hslot, by rw [evaluateObjectives, hvalue, hrun]; rfl⟩

/-! ## The two stages -/

/-- The model whose variables have the values, and with other objectives. -/
noncomputable def withValues (m : ConicModel ℝ) (xs : List ℝ) (os : List (ConicObjective ℝ)) :
    ConicModel ℝ :=
  { m with vars := { m.vars with items := m.vars.items.zipWith ConicVariable.setValue xs },
           objectives := os }

/-- Each variable has its value. -/
theorem values?_withValues (hxs : xs.length = m.numVariables) (os : List (ConicObjective ℝ)) :
    (m.withValues xs os).values? = xs.map some := by
  have hlength : xs.length = m.vars.items.length := hxs
  refine List.ext_getElem (by simp [values?, withValues, hlength]) fun i hi hi' => ?_
  simp [values?, withValues, ConicVariable.setValue]

/-- Too few or too many values are refused, and the model stays. -/
theorem perform_setSolution_of_ne (hxs : xs.length ≠ m.numVariables) :
    (setSolution xs).perform m =
      (.error (.realizationDimension m.numVariables xs.length), m) := by
  change (get >>= _ : Step (ConicModel ℝ) (ModelError ℝ) Unit).perform m = _
  rw [Step.perform_bind]
  change (ite _ _ _ : Step (ConicModel ℝ) (ModelError ℝ) Unit).perform m = _
  rw [if_pos hxs]
  rfl

/-- One value for each variable is stored, then the objectives are evaluated. -/
theorem perform_setSolution (hxs : xs.length = m.numVariables) :
    (setSolution xs).perform m = ((evaluateObjectives xs m.objectives).1,
      m.withValues xs (evaluateObjectives xs m.objectives).2) := by
  change (get >>= _ : Step (ConicModel ℝ) (ModelError ℝ) Unit).perform m = _
  rw [Step.perform_bind]
  change (ite _ _ _ : Step (ConicModel ℝ) (ModelError ℝ) Unit).perform m = _
  rw [if_neg (not_not.2 hxs)]
  cases evaluateObjectives xs m.objectives with
  | mk result os => cases result <;> rfl

/-- Duals are stored if there is one for each constraint; otherwise the model stays. -/
theorem perform_setConstraintDuals (m : ConicModel ℝ) (ys : List ℝ) :
    (setConstraintDuals ys).perform m =
      if ys.length = m.constraints.length then
        (.ok (), { m with constraints := m.constraints.zipWith Constraint.setDual ys })
      else (.error (.realizationDimension m.constraints.length ys.length), m) := by
  change (get >>= _ : Step (ConicModel ℝ) (ModelError ℝ) Unit).perform m = _
  rw [Step.perform_bind]
  change (ite _ _ _ : Step (ConicModel ℝ) (ModelError ℝ) Unit).perform m = _
  by_cases hys : ys.length = m.constraints.length
  · rw [if_neg (not_not.2 hys), if_pos hys]
    rfl
  · rw [if_pos hys, if_neg hys]
    rfl

/-- A solution is stored as a whole when it has one value for each variable and all objectives refer
to positions of the model. With a wrong number of values nothing is stored. Otherwise storing stops
at the first objective that refers to a position which the model does not have: all variables and
the objectives before it have their new values by then, the objectives from there on have the old
ones. Duals are stored as a whole or not at all. -/
theorem storing_stops_at_stray (m : ConicModel ℝ) (xs ys : List ℝ) :
    (match (setSolution xs).perform m with
      | (.ok _, m') =>
        xs.length = m.numVariables ∧ (∀ o ∈ m.objectives, RefersBelow m.numVariables o) ∧
          m'.values? = xs.map some ∧
          m'.objectiveValues? = m.objectives.map fun o => some (valueAt xs o)
      | (.error e, m') =>
        (xs.length ≠ m.numVariables ∧ m' = m) ∨
          (xs.length = m.numVariables ∧ m'.values? = xs.map some ∧
            ∃ before o after, m.objectives = before ++ o :: after ∧
              (∀ p ∈ before, RefersBelow m.numVariables p) ∧
              (∃ h ∈ o.expression.vars, m.numVariables ≤ h.slot ∧
                e = .store (.outOfRange h.slot m.numVariables)) ∧
              m'.objectiveValues? =
                (before.map fun p => some (valueAt xs p)) ++ (o :: after).map (·.value?))) ∧
    (match (setConstraintDuals ys).perform m with
      | (.ok _, m') => ys.length = m.constraints.length ∧ m'.duals? = ys.map some
      | (.error _, m') => ys.length ≠ m.constraints.length ∧ m' = m) := by
  constructor
  · by_cases hxs : xs.length = m.numVariables
    · rw [perform_setSolution hxs]
      obtain ⟨hos, hrun⟩ | ⟨before, o, after, hsplit, hbefore, h, hmem, hslot, hrun⟩ :=
        evaluateObjectives_cases xs m.objectives
      · rw [hrun]
        refine ⟨hxs, hxs ▸ hos, values?_withValues hxs _, ?_⟩
        simp [objectiveValues?, withValues, Objective.setValue]
      · rw [hrun]
        refine .inr ⟨hxs, values?_withValues hxs _, before, o, after, hsplit, hxs ▸ hbefore,
          ⟨h, hmem, hxs ▸ hslot, by rw [hxs]⟩, ?_⟩
        simp [objectiveValues?, withValues, Objective.setValue]
    · rw [perform_setSolution_of_ne hxs]
      exact .inl ⟨hxs, rfl⟩
  · rw [perform_setConstraintDuals]
    by_cases hys : ys.length = m.constraints.length
    · rw [if_pos hys]
      refine ⟨hys, List.ext_getElem (by simp [duals?, hys]) fun i hi hi' => ?_⟩
      simp [duals?, Constraint.setDual]
    · rw [if_neg hys]
      exact ⟨hys, rfl⟩

/-! ## An objective of another model -/

/-- A model of one variable with a stored solution, to which an objective in the second variable of
another model is added. -/
noncomputable def strayed : ConicModel ℝ :=
  let home := ((new "home" ⟨0⟩).addVariable "x" .free).2.addObjective
    (.new .minimize (.var ⟨⟨0⟩, 0, 0⟩))
  ((setSolution [1]).perform home).2.addObjective (.new .minimize (.var ⟨⟨1⟩, 0, 1⟩))

/-- Storing another solution fails at the added objective, but the variable and the objective before
it have lost their values. -/
theorem strayed_solution_stays :
    strayed.values? = [some 1] ∧ strayed.objectiveValues? = [some 1, none] ∧
      ((setSolution [5]).perform strayed).1 = .error (.store (.outOfRange 1 1)) ∧
        ((setSolution [5]).perform strayed).2.values? = [some 5] ∧
        ((setSolution [5]).perform strayed).2.objectiveValues? = [some 5, none] := by
  have hobjectives : strayed.objectives =
      [⟨.minimize, .var ⟨⟨0⟩, 0, 0⟩, some 1⟩, .new .minimize (.var ⟨⟨1⟩, 0, 1⟩)] := by
    rw [strayed, perform_setSolution rfl]
    change (evaluateObjectives [1] [.new .minimize (.var ⟨⟨0⟩, 0, 0⟩)]).2 ++ _ = _
    rw [evaluateObjectives, Objective.new, AffineExpr.value_var]
    rfl
  have hvalues : strayed.values? = [some 1] := by
    rw [strayed, perform_setSolution rfl]
    exact values?_withValues rfl _
  have hsize : [(5 : ℝ)].length = strayed.numVariables := by
    rw [strayed, perform_setSolution rfl]
    rfl
  have hrun : evaluateObjectives [5] strayed.objectives =
      (.error (.store (.outOfRange 1 1)),
        [⟨.minimize, .var ⟨⟨0⟩, 0, 0⟩, some 5⟩, .new .minimize (.var ⟨⟨1⟩, 0, 1⟩)]) := by
    rw [hobjectives, evaluateObjectives, AffineExpr.value_var, evaluateObjectives, Objective.new,
      AffineExpr.value_var]
    rfl
  rw [perform_setSolution hsize, hrun]
  refine ⟨hvalues, ?_, rfl, values?_withValues hsize _, rfl⟩
  rw [objectiveValues?, hobjectives]
  rfl

end ConicModel

end AdjustableRobust
