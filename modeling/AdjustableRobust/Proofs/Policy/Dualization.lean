import AdjustableRobust.Proofs.Duality.Dualization
import AdjustableRobust.Proofs.Policy.Lagrangian
import AdjustableRobust.Proofs.Policy.Writing

/-!
# Dualizing an alternative

Dualizing a constraint declares its duals, bounds them and adds the constraint, weighted by them,
to the Lagrangian. Dualizing an alternative with the bounds of all uncertainties dualizes its
region.
-/

namespace AdjustableRobust.Counterpart

variable {m m' : ConicModel ℝ} {l l' : Lagrangian ℝ}

/-- Dualizing a constraint. -/
theorem dualizeConstraint_eq_ok {name : String} {slot : ℕ} {c : UncertaintyConstraint ℝ}
    (hrun : dualizeConstraint name slot l c m = .ok l' m') :
    Dualizes m m' l l' [c.toRawConstraint] := by
  simp only [dualizeConstraint, Step.bind_eq_ok_iff, Step.ofExcept_eq_ok_iff] at hrun
  obtain ⟨dv, m₁, hdeclare, l₁, _, ⟨hrow, rfl⟩, hrest⟩ := hrun
  obtain ⟨⟨sense, ⟨normed?, affine⟩⟩, cname, dual?⟩ := c
  cases normed? with
  | none =>
    obtain ⟨rfl, rfl⟩ := Step.pure_eq_ok_iff.1 hrest
    exact .of_affine (declare_adds hdeclare) (addRow_eq_ok hrow)
  | some n =>
    simp only [dualizeNorm, Step.bind_eq_ok_iff, Step.ofExcept_eq_ok_iff, Step.pure_eq_ok_iff]
      at hrest
    obtain ⟨duals, m₂, hmany, _, _, ⟨hrows, rfl⟩, _, _, hcone, rfl, rfl⟩ := hrest
    obtain ⟨hduals, hadds⟩ := declareMany_adds hmany
    rw [← Step.modify_eq_ok_iff.1 hcone]
    exact .of_normed ((declare_adds hdeclare).trans hadds)
      ((addRow_eq_ok hrow).append (foldlM_addRow_eq_ok hduals hrows))

private theorem dualizes_bound {name : String} {s : ConstraintSense} {h : UncertaintyRef} {b : ℝ}
    {dv : ConicRef} (hdeclare : declare name s.dualBounds m = .ok dv m')
    (hrow : (addObjectiveTerm l (-b) dv).addResidual h 1 dv = .ok l') :
    Dualizes m m' l l' [⟨s, .ofAffine ⟨-b, .var h⟩⟩] :=
  .of_affine (declare_adds hdeclare) (Lagrangian.gains_bound (growsBy_addObjectiveTerm l _ dv) hrow)

/-- Dualizing the bounds of an uncertainty dualizes the constraints that they are. -/
theorem dualizeBounds_eq_ok {name : String} {slot : ℕ} {h : UncertaintyRef}
    {v : UncertaintyVariable ℝ} (hrun : dualizeBounds name slot l h v m = .ok l' m') :
    Dualizes m m' l l' (v.bounds.rows h) := by
  unfold dualizeBounds at hrun
  unfold Bounds.rows
  cases hlower : v.bounds.lower? with
  | none =>
    cases hupper : v.bounds.upper? with
    | none =>
      simp only [hlower, hupper, pure_bind, Step.pure_eq_ok_iff] at hrun
      obtain ⟨rfl, rfl⟩ := hrun
      exact .nil m l
    | some b =>
      simp only [hlower, hupper, pure_bind, Step.bind_eq_ok_iff, Step.ofExcept_eq_ok_iff] at hrun
      obtain ⟨dv, _, hdeclare, hrow, rfl⟩ := hrun
      exact dualizes_bound hdeclare hrow
  | some a =>
    simp only [hlower, Step.bind_eq_ok_iff, Step.ofExcept_eq_ok_iff] at hrun
    obtain ⟨dv, _, hdeclare, l₁, m₁, ⟨hrow, rfl⟩, hrest⟩ := hrun
    refine (dualizes_bound (s := .geq) hdeclare hrow).append ?_
    cases hupper : v.bounds.upper? with
    | none =>
      rw [hupper, Step.pure_eq_ok_iff] at hrest
      obtain ⟨rfl, rfl⟩ := hrest
      exact .nil _ _
    | some b =>
      simp only [hupper, Step.bind_eq_ok_iff, Step.ofExcept_eq_ok_iff] at hrest
      obtain ⟨dv, _, hdeclare, hrow, rfl⟩ := hrest
      exact dualizes_bound hdeclare hrow

/-- Dualizing an alternative dualizes its region. -/
theorem dualizeAlternative_eq_ok {model : RobustModel ℝ} {name : String} {set : ConstraintSetRef}
    (hrun : dualizeAlternative model name set m = .ok l m') :
    ∃ alternative, model.uncertainty.alternativeAt set = .ok alternative ∧
      Dualizes m m' (.zero model.numUncertainties) l (model.uncertainty.region alternative) := by
  simp only [dualizeAlternative, Step.bind_eq_ok_iff, Step.ofExcept_eq_ok_iff] at hrun
  obtain ⟨alternative, _, ⟨halt, rfl⟩, l₁, m₁, hconstraints, hbounds⟩ := hrun
  have hfirst : Dualizes m m₁ _ l₁
      (alternative.constraints.flatMap fun c => [c.toRawConstraint]) :=
    .foldlM (fun _ _ _ _ _ hc => dualizeConstraint_eq_ok hc) hconstraints
  have hsecond : Dualizes m₁ m' _ l
      (model.uncertainty.vars.entries.flatMap fun e => e.2.bounds.rows e.1) :=
    .foldlM (fun _ _ _ _ _ hb => dualizeBounds_eq_ok hb) hbounds
  refine ⟨alternative, halt, ?_⟩
  rw [UncertaintySet.region, List.map_eq_flatMap]
  exact hfirst.append hsecond

end AdjustableRobust.Counterpart
