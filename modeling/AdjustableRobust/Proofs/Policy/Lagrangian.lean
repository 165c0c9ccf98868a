import AdjustableRobust.Policy.Counterpart
import AdjustableRobust.Proofs.Duality.Lagrangian

/-!
# Rows of counterparts

What the counterpart of an expression adds to a Lagrangian: objective terms, unless their
coefficients are zero, and rows over the uncertainties with their duals.
-/

namespace AdjustableRobust

namespace Counterpart

/-- Terms with a zero coefficient may be left out of the objective. -/
theorem valueAt_addObjectiveTerm (l : Lagrangian ℝ) (c : ℝ) (v : ConicRef) (ω : ConicRef → ℝ)
    (u : ℕ → ℝ) : (addObjectiveTerm l c v).valueAt ω u = l.valueAt ω u + c * ω v := by
  unfold addObjectiveTerm
  split
  · next hc =>
    have hz : c = 0 := by simpa using hc
    rw [hz, zero_mul, add_zero]
  · exact l.valueAt_addObjective c v ω u

/-- Terms of the objective leave the residuals alone. -/
theorem residuals_addObjectiveTerm (l : Lagrangian ℝ) (c : ℝ) (v : ConicRef) :
    (addObjectiveTerm l c v).residuals = l.residuals := by
  unfold addObjectiveTerm
  split <;> rfl

/-- A term of the objective, if there is one. -/
theorem growsBy_addObjectiveTerm (l : Lagrangian ℝ) (c : ℝ) (v : ConicRef) :
    l.GrowsBy (addObjectiveTerm l c v) fun ω _ => c * ω v :=
  ⟨by rw [residuals_addObjectiveTerm], valueAt_addObjectiveTerm l c v⟩

/-- A row is added with its dual. -/
theorem addRow_eq_ok {row : AffineExpr ℝ UncertaintyRef} {dv : ConicRef} {l l' : Lagrangian ℝ}
    (hrun : addRow l row dv = .ok l') : l.Gains l' [row] [dv] :=
  Lagrangian.gains_of_foldlM (fun _ _ _ ht => ht) (growsBy_addObjectiveTerm l _ dv) hrun

/-- Rows are added with their duals. -/
theorem foldlM_addRow_eq_ok {rows : List (AffineExpr ℝ UncertaintyRef)}
    {duals : List ConicRef} {l l' : Lagrangian ℝ} (hlength : duals.length = rows.length)
    (hrun : (rows.zip duals).foldlM (fun l (row, du) => addRow l row du) l = .ok l') :
    l.Gains l' rows duals := by
  induction rows generalizing l duals with
  | nil =>
    obtain rfl := List.length_eq_zero_iff.1 hlength
    rw [List.zip_nil_left, List.foldlM_nil, pure_eq_ok_iff] at hrun
    exact hrun ▸ .nil l
  | cons row rows ih =>
    cases duals with
    | nil => cases hlength
    | cons du duals =>
      rw [List.zip_cons_cons, List.foldlM_cons, bind_eq_ok_iff] at hrun
      obtain ⟨l₁, hstep, hrest⟩ := hrun
      exact (addRow_eq_ok hstep).append (ih (Nat.succ.inj hlength) hrest)

end Counterpart

end AdjustableRobust
