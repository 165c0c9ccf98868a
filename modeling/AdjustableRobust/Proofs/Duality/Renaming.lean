import AdjustableRobust.Proofs.Duality.Dualization
import AdjustableRobust.Proofs.Expression.Renaming

/-!
# Duals of renamed constraints

Duals look at variables through their positions only. When the variables of constraints are replaced
by others at the same positions, the constraints have the same duals: as many of them, within the
same bounds, and with the same weighted sums. Minimizations that differ by such a replacement
therefore have the same dual.
-/

namespace AdjustableRobust

variable {κ κ' : EntityKind} {g : Handle κ → Handle κ'}

namespace RawConstraint

variable {c : RawConstraint (ConicExpr ℝ (Handle κ))}

@[simp] theorem rows_mapVars : (c.mapVars g).rows = c.rows.map (·.mapVars g) := by
  obtain ⟨sense, ⟨normed?, affine⟩⟩ := c
  cases normed? <;> rfl

@[simp] theorem dualBounds_mapVars : (c.mapVars g).dualBounds = c.dualBounds := by
  rw [dualBounds, dualBounds, rows_mapVars, List.length_map]
  rfl

@[simp] theorem boundsRowDuals_mapVars_iff {y : ℝ} {zs : List ℝ} :
    (c.mapVars g).BoundsRowDuals y zs ↔ c.BoundsRowDuals y zs := by
  obtain ⟨sense, ⟨normed?, affine⟩⟩ := c
  cases normed? <;> simp [BoundsRowDuals, mapVars, ConicExpr.mapVars, NormedVector.mapVars]

/-- Weighted constraints are functions of the values by position. -/
theorem weighted_mapVars (hg : ∀ v, (g v).slot = v.slot) (y : ℝ) (zs : List ℝ) :
    (c.mapVars g).weighted y zs = c.weighted y zs := by
  funext u
  have hvalue : (fun v => bySlot u (g v)) = bySlot u := funext fun v => congrArg u (hg v)
  have haffine : (c.mapVars g).expression.affine = c.expression.affine.mapVars g := rfl
  simp [weighted, haffine, Function.comp_def, hvalue]

end RawConstraint

section Duals

variable {cs : List (RawConstraint (ConicExpr ℝ (Handle κ)))} {ds : List Dual}

/-- The same number of duals. -/
theorem fitDuals_mapVars_iff : FitDuals (cs.map (·.mapVars g)) ds ↔ FitDuals cs ds := by
  simp [FitDuals, List.forall₂_map_left_iff]

/-- The same bounds on the duals of rows. -/
theorem boundDuals_mapVars_iff : BoundDuals (cs.map (·.mapVars g)) ds ↔ BoundDuals cs ds := by
  simp [BoundDuals, List.forall₂_map_left_iff]

/-- The same bounds on all duals. -/
theorem flatMap_dualBounds_mapVars :
    (cs.map (·.mapVars g)).flatMap (·.dualBounds) = cs.flatMap (·.dualBounds) := by
  simp [List.flatMap_map]

/-- The same weighted sums. -/
theorem weightedSum_mapVars (hg : ∀ v, (g v).slot = v.slot) :
    weightedSum (cs.map (·.mapVars g)) ds = weightedSum cs ds := by
  funext u
  simp [weightedSum, List.zipWith_map_left, RawConstraint.weighted_mapVars hg]

end Duals

namespace AppendsDual

variable {m m' n n' : ConicModel ℝ} {o o' : AffineExpr ℝ ConicRef} {ω η : ConicRef → ℝ}
variable {cs : List (RawConstraint (ConicExpr ℝ (Handle κ)))}
variable {f f' : (ConicRef → ℝ) → (ℕ → ℝ) → ℝ}

/-- Where the dual of minimizing the same function, up to the names of variables, has been appended,
the same values satisfy the appended constraints, and their objective is the same. -/
theorem agree (h : AppendsDual m m' o cs f) (h' : AppendsDual n n' o' (cs.map (·.mapVars g)) f')
    (hg : ∀ v, (g v).slot = v.slot) (hf : f ω = f' η)
    (hvalues : m.addedValues m' ω = n.addedValues n' η) :
    ((∀ k ∈ m'.constraints.drop m.constraints.length, k.toRawConstraint.Holds ω) ↔
      ∀ k ∈ n'.constraints.drop n.constraints.length, k.toRawConstraint.Holds η) ∧
    o.eval ω = o'.eval η := by
  obtain ⟨ds, hfit, hread, hconstraints, hobjective⟩ := h.duals ω
  obtain ⟨hconstraints', hobjective'⟩ :=
    h'.of_values (fitDuals_mapVars_iff.2 hfit) (hvalues.symm.trans hread)
  rw [boundDuals_mapVars_iff, weightedSum_mapVars hg, ← hf] at hconstraints'
  rw [weightedSum_mapVars hg, ← hf] at hobjective'
  exact ⟨hconstraints.trans hconstraints'.symm, hobjective.trans hobjective'.symm⟩

end AppendsDual

end AdjustableRobust
