import AdjustableRobust.Proofs.Expression.Value

/-!
# Renaming variables

Replacing every variable by another one succeeds when all variables that occur have a new name. The
value is the one that the expression has when each variable takes the value of its new name.
-/

namespace AdjustableRobust

variable {V W : Type} {f : V → Except (ModelError ℝ) W} {g : V → W}

namespace LinearExpr

/-- The same expression in other variables. -/
def mapVars (g : V → W) (e : LinearExpr ℝ V) : LinearExpr ℝ W :=
  ⟨e.terms.map fun t => ⟨t.scale, g t.var⟩⟩

/-- Renaming succeeds when all variables that occur have a new name. -/
theorem rename_eq_ok_mapVars {e : LinearExpr ℝ V} (h : ∀ v ∈ e.vars, f v = .ok (g v)) :
    e.rename f = .ok (e.mapVars g) := by
  simp only [rename, bind_eq_ok_iff, pure_eq_ok_iff]
  refine ⟨_, mapM_eq_ok_iff.2 ?_, rfl⟩
  rw [List.forall₂_map_right_iff, List.forall₂_same]
  intro t ht
  rw [h t.var (List.mem_map_of_mem ht)]
  rfl

@[simp] theorem eval_mapVars (e : LinearExpr ℝ V) (ω : W → ℝ) :
    (e.mapVars g).eval ω = e.eval fun v => ω (g v) := by
  simp [mapVars, eval, Function.comp_def]

@[simp] theorem vars_mapVars (e : LinearExpr ℝ V) : (e.mapVars g).vars = e.vars.map g := by
  simp [mapVars, vars, Function.comp_def]

end LinearExpr

namespace AffineExpr

/-- The same expression in other variables. -/
def mapVars (g : V → W) (e : AffineExpr ℝ V) : AffineExpr ℝ W := ⟨e.constant, e.linear.mapVars g⟩

/-- Renaming succeeds when all variables that occur have a new name. -/
theorem rename_eq_ok_mapVars {e : AffineExpr ℝ V} (h : ∀ v ∈ e.vars, f v = .ok (g v)) :
    e.rename f = .ok (e.mapVars g) := by
  simp only [rename, bind_eq_ok_iff, pure_eq_ok_iff]
  exact ⟨_, LinearExpr.rename_eq_ok_mapVars h, rfl⟩

@[simp] theorem eval_mapVars (e : AffineExpr ℝ V) (ω : W → ℝ) :
    (e.mapVars g).eval ω = e.eval fun v => ω (g v) := by
  simp [mapVars, eval]

@[simp] theorem vars_mapVars (e : AffineExpr ℝ V) : (e.mapVars g).vars = e.vars.map g :=
  e.linear.vars_mapVars

end AffineExpr

namespace NormedVector

/-- The same vector in other variables. -/
def mapVars (g : V → W) (n : NormedVector ℝ V) : NormedVector ℝ W :=
  ⟨n.norm, n.rows.map (·.mapVars g)⟩

/-- Renaming succeeds when all variables that occur have a new name. -/
theorem rename_eq_ok_mapVars {n : NormedVector ℝ V} (h : ∀ v ∈ n.vars, f v = .ok (g v)) :
    n.rename f = .ok (n.mapVars g) := by
  simp only [rename, bind_eq_ok_iff, pure_eq_ok_iff]
  refine ⟨_, mapM_eq_ok_iff.2 ?_, rfl⟩
  rw [List.forall₂_map_right_iff, List.forall₂_same]
  exact fun row hrow => AffineExpr.rename_eq_ok_mapVars fun v hv =>
    h v (List.mem_flatMap.2 ⟨row, hrow, hv⟩)

@[simp] theorem vars_mapVars (n : NormedVector ℝ V) : (n.mapVars g).vars = n.vars.map g := by
  simp [mapVars, vars, List.flatMap_map, List.map_flatMap]

end NormedVector

namespace ConicExpr

/-- The same expression in other variables. -/
def mapVars (g : V → W) (e : ConicExpr ℝ V) : ConicExpr ℝ W :=
  ⟨e.normed?.map (·.mapVars g), e.affine.mapVars g⟩

/-- Renaming succeeds when all variables that occur have a new name. -/
theorem rename_eq_ok_mapVars {e : ConicExpr ℝ V} (h : ∀ v ∈ e.vars, f v = .ok (g v)) :
    e.rename f = .ok (e.mapVars g) := by
  obtain ⟨normed?, affine⟩ := e
  have haffine := AffineExpr.rename_eq_ok_mapVars fun v hv => h v (List.mem_append_right _ hv)
  cases normed? with
  | none => exact bind_eq_ok_iff.2 ⟨none, rfl, bind_eq_ok_iff.2 ⟨_, haffine, rfl⟩⟩
  | some n =>
    have hnormed := NormedVector.rename_eq_ok_mapVars fun v hv => h v (List.mem_append_left _ hv)
    refine bind_eq_ok_iff.2 ⟨some (n.mapVars g), ?_, bind_eq_ok_iff.2 ⟨_, haffine, rfl⟩⟩
    rw [Option.mapM_some, hnormed]
    rfl

@[simp] theorem vars_mapVars (e : ConicExpr ℝ V) : (e.mapVars g).vars = e.vars.map g := by
  obtain ⟨normed?, affine⟩ := e
  cases normed? <;> simp [mapVars, vars]

end ConicExpr

/-- The same constraint in other variables. -/
def RawConstraint.mapVars (g : V → W) (c : RawConstraint (ConicExpr ℝ V)) :
    RawConstraint (ConicExpr ℝ W) :=
  ⟨c.sense, c.expression.mapVars g⟩

end AdjustableRobust
