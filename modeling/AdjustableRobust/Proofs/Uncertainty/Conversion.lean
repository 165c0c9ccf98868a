import AdjustableRobust.Proofs.Expression.Renaming
import AdjustableRobust.Proofs.Uncertainty.Region

/-!
# Uncertainty sets as conic models

A set with a single alternative that refers to its own uncertainties only becomes a conic model. It
has a variable for each uncertainty, with the same bounds and at the same position, and the
constraints of the alternative in these variables.
-/

namespace AdjustableRobust

/-- The variable of a conic model that stands for an uncertainty. -/
def UncertaintyVariable.toConic (v : UncertaintyVariable ℝ) : ConicVariable ℝ :=
  ⟨v.name, v.bounds, .continuous, none, none⟩

namespace UncertaintySet

variable {s : UncertaintySet ℝ} {set : ConstraintSet ℝ} {owner : OwnerId}

/-- The variables of the conic model of a set. -/
def conicVars (s : UncertaintySet ℝ) (owner : OwnerId) : Store .conic (ConicVariable ℝ) :=
  ⟨owner, 0, s.vars.items.map (·.toConic)⟩

/-- The variable of the conic model at the position of an uncertainty. -/
def conicRef (owner : OwnerId) (v : UncertaintyRef) : ConicRef := ⟨owner, 0, v.slot⟩

/-- The conic model of a set with a single alternative. -/
def conicModel (s : UncertaintySet ℝ) (set : ConstraintSet ℝ) (owner : OwnerId) : ConicModel ℝ :=
  ⟨s!"Uncertainty{s.modelName}", s.conicVars owner,
    set.constraints.map fun c => .named c.name (c.toRawConstraint.mapVars (conicRef owner)), [], []⟩

private theorem foldl_addVariable (vs : List (UncertaintyVariable ℝ)) (m : ConicModel ℝ) :
    vs.foldl (fun m v => (m.addVariable v.name v.bounds).2) m =
      { m with vars := { m.vars with items := m.vars.items ++ vs.map (·.toConic) } } := by
  induction vs generalizing m with
  | nil => simp
  | cons v vs ih =>
    rw [List.foldl_cons, ih, List.map_cons]
    simp [ConicModel.addVariable, ConicModel.addVariableOfType, ConicModel.push, Store.add,
      Store.addWith, UncertaintyVariable.toConic]

private theorem foldlM_addConstraint {f : UncertaintyRef → Except (ModelError ℝ) ConicRef}
    {g : UncertaintyRef → ConicRef} {cs : List (UncertaintyConstraint ℝ)} (m : ConicModel ℝ)
    (h : ∀ c ∈ cs, ∀ v ∈ c.expression.vars, f v = .ok (g v)) :
    cs.foldlM (fun (m : ConicModel ℝ) c => do
      let e ← c.expression.rename f
      return m.addConstraint c.name ⟨c.sense, e⟩) m = .ok { m with
        constraints := m.constraints ++
          cs.map fun c => .named c.name (c.toRawConstraint.mapVars g) } := by
  induction cs generalizing m with
  | nil =>
    rw [List.map_nil, List.append_nil]
    rfl
  | cons c cs ih =>
    rw [List.forall_mem_cons] at h
    rw [List.foldlM_cons, ConicExpr.rename_eq_ok_mapVars h.1]
    refine (ih (m.addConstraint c.name ⟨c.sense, c.expression.mapVars g⟩) h.2).trans ?_
    rw [ConicModel.addConstraint, List.append_assoc]
    rfl

/-- A set with a single alternative that refers to its own uncertainties has a conic model. -/
theorem toConicModel_eq_ok (hsingle : s.single = .ok set)
    (hown : ∀ c ∈ set.constraints, ∀ v ∈ c.expression.vars, ∃ x, s.variableAt v = .ok x)
    (owner : OwnerId) : s.toConicModel owner = .ok (s.conicModel set owner) := by
  unfold toConicModel
  rw [hsingle]
  refine (foldlM_addConstraint (g := conicRef owner) _ fun c hc v hv => ?_).trans ?_
  · obtain ⟨x, hx⟩ := hown c hc v hv
    have hlt : v.slot < s.vars.items.length := slot_lt_of_variableAt hx
    rw [hx, foldl_addVariable]
    refine liftM_eq_ok_iff.2 (Handle.lookup_eq_ok_iff.2 ?_)
    simp [Store.handles, Store.size, Store.handleFor, ConicModel.new, Store.new, conicRef, hlt]
  · rw [foldl_addVariable]
    rfl

end UncertaintySet

end AdjustableRobust
