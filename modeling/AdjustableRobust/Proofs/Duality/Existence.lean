import AdjustableRobust.Proofs.Duality.ConicDual
import AdjustableRobust.Proofs.Success

/-!
# Existence of duals

A continuous model without exclusive groups has a dual when it has an objective and refers to its
own variables only.
-/

namespace AdjustableRobust

namespace Lagrangian

variable {κ : EntityKind} {l : Lagrangian ℝ} {n : ℕ}

/-- The Lagrangian has residuals for the given number of variables. -/
def HasSize (n : ℕ) (l : Lagrangian ℝ) : Prop := l.residuals.length = n

/-- A residual that exists can be changed. -/
theorem modifyResidual_yields {h : Handle κ} (hl : l.HasSize n) (hh : h.slot < n)
    (f : AffineExpr ℝ ConicRef → AffineExpr ℝ ConicRef) :
    Yields (l.modifyResidual h f) (HasSize n) := by
  have hlt : h.slot < l.residuals.length := hl ▸ hh
  refine .bind_ok (h.lookup_of_lt _ hlt) (.pure ?_)
  exact (List.length_modify _ _ _).trans hl

end Lagrangian

namespace ConicModel

variable {m : ConicModel ℝ}

/-- A handle that is accepted has a variable. -/
theorem Declares.exists_variableAt {v : ConicRef} (hv : m.Declares v) :
    ∃ x, m.variableAt v = .ok x := by
  obtain ⟨ho, he, hs⟩ := declares_iff.1 hv
  exact ⟨_, liftM_eq_ok_iff.2
    ((Store.get_eq_ok_iff _ _ _).2 ⟨ho, he, List.getElem?_eq_getElem hs⟩)⟩

namespace DualDraft

variable {d : DualDraft ℝ}

/-- The draft has residuals for all variables of the model. -/
def Complete (m : ConicModel ℝ) (d : DualDraft ℝ) : Prop := d.lagrangian.HasSize m.numVariables

private theorem checked_yields {l : Lagrangian ℝ} {v : ConicRef} (hl : l.HasSize m.numVariables)
    (hv : m.Declares v) (f : AffineExpr ℝ ConicRef → AffineExpr ℝ ConicRef) :
    Yields (do
      let _ ← m.variableAt v
      l.modifyResidual v f : Except (ModelError ℝ) _) (Lagrangian.HasSize m.numVariables) := by
  obtain ⟨x, hx⟩ := hv.exists_variableAt
  obtain ⟨l', hl', hsize⟩ := Lagrangian.modifyResidual_yields hl (declares_iff.1 hv).2.2 f
  exact ⟨l', bind_eq_ok_iff.2 ⟨x, hx, liftM_eq_ok_iff.2 hl'⟩, hsize⟩

private theorem addRow_yields {row : AffineExpr ℝ ConicRef} {dv : ConicRef} (hd : d.Complete m)
    (hrow : ∀ v ∈ row.vars, m.Declares v) : Yields (addRow m d row dv) (Complete m) := by
  refine Yields.bind (P := Lagrangian.HasSize m.numVariables) (.foldlM (fun l hl t ht => ?_) hd)
    fun l hl => .pure hl
  exact checked_yields hl (hrow _ (List.mem_map_of_mem ht)) _

private theorem addConstraint_yields {c : ConicConstraint ℝ} {position : ℕ} (hd : d.Complete m)
    (hc : ∀ v ∈ c.expression.vars, m.Declares v) :
    Yields (addConstraint m d c position) (Complete m) := by
  refine Yields.bind (addRow_yields hd fun v hv => hc v (List.mem_append_right _ hv)) fun d hd => ?_
  cases hn : c.expression.normed? with
  | none => exact .pure hd
  | some n =>
    refine Yields.bind (P := fun s => s.1.Complete m) (.foldlM (fun s hs x hx => ?_) hd)
      fun s hs => .pure hs
    refine Yields.bind (addRow_yields hs fun v hv => ?_) fun d hd => .pure hd
    have hmem : v ∈ n.vars := List.mem_flatMap.2 ⟨x.1, List.fst_mem_of_mem_zipIdx hx, hv⟩
    exact hc v (List.mem_append_left _ (by simpa [hn] using hmem))

private theorem addBounds_yields {h : ConicRef} {v : ConicVariable ℝ} (hd : d.Complete m)
    (hh : h.slot < m.numVariables) : Yields (addBounds d h v) (Complete m) := by
  rw [addBounds_eq_foldlM]
  refine .foldlM (fun d hd p _ => ?_) hd
  have hrow : ∀ {l : Lagrangian ℝ} {dv : ConicRef}, l.HasSize m.numVariables →
      Yields (liftM (l.addResidual h 1 dv) : Except (ModelError ℝ) _)
        (Lagrangian.HasSize m.numVariables) := fun hl => by
    obtain ⟨l', hl', hsize⟩ := Lagrangian.modifyResidual_yields hl hh (·.addTerm 1 _)
    exact ⟨l', liftM_eq_ok_iff.2 hl', hsize⟩
  exact Yields.bind (hrow hd) fun l hl => .pure hl

end DualDraft

/-- The dual of a continuous model exists when there is an objective and all variables are those of
the model. -/
theorem dualize_yields {o : ConicObjective ℝ} (owner : OwnerId)
    (hcontinuous : m.isContinuous = true) (hgroups : m.exclusiveGroups = [])
    (ho : m.objective = .ok o) (hown : ∀ c ∈ m.constraints, ∀ v ∈ c.expression.vars, m.Declares v)
    (hobjective : ∀ v ∈ o.expression.vars, m.Declares v) :
    Yields (m.dualize owner) fun _ => True := by
  unfold dualize
  rw [if_neg (by simp [hcontinuous, hgroups])]
  refine .bind_ok ho ?_
  refine Yields.bind (P := DualDraft.Complete m) (.foldlM (fun d hd x hx => ?_)
    (List.length_replicate ..)) fun d hd => ?_
  · exact DualDraft.addConstraint_yields hd (hown _ (List.fst_mem_of_mem_zipIdx hx))
  refine Yields.bind (P := DualDraft.Complete m) (.foldlM (fun d hd x hx => ?_) hd) fun d hd => ?_
  · exact DualDraft.addBounds_yields hd (Store.slot_lt_of_mem_entries hx)
  refine Yields.bind (P := Lagrangian.HasSize m.numVariables) (.foldlM (fun l hl t ht => ?_) hd)
    fun l hl => .pure trivial
  exact DualDraft.checked_yields hl (hobjective _ (List.mem_map_of_mem ht)) _

end ConicModel

end AdjustableRobust
