import AdjustableRobust.Proofs.Uncertainty.Region

/-!
# Adding constraints to alternatives

A constraint is added behind those of a single alternative; variables and other alternatives stay
as they are. With the constraint of a ball or a budget and variables without bounds, realizations
are the vectors whose norm is at most the radius.
-/

namespace AdjustableRobust

namespace UncertaintySet

variable {s s' : UncertaintySet ℝ} {name : String} {r : List ℝ} {b : ℝ}

/-- A constraint is added to the alternative at the position of the handle. -/
theorem addConstraintTo_eq_ok {h : ConstraintSetRef}
    {c : RawConstraint (ConicExpr ℝ UncertaintyRef)}
    (hrun : s.addConstraintTo h name c = .ok s') :
    s' = { s with alternatives :=
      { s.alternatives with items := s.alternatives.items.modify h.slot (·.add name c) } } := by
  simp only [addConstraintTo, Store.modify, bind_eq_ok_iff, pure_eq_ok_iff, liftM_eq_ok_iff]
    at hrun
  obtain ⟨_, ⟨_, -, rfl⟩, rfl⟩ := hrun
  rfl

/-- Without a handle the constraint is added to the last alternative. -/
theorem exists_addConstraintTo {c : RawConstraint (ConicExpr ℝ UncertaintyRef)}
    (hrun : s.addConstraint name c = .ok s') :
    ∃ h : ConstraintSetRef, h.slot = s.alternatives.size - 1 ∧
      s.addConstraintTo h name c = .ok s' := by
  rw [addConstraint, bind_eq_ok_iff] at hrun
  obtain ⟨h, hh, hadd⟩ := hrun
  rw [liftM_eq_ok_iff, Store.handleAt] at hh
  split at hh
  · cases hh
  · obtain rfl := Except.ok.inj hh
    exact ⟨_, rfl, hadd⟩

/-- A constraint is added to the only alternative. -/
theorem addConstraint_eq_ok {alternative : ConstraintSet ℝ}
    {c : RawConstraint (ConicExpr ℝ UncertaintyRef)}
    (hsingle : s.alternatives.items = [alternative]) (hrun : s.addConstraint name c = .ok s') :
    s'.vars = s.vars ∧ s'.alternatives.items = [alternative.add name c] := by
  obtain ⟨h, hslot, hadd⟩ := exists_addConstraintTo hrun
  rw [Store.size, hsingle, List.length_singleton] at hslot
  rw [addConstraintTo_eq_ok hadd, hsingle, hslot]
  exact ⟨rfl, rfl⟩

end UncertaintySet

/-- The values of all handles of a store are those of the first positions. -/
theorem Store.map_bySlot_handles {κ : EntityKind} {β : Type} (s : Store κ β) (u : ℕ → ℝ) :
    s.handles.map (bySlot u) = (List.range s.size).map u := by
  rw [handles, List.map_map]
  rfl

/-- A list has its entries at its positions. -/
theorem map_entryAt_range {r : List ℝ} {n : ℕ} (hr : r.length = n) :
    (List.range n).map (entryAt r) = r := by
  refine List.ext_getElem (by simp [hr]) fun i _ hi => ?_
  simp [entryAt, List.getD_eq_getElem?_getD, hi]

/-! ## Balls and budgets -/

/-- The norm that a ball or a budget set bounds. -/
def SpecialSetType.norm? : SpecialSetType → Option NormKind
  | .ball => some .two
  | .budget => some .one
  | .box | .other => none

/-- The constraint that the norm of all variables of a set is at most the radius. -/
noncomputable def UncertaintySet.normBall (s : UncertaintySet ℝ) (norm : NormKind) (b : ℝ) :
    RawConstraint (ConicExpr ℝ UncertaintyRef) :=
  (ConicExpr.normOf norm s.vars.handles).relateValue .leq b

namespace UncertaintySet

variable {s s' : UncertaintySet ℝ} {name : String} {r : List ℝ} {b : ℝ} {norm : NormKind}

/-- Only shapes that bound a norm have a constraint, which bounds this norm. -/
theorem addSpecialConstraint_eq_ok {type : SpecialSetType}
    (hempty : s.alternatives.items = [.empty]) (hrun : s.addSpecialConstraint type b = .ok s') :
    ∃ norm name, type.norm? = some norm ∧ s'.vars = s.vars ∧
      s'.alternatives.items = [⟨[.named name (s.normBall norm b)]⟩] := by
  cases type with
  | ball => exact ⟨.two, _, rfl, addConstraint_eq_ok hempty hrun⟩
  | budget => exact ⟨.one, _, rfl, addConstraint_eq_ok hempty hrun⟩
  | box => cases hrun
  | other => cases hrun

/-- The norm of the first values is at most the radius. -/
theorem holds_normBall_iff {u : ℕ → ℝ} :
    (s.normBall norm b).Holds (bySlot u) ↔
      norm.apply ((List.range s.numVariables).map u) ≤ b := by
  rw [← sub_nonpos, sub_eq_add_neg]
  simp [normBall, RawConstraint.Holds, ConicExpr.relateValue, ConicExpr.addConstant,
    ConicExpr.normOf, ConicExpr.eval, ConstraintSense.Holds, Store.map_bySlot_handles,
    numVariables]

/-- Without bounds the region is that of the alternative. -/
theorem region_eq_of_free
    (hfree : ∀ v ∈ s.vars.items, v.bounds.lower? = none ∧ v.bounds.upper? = none)
    (alternative : ConstraintSet ℝ) :
    s.region alternative = alternative.constraints.map (·.toRawConstraint) := by
  rw [region, List.append_right_eq_self, List.flatMap_eq_nil_iff]
  intro e he
  obtain ⟨i, hi, -⟩ := Store.mem_entries_iff.1 he
  obtain ⟨hlower, hupper⟩ := hfree e.2 (List.mem_of_getElem? hi)
  simp [Bounds.rows, hlower, hupper]

/-- The norm is about variables of the set. -/
theorem slot_lt_of_mem_vars_normBall {v : UncertaintyRef}
    (hv : v ∈ (s.normBall norm b).expression.vars) : v.slot < s.numVariables := by
  have hmem : v ∈ s.vars.handles := by
    simpa [normBall, ConicExpr.relateValue, ConicExpr.addConstant, ConicExpr.normOf,
      ConicExpr.vars] using hv
  obtain ⟨i, hi, rfl⟩ := List.mem_map.1 hmem
  exact List.mem_range.1 hi

/-- Without bounds, realizations of a ball are the vectors in it. -/
theorem realizes_normBall_iff
    (hfree : ∀ v ∈ s.vars.items, v.bounds.lower? = none ∧ v.bounds.upper? = none) :
    s.Realizes ⟨[.named name (s.normBall norm b)]⟩ r ↔
      r.length = s.numVariables ∧ norm.apply r ≤ b := by
  rw [realizes_iff, region_eq_of_free hfree]
  refine and_congr_right fun hr => ?_
  simp only [List.forall_mem_singleton, List.map_cons, List.map_nil, Constraint.named,
    holds_normBall_iff, map_entryAt_range hr]
  exact and_iff_right fun _ => slot_lt_of_mem_vars_normBall

end UncertaintySet

end AdjustableRobust
