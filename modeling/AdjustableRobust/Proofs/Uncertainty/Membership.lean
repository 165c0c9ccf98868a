import AdjustableRobust.Proofs.Uncertainty.ActiveSums

/-!
# Members of uncertainty sets

Values of the uncertainties are members of a set when they respect all bounds and all constraints
of some alternative hold. What the set says about itself, read off the form of its constraints and
its bounds, is right about its members: whatever was added in whatever order, a box consists of the
values within the bounds, balls and budget sets of those whose norm is at most the budget as well,
and a set that is said to be rotationally invariant or symmetric keeps its members when their values
are permuted or change their signs.
-/

namespace AdjustableRobust

/-- Only a decided question is settled with yes. -/
theorem Diagnostics.settle_fst_iff {d : Diagnostics} {v : Verdict} :
    (d.settle v).1 = true ↔ v = .decided true := by
  cases v <;> simp [settle]

/-- Where no variable is refused, the check of an alternative says whether its constraints hold. -/
theorem ConstraintSet.satisfied_total (s : ConstraintSet ℝ) (ω : UncertaintyRef → ℝ) :
    ∃ b, s.satisfied (.total ω) 0 = .ok b ∧
      (b = true ↔ ∀ c ∈ s.constraints, c.toRawConstraint.Holds ω) := by
  unfold satisfied
  induction s.constraints with
  | nil => exact ⟨true, rfl, by simp⟩
  | cons c cs ih =>
    obtain ⟨b, hb, hcs⟩ := ih
    have hvalue := (ConicExpr.value_eq_ok_iff (e := c.expression) (Assignment.total_within ω)).2
      ⟨fun _ _ => rfl, rfl⟩
    have hfeasible : c.feasible (.total ω) 0 =
        .ok (c.sense.holds (c.expression.eval ω) 0) := by
      rw [Constraint.feasible, hvalue]
      rfl
    have hholds := ConstraintSense.holds_zero_iff c.sense (c.expression.eval ω)
    rw [satisfied.go, hfeasible, List.forall_mem_cons]
    cases hc : c.sense.holds (c.expression.eval ω) 0 with
    | true => exact ⟨b, hb, by rw [hcs, RawConstraint.Holds, ← hholds, hc, eq_self, true_and]⟩
    | false =>
      refine ⟨false, rfl, ?_⟩
      rw [RawConstraint.Holds, ← hholds, hc]
      simp

namespace Bounds

variable {b : Bounds ℝ} {x : ℝ}

/-- Symmetric bounds admit values of both signs. -/
theorem admits_neg (h : b.isSymmetric = true) (hx : b.admits x = true) : b.admits (-x) = true := by
  obtain ⟨hlower, hupper⟩ := (admits_iff b x).1 hx
  rw [isSymmetric] at h
  rw [admits_iff]
  split at h
  · next hl hu => simp [hl, hu]
  · next l u hl hu =>
    rw [Scalar.beq_real, decide_eq_true_eq] at h
    rw [hl, hu]
    have hlx := hlower l hl
    have hxu := hupper u hu
    constructor
    · rintro _ ⟨⟩
      linarith
    · rintro _ ⟨⟩
      linarith
  · cases h

end Bounds

namespace UncertaintySet

variable {s : UncertaintySet ℝ} {ω ω' : UncertaintyRef → ℝ}

/-! ## Membership -/

/-- The values respect all bounds. -/
def Within (s : UncertaintySet ℝ) (ω : UncertaintyRef → ℝ) : Prop :=
  ∀ e ∈ s.vars.entries, e.2.bounds.admits (ω e.1) = true

/-- The values that belong to the set when it is asked without tolerance. -/
def members (s : UncertaintySet ℝ) : Set (UncertaintyRef → ℝ) :=
  {ω | s.contains (.total ω) 0 = .ok true}

private theorem boundsRespected_total (ω : UncertaintyRef → ℝ)
    (vs : List (UncertaintyRef × UncertaintyVariable ℝ)) :
    ∃ b, boundsRespected (.total ω) 0 vs = .ok b ∧
      (b = true ↔ ∀ e ∈ vs, e.2.bounds.admits (ω e.1) = true) := by
  induction vs with
  | nil => exact ⟨true, rfl, by simp⟩
  | cons e vs ih =>
    obtain ⟨b, hb, hvs⟩ := ih
    obtain ⟨h, v⟩ := e
    rw [List.forall_mem_cons, ← hvs]
    cases hadmits : v.bounds.admits (ω h) with
    | true =>
      refine ⟨b, ?_, by simp⟩
      change (if v.bounds.violated 0 (ω h) = true then _ else _) = _
      rwa [Bounds.violated_zero, hadmits]
    | false =>
      refine ⟨false, ?_, by simp⟩
      change (if v.bounds.violated 0 (ω h) = true then _ else _) = _
      rw [Bounds.violated_zero, hadmits]
      rfl

private theorem someSatisfied_total_iff (ω : UncertaintyRef → ℝ) (sets : List (ConstraintSet ℝ)) :
    someSatisfied (.total ω) 0 sets = .ok true ↔
      ∃ a ∈ sets, ∀ c ∈ a.constraints, c.toRawConstraint.Holds ω := by
  induction sets with
  | nil => simp [someSatisfied]
  | cons a sets ih =>
    obtain ⟨b, hb, ha⟩ := a.satisfied_total ω
    rw [someSatisfied, hb, List.exists_mem_cons_iff, ← ha, ← ih]
    cases b with
    | true => exact iff_of_true rfl (.inl rfl)
    | false => simp [bind, Except.bind]

/-- Members respect all bounds, and all constraints of some alternative hold. -/
theorem mem_members_iff : ω ∈ s.members ↔
    s.Within ω ∧ ∃ a ∈ s.alternatives.items, ∀ c ∈ a.constraints, c.toRawConstraint.Holds ω := by
  obtain ⟨b, hb, hbounds⟩ := boundsRespected_total ω s.vars.entries
  rw [members, Set.mem_ofPred_eq, contains, hb, Within, ← hbounds, ← someSatisfied_total_iff]
  cases b <;> simp [bind, Except.bind, pure, Except.pure]

/-! ## Members of known shapes -/

/-- The members of a box are the values within its bounds. -/
theorem members_of_box (h : s.specialType = .box) : s.members = {ω | s.Within ω} := by
  obtain ⟨a, ha⟩ := exists_single_of_specialType (h.trans_ne (by decide))
  obtain ⟨hempty, -⟩ := (specialType_eq_box_iff ha).1 h
  ext ω
  simp [mem_members_iff, ha, hempty]

/-- Balls and budget sets have a single alternative, which bounds their norm. -/
theorem exists_normBall {norm : NormKind} (h : s.specialType.norm? = some norm) :
    ∃ a b, s.alternatives.items = [a] ∧ a.normBall? s.vars.handles = some (norm, b) := by
  have hshape : s.specialType ≠ .other := by
    intro hother
    rw [hother] at h
    cases h
  obtain ⟨a, ha⟩ := exists_single_of_specialType hshape
  have hball : ∃ b, a.normBall? s.vars.handles = some (norm, b) := by
    cases htype : s.specialType <;> rw [htype] at h <;> cases h
    · exact (specialType_eq_ball_iff ha).1 htype
    · exact (specialType_eq_budget_iff ha).1 htype
  obtain ⟨b, hb⟩ := hball
  exact ⟨a, b, ha, hb⟩

/-- The members of a ball or a budget set are the values within its bounds whose norm is at most
the budget. -/
theorem members_of_norm {norm : NormKind} (h : s.specialType.norm? = some norm) :
    ∃ b, s.budget = .ok b ∧
      s.members = {ω | s.Within ω ∧ norm.apply (s.vars.handles.map ω) ≤ b} := by
  obtain ⟨a, b, ha, hb⟩ := exists_normBall h
  obtain ⟨-, c, hc, hholds⟩ := ConstraintSet.normBall?_eq_some hb
  refine ⟨b, budget_eq_ok ha hb, ?_⟩
  ext ω
  simp [mem_members_iff, ha, hc, hholds]

/-- What keeps the bounds and the norms of values, keeps the members of a set with a known
shape. -/
theorem mem_members_of_specialType (h : s.specialType ≠ .other) (hω : ω ∈ s.members)
    (hbounds : s.Within ω → s.Within ω')
    (hnorm : ∀ n : NormKind, n.apply (s.vars.handles.map ω') = n.apply (s.vars.handles.map ω)) :
    ω' ∈ s.members := by
  have hball (norm : NormKind) (htype : s.specialType.norm? = some norm) : ω' ∈ s.members := by
    obtain ⟨b, -, hmembers⟩ := members_of_norm htype
    rw [hmembers] at hω ⊢
    exact ⟨hbounds hω.1, (hnorm norm).trans_le hω.2⟩
  cases htype : s.specialType with
  | box =>
    rw [members_of_box htype] at hω ⊢
    exact hbounds hω
  | ball => exact hball .two (by rw [htype]; rfl)
  | budget => exact hball .one (by rw [htype]; rfl)
  | other => exact absurd htype h

private theorem within_of_perm (hequal : s.equalBounds = true)
    (hperm : (s.vars.handles.map ω').Perm (s.vars.handles.map ω)) (hω : s.Within ω) :
    s.Within ω' := by
  intro e he
  have hmem : ω' e.1 ∈ s.vars.handles.map ω := by
    rw [← hperm.mem_iff, ← Store.map_fst_entries]
    exact List.mem_map_of_mem (List.mem_map_of_mem he)
  rw [← Store.map_fst_entries, List.map_map] at hmem
  obtain ⟨e', he', hvalue⟩ := List.mem_map.1 hmem
  rw [← hvalue]
  exact admits_of_equalBounds hequal (Store.mem_items_of_mem_entries he')
    (Store.mem_items_of_mem_entries he) (hω e' he')

/-- What a set says about its shape is right about its members. In a box only the bounds matter, in
a ball or a budget set only the bounds and the norm of all values. When the set is said to be
rotationally invariant, all permutations of a member are members, and when it is said to be
symmetric, the opposite of a member is one. -/
theorem members_of_shape (s : UncertaintySet ℝ) (d : Diagnostics) :
    (s.specialType = .box → s.members = {ω | s.Within ω}) ∧
    (∀ norm, s.specialType.norm? = some norm → ∃ b, s.budget = .ok b ∧
      s.members = {ω | s.Within ω ∧ norm.apply (s.vars.handles.map ω) ≤ b}) ∧
    ((d.settle s.rotationalInvariance).1 = true → ∀ ω ∈ s.members, ∀ ω' : UncertaintyRef → ℝ,
      (s.vars.handles.map ω').Perm (s.vars.handles.map ω) → ω' ∈ s.members) ∧
    ((d.settle s.symmetry).1 = true → ∀ ω ∈ s.members, (fun h => -ω h) ∈ s.members) := by
  refine ⟨members_of_box, fun _ => members_of_norm, ?_, ?_⟩
  · intro hsettled ω hω ω' hperm
    rw [Diagnostics.settle_fst_iff, rotationalInvariance] at hsettled
    split at hsettled
    · cases hsettled
    · next htype =>
      exact mem_members_of_specialType htype hω
        (within_of_perm (Verdict.decided.inj hsettled) hperm) fun n => n.apply_perm hperm
  · intro hsettled ω hω
    rw [Diagnostics.settle_fst_iff, symmetry] at hsettled
    split at hsettled
    · cases hsettled
    · next htype =>
      have hsymmetric := List.all_eq_true.1 (Verdict.decided.inj hsettled)
      refine mem_members_of_specialType htype hω (fun hwithin e he => ?_) fun n => ?_
      · exact Bounds.admits_neg
          (hsymmetric _ (List.mem_map_of_mem (Store.mem_items_of_mem_entries he))) (hwithin e he)
      · have hneg := n.apply_map_neg (s.vars.handles.map ω)
        rwa [List.map_map] at hneg

private theorem ordered_centered : ∀ l u : ℝ, some (-1) = some l → some 1 = some u → ¬u < l := by
  rintro _ _ ⟨⟩ ⟨⟩
  norm_num

/-- Two uncertainties between minus one and one. -/
noncomputable def centered : UncertaintySet ℝ :=
  let bounds : Bounds ℝ := ⟨some (-1), some 1, ordered_centered⟩
  ⟨"centered", ⟨⟨0⟩, 0, [⟨"u", none, bounds⟩, ⟨"v", none, bounds⟩]⟩, ⟨⟨0⟩, 0, [.empty]⟩⟩

/-- The centered uncertainties with a budget of one for their magnitudes. -/
noncomputable def diamond : UncertaintySet ℝ :=
  { centered with alternatives := ⟨⟨0⟩, 0, [⟨[.named "budget" (centered.normBall .one 1)]⟩]⟩ }

/-- The diamond has the members that its budget says, keeps them when both values are exchanged, and
when both change their signs. -/
theorem members_of_shape_diamond : diamond.specialType = .budget ∧
    (∃ b, diamond.budget = .ok b ∧ diamond.members =
      {ω | diamond.Within ω ∧ NormKind.one.apply (diamond.vars.handles.map ω) ≤ b})
    ∧ (∀ ω ∈ diamond.members, (fun h => ω ⟨h.owner, h.epoch, 1 - h.slot⟩) ∈ diamond.members)
    ∧ ∀ ω ∈ diamond.members, (fun h => -ω h) ∈ diamond.members := by
  have htype : diamond.specialType = .budget := (specialType_eq_budget_iff rfl).2
    ⟨1, ConstraintSet.normBall?_normBall centered .one "budget" zero_le_one⟩
  have hequal : diamond.equalBounds = true := by
    simp [equalBounds, bounds, diamond, centered, Bounds.same, Bounds.sameEnd]
  have hsymmetric : diamond.bounds.all (·.isSymmetric) = true := by
    simp [bounds, diamond, centered, Bounds.isSymmetric]
  have hother : diamond.specialType ≠ .other := htype.trans_ne (by decide)
  obtain ⟨-, hnorm, hinvariant, hsymmetry⟩ := members_of_shape diamond .empty
  refine ⟨htype, hnorm .one (by rw [htype]; rfl), fun ω hω => ?_, hsymmetry ?_⟩
  · refine hinvariant ?_ ω hω _ (List.Perm.swap _ _ _)
    rw [rotationalInvariance, if_neg hother, hequal]
    rfl
  · rw [symmetry, if_neg hother, hsymmetric]
    rfl

end UncertaintySet

end AdjustableRobust
