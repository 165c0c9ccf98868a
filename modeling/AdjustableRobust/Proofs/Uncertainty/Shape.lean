import AdjustableRobust.Proofs.Uncertainty.Constraints

/-!
# Shapes of uncertainty sets

What the shape of a set, read off its constraints and bounds, says about its realizations: a norm
ball bounds their norm, and equal bounds allow the same magnitudes at every position. From both
comes the bound on the magnitudes of some of the values, which is described here once for all
shapes.
-/

namespace AdjustableRobust

/-! ## Norm balls -/

private theorem eval_of_isVariableRow {V : Type} [DecidableEq V] {row : AffineExpr ℝ V} {v : V}
    (h : NormedVector.isVariableRow row v = true) (ω : V → ℝ) : row.eval ω = ω v := by
  rw [NormedVector.isVariableRow, Bool.and_eq_true, Scalar.beq_real, decide_eq_true_eq] at h
  obtain ⟨hconstant, hterms⟩ := h
  split at hterms
  · next t ht =>
    rw [Bool.and_eq_true, Scalar.beq_real, decide_eq_true_eq, decide_eq_true_eq] at hterms
    obtain ⟨hscale, hvar⟩ := hterms
    rw [AffineExpr.eval, hconstant, zero_add, ← LinearExpr.eval_simplify, LinearExpr.eval, ht,
      List.map_singleton, List.sum_singleton, hscale, one_mul, hvar]
  · cases hterms

/-- A vector whose rows are variables has the norm of their values. -/
theorem NormedVector.eval_of_isVariableVector {V : Type} [DecidableEq V] {n : NormedVector ℝ V}
    {vs : List V} (h : n.isVariableVector vs = true) (ω : V → ℝ) :
    n.eval ω = n.norm.apply (vs.map ω) := by
  rw [isVariableVector, Bool.and_eq_true, beq_iff_eq] at h
  obtain ⟨hlength, hrows⟩ := h
  rw [eval]
  congr 1
  refine List.ext_getElem (by simp [hlength]) fun i hi hi' => ?_
  rw [List.length_map] at hi hi'
  have hmem : (n.rows[i], vs[i]) ∈ n.rows.zip vs := by
    rw [← List.getElem_zip (h := by rw [List.length_zip]; omega)]
    exact List.getElem_mem _
  rw [List.getElem_map, List.getElem_map]
  exact eval_of_isVariableRow (List.all_eq_true.1 hrows _ hmem) ω

/-- A vector of variables is recognized. -/
theorem NormedVector.isVariableVector_ofVariables {V : Type} [DecidableEq V] (norm : NormKind)
    (vs : List V) : (ofVariables norm vs : NormedVector ℝ V).isVariableVector vs = true := by
  have hrow (v : V) : isVariableRow (.var v : AffineExpr ℝ V) v = true := by
    simp [isVariableRow, AffineExpr.var, LinearExpr.var, LinearExpr.term, LinearExpr.simplify,
      LinearExpr.merged, LinearExpr.mergeTerm]
  rw [isVariableVector, ofVariables, List.length_map, beq_self_eq_true, Bool.true_and]
  induction vs with
  | nil => rfl
  | cons v vs ih =>
    rw [List.map_cons, List.zip_cons_cons, List.all_cons, ih, Bool.and_true]
    exact hrow v

/-- A norm ball is a single constraint, which bounds the norm of the variables by a radius that is
not negative. -/
theorem ConstraintSet.normBall?_eq_some {s : ConstraintSet ℝ} {vs : List UncertaintyRef}
    {norm : NormKind} {radius : ℝ} (h : s.normBall? vs = some (norm, radius)) :
    0 ≤ radius ∧ ∃ c, s.constraints = [c] ∧
      ∀ ω, c.toRawConstraint.Holds ω ↔ norm.apply (vs.map ω) ≤ radius := by
  rw [normBall?] at h
  split at h
  · next c hc =>
    split at h
    · next n hn =>
      split at h
      · next hball =>
        simp only [Bool.and_eq_true, decide_eq_true_eq, Bool.not_eq_true', decide_eq_false_iff_not,
          not_lt] at hball
        obtain ⟨⟨⟨hsense, hlinear⟩, hconstant⟩, hvector⟩ := hball
        obtain ⟨rfl, rfl⟩ := Prod.mk.inj (Option.some.inj h)
        refine ⟨neg_nonneg.2 hconstant, c, hc, fun ω => ?_⟩
        have hterms : c.expression.affine.linear.terms = [] := List.isEmpty_iff.1 hlinear
        rw [RawConstraint.Holds, hsense, ConicExpr.eval, hn, Option.elim_some,
          NormedVector.eval_of_isVariableVector hvector, AffineExpr.eval, LinearExpr.eval, hterms,
          List.map_nil, List.sum_nil, add_zero]
        exact le_neg_iff_add_nonpos_right.symm
      · cases h
    · cases h
  · cases h

/-- The constraint of a norm ball is recognized. -/
theorem ConstraintSet.normBall?_normBall (s : UncertaintySet ℝ) (norm : NormKind) (name : String)
    {radius : ℝ} (hradius : 0 ≤ radius) :
    (⟨[.named name (s.normBall norm radius)]⟩ : ConstraintSet ℝ).normBall? s.vars.handles =
      some (norm, radius) := by
  have hvector := NormedVector.isVariableVector_ofVariables norm s.vars.handles
  simp [normBall?, UncertaintySet.normBall, Constraint.named, ConicExpr.relateValue,
    ConicExpr.addConstant, ConicExpr.normOf, AffineExpr.addConstant, LinearExpr.isEmpty,
    AffineExpr.zero, hradius, hvector]
  exact ⟨rfl, rfl⟩

/-- A norm ball has a constraint. -/
theorem ConstraintSet.isEmpty_of_normBall? {s : ConstraintSet ℝ} {vs : List UncertaintyRef}
    {ball : NormKind × ℝ} (h : s.normBall? vs = some ball) : s.isEmpty = false := by
  obtain ⟨norm, radius⟩ := ball
  obtain ⟨-, c, hc, -⟩ := normBall?_eq_some h
  rw [isEmpty, hc]
  rfl

namespace UncertaintySet

variable {s : UncertaintySet ℝ} {a : ConstraintSet ℝ} {norm : NormKind} {radius : ℝ}

/-- The constraints of a norm ball hold when the norm of the values is at most the radius. -/
theorem holds_iff_of_normBall? (h : a.normBall? s.vars.handles = some (norm, radius))
    {u : ℕ → ℝ} : (∀ c ∈ a.constraints, c.toRawConstraint.Holds (bySlot u)) ↔
      norm.apply ((List.range s.numVariables).map u) ≤ radius := by
  obtain ⟨-, c, hc, hholds⟩ := ConstraintSet.normBall?_eq_some h
  rw [hc, List.forall_mem_singleton, hholds, Store.map_bySlot_handles]
  rfl

/-! ## Single alternatives and equal bounds -/

/-- The only alternative. -/
theorem single_eq_ok_iff : s.single = .ok a ↔ s.alternatives.items = [a] := by
  rw [single]
  split
  · next hitems => simp [hitems]
  · next hne =>
    constructor
    · intro h
      cases h
    · intro h
      exact absurd h (hne a)

/-- A set with a known shape has a single alternative. -/
theorem exists_single_of_specialType (h : s.specialType ≠ .other) :
    ∃ a, s.alternatives.items = [a] := by
  rw [specialType] at h
  cases hsingle : s.single with
  | error e => simp [hsingle] at h
  | ok a => exact ⟨a, single_eq_ok_iff.1 hsingle⟩

private theorem eq_of_sameEnd {x? y? : Option ℝ} (h : Bounds.sameEnd x? y? = true) : x? = y? := by
  cases x? <;> cases y? <;> simp_all [Bounds.sameEnd]

/-- All uncertainties have the same bounds. -/
theorem eq_bounds_of_equalBounds (h : s.equalBounds = true) {v w : UncertaintyVariable ℝ}
    (hv : v ∈ s.vars.items) (hw : w ∈ s.vars.items) :
    v.bounds.lower? = w.bounds.lower? ∧ v.bounds.upper? = w.bounds.upper? := by
  rw [equalBounds] at h
  split at h
  · next hbounds =>
    have hmem : v.bounds ∈ s.bounds := List.mem_map_of_mem hv
    rw [hbounds] at hmem
    cases hmem
  · next first bs hbounds =>
    have hsame : ∀ v ∈ s.vars.items, v.bounds.lower? = first.lower? ∧
        v.bounds.upper? = first.upper? := by
      intro v hv
      have hmem : v.bounds ∈ s.bounds := List.mem_map_of_mem hv
      rw [hbounds] at hmem
      have hfirst := List.all_eq_true.1 h _ hmem
      rw [Bounds.same, Bool.and_eq_true] at hfirst
      exact ⟨eq_of_sameEnd hfirst.1, eq_of_sameEnd hfirst.2⟩
    exact ⟨(hsame v hv).1.trans (hsame w hw).1.symm, (hsame v hv).2.trans (hsame w hw).2.symm⟩

/-! ## Known shapes -/

/-- A box has no constraints, and all variables have bounds. -/
theorem specialType_eq_box_iff (ha : s.alternatives.items = [a]) :
    s.specialType = .box ↔ a.constraints = [] ∧ s.allBounded = true := by
  simp only [specialType, single_eq_ok_iff.2 ha]
  rw [← List.isEmpty_iff, ← Bool.and_eq_true, ← ConstraintSet.isEmpty]
  by_cases hbox : (a.isEmpty && s.allBounded) = true
  · simp [hbox]
  · rw [if_neg hbox]
    refine iff_of_false (fun h => ?_) hbox
    split at h <;> cases h

/-- A ball bounds the Euclidean norm. -/
theorem specialType_eq_ball_iff (ha : s.alternatives.items = [a]) :
    s.specialType = .ball ↔ ∃ radius, a.normBall? s.vars.handles = some (.two, radius) := by
  simp only [specialType, single_eq_ok_iff.2 ha]
  cases hball : a.normBall? s.vars.handles with
  | none =>
    refine iff_of_false (fun h => ?_) (by simp)
    split at h <;> cases h
  | some ball =>
    obtain ⟨norm, radius⟩ := ball
    rw [ConstraintSet.isEmpty_of_normBall? hball]
    cases norm <;> simp

/-- A budget set bounds the sum of magnitudes. -/
theorem specialType_eq_budget_iff (ha : s.alternatives.items = [a]) :
    s.specialType = .budget ↔ ∃ radius, a.normBall? s.vars.handles = some (.one, radius) := by
  simp only [specialType, single_eq_ok_iff.2 ha]
  cases hball : a.normBall? s.vars.handles with
  | none =>
    refine iff_of_false (fun h => ?_) (by simp)
    split at h <;> cases h
  | some ball =>
    obtain ⟨norm, radius⟩ := ball
    rw [ConstraintSet.isEmpty_of_normBall? hball]
    cases norm <;> simp

/-- The radius is that of a norm ball. -/
theorem budget_eq_ok (ha : s.alternatives.items = [a])
    (hball : a.normBall? s.vars.handles = some (norm, radius)) : s.budget = .ok radius := by
  rw [budget, single_eq_ok_iff.2 ha]
  simp only [Bind.bind, Except.bind, hball]
  rfl

end UncertaintySet

/-! ## Largest magnitudes -/

namespace Bounds

variable {b : Bounds ℝ} {x m : ℝ}

/-- The largest magnitude between two bounds. -/
noncomputable def magnitude? (b : Bounds ℝ) : Option ℝ :=
  match b.lower?, b.upper? with
  | some l, some u => some (max (-l) u)
  | _, _ => none

/-- Both ends decide the largest magnitude. -/
theorem magnitude?_eq_some_iff :
    b.magnitude? = some m ↔ ∃ l u, b.lower? = some l ∧ b.upper? = some u ∧ m = max (-l) u := by
  unfold magnitude?
  cases b.lower? <;> cases b.upper? <;> simp [eq_comm]

/-- Admitted values have at most the largest magnitude. -/
theorem abs_le_of_magnitude? (hx : b.admits x = true) (hm : b.magnitude? = some m) : |x| ≤ m := by
  obtain ⟨l, u, hl, hu, rfl⟩ := magnitude?_eq_some_iff.1 hm
  obtain ⟨hlower, hupper⟩ := (admits_iff b x).1 hx
  rw [abs_le', le_max_iff, le_max_iff]
  exact ⟨.inr (hupper u hu), .inl (neg_le_neg (hlower l hl))⟩

/-- No magnitude between bounds is negative. -/
theorem nonneg_of_magnitude? (hm : b.magnitude? = some m) : 0 ≤ m := by
  obtain ⟨l, u, hl, hu, rfl⟩ := magnitude?_eq_some_iff.1 hm
  have hordered := not_lt.1 (b.ordered l u hl hu)
  rw [le_max_iff]
  by_cases h : 0 ≤ u
  · exact .inr h
  · exact .inl (by linarith)

/-- Between bounds on both sides of zero there is a value of each magnitude up to the largest
one. -/
theorem exists_abs_eq (hzero : b.admits 0 = true) {t : ℝ} (ht : 0 ≤ t)
    (hm : ∀ m, b.magnitude? = some m → t ≤ m) : ∃ x, |x| = t ∧ b.admits x = true := by
  obtain ⟨hlower, hupper⟩ := (admits_iff b 0).1 hzero
  have hpos (h : ∀ u, b.upper? = some u → t ≤ u) : ∃ x, |x| = t ∧ b.admits x = true :=
    ⟨t, abs_of_nonneg ht, (admits_iff b t).2 ⟨fun l hl => (hlower l hl).trans ht, h⟩⟩
  have hneg (h : ∀ l, b.lower? = some l → l ≤ -t) : ∃ x, |x| = t ∧ b.admits x = true :=
    ⟨-t, by rw [abs_neg, abs_of_nonneg ht], (admits_iff b (-t)).2
      ⟨h, fun u hu => (neg_nonpos.2 ht).trans (hupper u hu)⟩⟩
  cases hl : b.lower? with
  | none => exact hneg fun l hl' => by rw [hl] at hl'; cases hl'
  | some l =>
    cases hu : b.upper? with
    | none => exact hpos fun u hu' => by rw [hu] at hu'; cases hu'
    | some u =>
      obtain h | h := le_max_iff.1 (hm _ (magnitude?_eq_some_iff.2 ⟨l, u, hl, hu, rfl⟩))
      · exact hneg fun l' hl' => by
          obtain rfl := Option.some.inj (hl.symm.trans hl')
          exact le_neg_of_le_neg h
      · exact hpos fun u' hu' => by
          obtain rfl := Option.some.inj (hu.symm.trans hu')
          exact h

end Bounds

namespace UncertaintySet

variable {s : UncertaintySet ℝ} {a : ConstraintSet ℝ} {k : ℕ} {b : ℝ}

/-- The largest magnitude between the bounds of the first uncertainty. -/
noncomputable def magnitude? (s : UncertaintySet ℝ) : Option ℝ :=
  s.vars.items.head?.bind (·.bounds.magnitude?)

/-- With equal bounds the largest magnitude is the same at every position. -/
theorem magnitude?_of_mem (hequal : s.equalBounds = true) {v : UncertaintyVariable ℝ}
    (hv : v ∈ s.vars.items) : v.bounds.magnitude? = s.magnitude? := by
  rw [magnitude?]
  cases hitems : s.vars.items with
  | nil => simp [hitems] at hv
  | cons first items =>
    obtain ⟨hlower, hupper⟩ :=
      eq_bounds_of_equalBounds hequal hv (hitems ▸ List.mem_cons_self : first ∈ s.vars.items)
    rw [List.head?_cons, Option.bind_some, Bounds.magnitude?, Bounds.magnitude?, hlower, hupper]

/-- With equal bounds there is a largest magnitude exactly when all variables are bounded. -/
theorem allBounded_iff_magnitude? (hequal : s.equalBounds = true) (hn : 0 < s.numVariables) :
    s.allBounded = true ↔ ∃ m, s.magnitude? = some m := by
  have hbounded (b : Bounds ℝ) : b.isBounded = true ↔ ∃ m, b.magnitude? = some m := by
    unfold Bounds.isBounded Bounds.magnitude?
    cases b.lower? <;> cases b.upper? <;> simp
  rw [allBounded, bounds, List.all_map, List.all_eq_true]
  constructor
  · intro hall
    have hmem := List.getElem_mem hn
    rw [← magnitude?_of_mem hequal hmem]
    exact (hbounded _).1 (hall _ hmem)
  · intro hm v hv
    rw [← magnitude?_of_mem hequal hv] at hm
    exact (hbounded _).2 hm

/-! ## Bounds on the sum of magnitudes -/

/-- What the shape of an alternative allows `k` magnitudes to sum up to, each of them at most the
largest one. -/
inductive SumsUpTo (s : UncertaintySet ℝ) (a : ConstraintSet ℝ) (k : ℕ) : ℝ → Prop
  /-- All of them can be as large as the bounds allow. -/
  | box {m : ℝ} : a.constraints = [] → s.magnitude? = some m → s.SumsUpTo a k (k * m)
  /-- Together they use up the budget. -/
  | budget {radius : ℝ} : a.normBall? s.vars.handles = some (.one, radius) →
      s.SumsUpTo a k (capped radius (s.magnitude?.map fun m => k * m))
  /-- Spread out evenly they reach the boundary of the ball. -/
  | ball {radius : ℝ} : a.normBall? s.vars.handles = some (.two, radius) →
      s.SumsUpTo a k (capped (Real.sqrt k * radius) (s.magnitude?.map fun m => k * m))

/-- A shape with equal bounds has a bound on magnitudes, whatever their number. -/
theorem exists_sumsUpTo (htype : s.specialType ≠ .other) (hequal : s.equalBounds = true)
    (hn : 0 < s.numVariables) (ha : s.alternatives.items = [a]) (k : ℕ) :
    ∃ b, s.SumsUpTo a k b := by
  cases htype' : s.specialType with
  | box =>
    obtain ⟨hempty, hbounded⟩ := (specialType_eq_box_iff ha).1 htype'
    obtain ⟨m, hm⟩ := (allBounded_iff_magnitude? hequal hn).1 hbounded
    exact ⟨_, .box hempty hm⟩
  | ball =>
    obtain ⟨radius, hball⟩ := (specialType_eq_ball_iff ha).1 htype'
    exact ⟨_, .ball hball⟩
  | budget =>
    obtain ⟨radius, hball⟩ := (specialType_eq_budget_iff ha).1 htype'
    exact ⟨_, .budget hball⟩
  | other => exact absurd htype' htype

/-- The bound of the shape is the one that is computed. -/
theorem SumsUpTo.maxOneNorm_eq_ok (hsums : s.SumsUpTo a k b) (hk : 0 < k)
    (hn : k ≤ s.numVariables) (hequal : s.equalBounds = true) (ha : s.alternatives.items = [a]) :
    s.maxOneNorm k = .ok b := by
  have hpos : 0 < s.numVariables := hk.trans_le hn
  obtain ⟨first, items, hitems⟩ := List.exists_cons_of_length_pos hpos
  have hhandle : s.vars.handleAt 0 = .ok (s.vars.handleFor 0) := if_neg hpos.not_ge
  have hvar : s.variableAt (s.vars.handleFor 0) = .ok first :=
    variableAt_eq_ok_iff.2 ⟨rfl, rfl, by rw [hitems]; rfl⟩
  have hmagnitude : s.magnitude? = first.bounds.magnitude? := by
    rw [magnitude?, hitems]
    rfl
  rw [maxOneNorm, if_neg hk.ne']
  simp only [hn.not_gt, if_false, hequal]
  cases hsums with
  | box hempty hm =>
    have hbounded := (allBounded_iff_magnitude? hequal hpos).2 ⟨_, hm⟩
    obtain ⟨l, u, hl, hu, rfl⟩ := Bounds.magnitude?_eq_some_iff.1 (hmagnitude ▸ hm)
    rw [(specialType_eq_box_iff ha).2 ⟨hempty, hbounded⟩]
    refine bind_eq_ok_iff.2 ⟨_, liftM_eq_ok_iff.2 hhandle, bind_eq_ok_iff.2 ⟨first, hvar, ?_⟩⟩
    simp [hl, hu]
    rfl
  | budget hball =>
    rw [(specialType_eq_budget_iff ha).2 ⟨_, hball⟩, hmagnitude]
    refine bind_eq_ok_iff.2 ⟨_, liftM_eq_ok_iff.2 hhandle, bind_eq_ok_iff.2 ⟨first, hvar,
      bind_eq_ok_iff.2 ⟨_, budget_eq_ok ha hball, ?_⟩⟩⟩
    unfold Bounds.magnitude?
    cases first.bounds.lower? <;> cases first.bounds.upper? <;> simp <;> rfl
  | ball hball =>
    rw [(specialType_eq_ball_iff ha).2 ⟨_, hball⟩, hmagnitude]
    refine bind_eq_ok_iff.2 ⟨_, liftM_eq_ok_iff.2 hhandle, bind_eq_ok_iff.2 ⟨first, hvar,
      bind_eq_ok_iff.2 ⟨_, budget_eq_ok ha hball, ?_⟩⟩⟩
    unfold Bounds.magnitude?
    cases first.bounds.lower? <;> cases first.bounds.upper? <;> simp <;> rfl

/-- A bound is only computed for shapes with equal bounds that have enough variables, and is the one
of the shape. -/
theorem sumsUpTo_of_maxOneNorm (hk : 0 < k) (hrun : s.maxOneNorm k = .ok b) :
    k ≤ s.numVariables ∧ s.equalBounds = true ∧ ∃ a, s.alternatives.items = [a] ∧
      s.SumsUpTo a k b := by
  have hrun' := hrun
  rw [maxOneNorm, if_neg hk.ne'] at hrun'
  simp only at hrun'
  split at hrun'
  · obtain ⟨_, hthrow, -⟩ := bind_eq_ok_iff.1 hrun'
    exact absurd hthrow throw_ne_ok
  split at hrun'
  · obtain ⟨_, hthrow, -⟩ := bind_eq_ok_iff.1 hrun'
    exact absurd hthrow throw_ne_ok
  next hn hshape =>
  rw [not_lt] at hn
  rw [Bool.or_eq_true, not_or, Bool.not_eq_true', Bool.not_eq_false, decide_eq_true_eq] at hshape
  obtain ⟨htype, hequal⟩ := hshape
  obtain ⟨a, ha⟩ := exists_single_of_specialType htype
  obtain ⟨b', hsums⟩ := exists_sumsUpTo htype hequal (hk.trans_le hn) ha k
  have hb : b' = b :=
    Except.ok.inj ((hsums.maxOneNorm_eq_ok hk hn hequal ha).symm.trans hrun)
  exact ⟨hn, hequal, a, ha, hb ▸ hsums⟩

end UncertaintySet

end AdjustableRobust
