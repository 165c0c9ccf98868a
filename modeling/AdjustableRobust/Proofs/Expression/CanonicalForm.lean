import AdjustableRobust.Proofs.Expression.Value

/-!
# Canonical form of linear expressions

Merging the occurrences of every variable into the first one, and dropping what cancels, leaves the
only expression that has the coefficients of the original one, repeats no variable, has no zero
coefficient and keeps the order in which the variables first occur. It is therefore its own
canonical form, and it is empty exactly when the original expression is zero.
-/

namespace AdjustableRobust

namespace LinearExpr

variable {V : Type} [DecidableEq V]

/-! ## Coefficients -/

/-- The coefficient of a variable is the value where that variable is one and all others are
zero. -/
theorem coefficient_eq_eval (e : LinearExpr ℝ V) (v : V) :
    e.coefficient v = e.eval fun w => if w = v then 1 else 0 := by
  obtain ⟨ts⟩ := e
  rw [coefficient, eval, Scalar.sum_real]
  induction ts with
  | nil => rfl
  | cons t ts ih =>
    rw [List.filter_cons, List.map_cons, List.sum_cons, ← ih]
    by_cases ht : t.var = v <;> simp [ht]

@[simp] theorem coefficient_simplify (e : LinearExpr ℝ V) (v : V) :
    e.simplify.coefficient v = e.coefficient v := by
  rw [coefficient_eq_eval, eval_simplify, coefficient_eq_eval]

@[simp] theorem coefficient_scale (e : LinearExpr ℝ V) (c : ℝ) (v : V) :
    (e.scale c).coefficient v = e.coefficient v * c := by
  rw [coefficient_eq_eval, eval_scale, coefficient_eq_eval]

/-- A variable whose occurrences do not cancel occurs. -/
theorem mem_vars_of_coefficient {e : LinearExpr ℝ V} {v : V} (hv : e.coefficient v ≠ 0) :
    v ∈ e.vars := by
  by_contra hnot
  have hzero : e.eval (fun w => if w = v then 1 else 0) = e.eval fun _ => 0 :=
    eval_congr fun w hw => if_neg (ne_of_mem_of_not_mem hw hnot)
  refine hv ?_
  rw [coefficient_eq_eval, hzero]
  simp [eval]

/-- Where every variable cancels there is no coefficient. -/
theorem coefficient_of_isZero {e : LinearExpr ℝ V} (h : e.isZero) (v : V) :
    e.coefficient v = 0 := by
  rw [coefficient_eq_eval, eval_of_isZero h]

/-- The first term adds its scale to the coefficient of its variable. -/
theorem coefficient_cons (t : Term ℝ V) (ts : List (Term ℝ V)) (v : V) :
    coefficient ⟨t :: ts⟩ v = (if t.var = v then t.scale else 0) + coefficient ⟨ts⟩ v := by
  simp only [coefficient_eq_eval, eval, List.map_cons, List.sum_cons, mul_ite, mul_one, mul_zero]

/-- Where no variable is repeated, every term has the coefficient of its variable. -/
theorem scale_eq_coefficient {e : LinearExpr ℝ V} (hnodup : e.vars.Nodup) {t : Term ℝ V}
    (ht : t ∈ e.terms) : t.scale = e.coefficient t.var := by
  obtain ⟨ts⟩ := e
  change t ∈ ts at ht
  change (ts.map (·.var)).Nodup at hnodup
  induction ts with
  | nil => cases ht
  | cons m ms ih =>
    obtain ⟨hm, hms⟩ := List.nodup_cons.1 hnodup
    rw [coefficient_cons]
    obtain rfl | ht := List.mem_cons.1 ht
    · have hnone : coefficient ⟨ms⟩ t.var = 0 := by
        by_contra hne
        exact hm (mem_vars_of_coefficient hne)
      rw [if_pos rfl, hnone, add_zero]
    · have hne : t.var ≠ m.var := ne_of_mem_of_not_mem (List.mem_map_of_mem ht) hm
      rw [if_neg hne.symm, zero_add, ih ht hms]

/-! ## The order of first occurrence -/

/-- Where no variable is repeated, the variables stand in the order of first occurrence. -/
theorem pairwise_idxOf {vs : List V} (h : vs.Nodup) :
    vs.Pairwise fun v w => vs.idxOf v < vs.idxOf w := by
  refine List.pairwise_iff_getElem.2 fun i j hi hj hij => ?_
  rwa [h.idxOf_getElem i hi, h.idxOf_getElem j hj]

/-- What follows does not change where variables occur first. -/
theorem pairwise_idxOf_append {us vs : List V} (ws : List V) (hsub : us ⊆ vs)
    (h : us.Pairwise fun v w => vs.idxOf v < vs.idxOf w) :
    us.Pairwise fun v w => (vs ++ ws).idxOf v < (vs ++ ws).idxOf w := by
  refine h.imp_of_mem fun hv hw hlt => ?_
  rwa [List.idxOf_append_of_mem (hsub hv), List.idxOf_append_of_mem (hsub hw)]

/-- Merged variables stand in the order of their first occurrence. -/
theorem pairwise_merged {α : Type} [Scalar α] (ts : List (Term α V)) :
    ((merged ts).map (·.var)).Pairwise fun v w =>
      (ts.map (·.var)).idxOf v < (ts.map (·.var)).idxOf w := by
  induction ts using List.reverseRecOn with
  | nil => exact .nil
  | append_singleton ts t ih =>
    have hsub : (merged ts).map (·.var) ⊆ ts.map (·.var) := fun v => mem_map_var_merged.1
    have hold := pairwise_idxOf_append [t.var] hsub ih
    rw [merged_concat, map_var_mergeTerm, List.map_append, List.map_singleton]
    split
    · exact hold
    · next ht =>
      -- the new variable comes behind all variables so far
      rw [mem_map_var_merged] at ht
      refine List.pairwise_append.2 ⟨hold, List.pairwise_singleton _ _, fun v hv w hw => ?_⟩
      rw [List.mem_singleton.1 hw, List.idxOf_append_of_mem (hsub hv),
        List.idxOf_append_of_notMem ht]
      exact (List.idxOf_lt_length_of_mem (hsub hv)).trans_le (Nat.le_add_right _ _)

/-! ## The canonical form -/

/-- A canonical form of an expression: no variable is repeated, no coefficient is zero, the
variables stand in the order in which they first occur in the expression, and coefficients and
values are those of the expression. -/
structure IsCanonicalFor (f e : LinearExpr ℝ V) : Prop where
  nodup : f.vars.Nodup
  nonzero : ∀ t ∈ f.terms, t.scale ≠ 0
  /-- The order of first occurrence. -/
  ordered : f.vars.Pairwise fun v w => e.vars.idxOf v < e.vars.idxOf w
  coefficient : ∀ v, f.coefficient v = e.coefficient v
  /-- The values, wherever the expression has one. -/
  value : ∀ a x, e.value a = .ok x → f.value a = .ok x

namespace IsCanonicalFor

variable {e f g : LinearExpr ℝ V}

/-- Exactly the variables that do not cancel are left. -/
theorem mem_vars_iff (h : f.IsCanonicalFor e) {v : V} : v ∈ f.vars ↔ e.coefficient v ≠ 0 := by
  rw [← h.coefficient]
  refine ⟨fun hv => ?_, mem_vars_of_coefficient⟩
  obtain ⟨t, ht, rfl⟩ := List.mem_map.1 hv
  rw [← scale_eq_coefficient h.nodup ht]
  exact h.nonzero t ht

/-- A canonical form consists of its variables with their total coefficients. -/
theorem eq_map (h : f.IsCanonicalFor e) : f = ⟨f.vars.map fun v => ⟨e.coefficient v, v⟩⟩ := by
  obtain ⟨ts⟩ := f
  rw [vars, List.map_map, mk.injEq]
  refine (List.map_id ts).symm.trans (List.map_congr_left fun t ht => ?_)
  change t = ⟨e.coefficient t.var, t.var⟩
  rw [← h.coefficient, ← scale_eq_coefficient h.nodup ht]

/-- There is only one canonical form. -/
theorem unique (hf : f.IsCanonicalFor e) (hg : g.IsCanonicalFor e) : f = g := by
  have hmem : ∀ v, v ∈ f.vars ↔ v ∈ g.vars := fun v => hf.mem_vars_iff.trans hg.mem_vars_iff.symm
  have hperm : f.vars.Perm g.vars := (List.perm_ext_iff_of_nodup hf.nodup hg.nodup).2 hmem
  have hvars : f.vars = g.vars :=
    hperm.eq_of_pairwise (fun _ _ _ _ hvw hwv => absurd hvw hwv.asymm) hf.ordered hg.ordered
  calc f = ⟨f.vars.map fun v => ⟨e.coefficient v, v⟩⟩ := hf.eq_map
    _ = ⟨g.vars.map fun v => ⟨e.coefficient v, v⟩⟩ := by rw [hvars]
    _ = g := hg.eq_map.symm

end IsCanonicalFor

/-- Merging repeated variables and dropping zero coefficients makes the canonical form. -/
theorem simplify_isCanonicalFor (e : LinearExpr ℝ V) : e.simplify.IsCanonicalFor e := by
  have hordered : e.simplify.vars.Pairwise fun v w => e.vars.idxOf v < e.vars.idxOf w :=
    (pairwise_merged e.terms).sublist (List.filter_sublist.map _)
  exact {
    nodup := hordered.imp fun {v w} hlt heq => hlt.ne (by rw [heq])
    nonzero := fun t ht => scale_ne_zero_of_mem_simplify ht
    ordered := hordered
    coefficient := coefficient_simplify e
    value := fun a x => value_simplify }

/-- An expression in which nothing is repeated or zero is its own canonical form. -/
theorem isCanonicalFor_self {e : LinearExpr ℝ V} (hnodup : e.vars.Nodup)
    (hnonzero : ∀ t ∈ e.terms, t.scale ≠ 0) : e.IsCanonicalFor e :=
  ⟨hnodup, hnonzero, pairwise_idxOf hnodup, fun _ => rfl, fun _ _ => id⟩

/-! ## Expressions that are zero -/

/-- Every variable cancels exactly when no coefficient is left. -/
theorem isZero_iff_coefficient {e : LinearExpr ℝ V} :
    e.isZero = true ↔ ∀ v, e.coefficient v = 0 := by
  refine ⟨coefficient_of_isZero, fun h => ?_⟩
  rw [isZero, isEmpty, List.isEmpty_iff, List.eq_nil_iff_forall_not_mem]
  intro t ht
  exact e.simplify_isCanonicalFor.mem_vars_iff.1 (List.mem_map_of_mem ht) (h t.var)

/-- The values of an expression in which every variable cancels. -/
theorem eq_zero_of_isZero {e : LinearExpr ℝ V} (h : e.isZero = true) {a : Assignment ℝ V} {x : ℝ}
    (hx : e.value a = .ok x) : x = 0 := by
  obtain ⟨ω, hω⟩ := a.exists_within
  rw [← ((value_eq_ok_iff hω).1 hx).2, eval_of_isZero h]

/-- Simplifying yields the only canonical form of an expression. Simplifying it again changes
nothing. The expression is zero exactly when no assignment gives it another value, for which the
assignments that give every variable a value are enough. -/
theorem simplify_canonical (e : LinearExpr ℝ V) :
    (∀ f : LinearExpr ℝ V, f.IsCanonicalFor e ↔ f = e.simplify) ∧
      e.simplify.simplify = e.simplify ∧
      (e.isZero = true ↔ ∀ a x, e.value a = .ok x → x = 0) ∧
      (e.isZero = true ↔ ∀ ω : V → ℝ, e.value (.total ω) = .ok 0) := by
  have hcanonical := e.simplify_isCanonicalFor
  have hself : e.simplify.IsCanonicalFor e.simplify :=
    isCanonicalFor_self hcanonical.nodup hcanonical.nonzero
  have hzero : (∀ ω : V → ℝ, e.value (.total ω) = .ok 0) → e.isZero = true := by
    intro h
    refine isZero_iff_coefficient.2 fun v => ?_
    rw [coefficient_eq_eval]
    exact Except.ok.inj ((e.value_total _).symm.trans (h _))
  refine ⟨fun f => ⟨fun h => h.unique hcanonical, fun h => h ▸ hcanonical⟩,
    (simplify_isCanonicalFor _).unique hself, ⟨fun h a x => eq_zero_of_isZero h, fun h => ?_⟩,
    ⟨fun h ω => ?_, hzero⟩⟩
  · refine hzero fun ω => ?_
    rw [e.value_total, h _ _ (e.value_total ω)]
  · rw [e.value_total, eval_of_isZero h]

/-- The values of products are not free, but those that products of values have are enough: a sum
of products is zero exactly when it vanishes for all values of uncertainties and decisions. -/
theorem isZero_iff_products {e : LinearExpr ℝ Product} : e.isZero = true ↔
    ∀ (u : UncertaintyRef → ℝ) (d : DecisionRef → ℝ),
      e.value (Product.assignment (.total u) (.total d)) = .ok 0 := by
  have hvalue : ∀ (u : UncertaintyRef → ℝ) (d : DecisionRef → ℝ),
      e.value (Product.assignment (.total u) (.total d)) =
        .ok (e.eval fun p => u p.uncertainty * d p.decision) :=
    fun u d => e.value_total fun p => u p.uncertainty * d p.decision
  refine ⟨fun h u d => by rw [hvalue, eval_of_isZero h], fun h => ?_⟩
  refine isZero_iff_coefficient.2 fun p => ?_
  have hindicator : (fun q : Product => if q = p then (1 : ℝ) else 0) = fun q =>
      (if q.uncertainty = p.uncertainty then 1 else 0) *
        if q.decision = p.decision then 1 else 0 := by
    ext ⟨u, d⟩
    obtain ⟨u', d'⟩ := p
    by_cases hu : u = u' <;> simp [hu]
  rw [coefficient_eq_eval, hindicator]
  exact Except.ok.inj ((hvalue (fun u => if u = p.uncertainty then 1 else 0)
    (fun d => if d = p.decision then 1 else 0)).symm.trans (h _ _))

end LinearExpr

end AdjustableRobust
