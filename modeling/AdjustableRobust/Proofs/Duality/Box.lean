import AdjustableRobust.Proofs.Duality.Penalty

/-!
# Strong duality on boxes

A cut is a constraint on a single coordinate. When all constraints are cuts, a function that is
affine and bounded from below on their region has a best certificate: moving from a point of the
region against the slope in one coordinate, either no cut is ever reached, or the first one that
is reached yields the optimal multiplier of this coordinate.
-/

namespace AdjustableRobust

private theorem ConstraintSense.never_or_reached {c : ConstraintSense} {w q : ℝ} (hq : q ≠ 0)
    (hw : c.Holds w) :
    (∀ t ≥ 0, c.Holds (w - t * q)) ∨
      ∃ T ≥ 0, T * q = w ∧ (∀ t ≥ 0, t ≤ T → c.Holds (w - t * q)) ∧
        (c.dualBounds : Bounds ℝ).admits (-q) = true := by
  have htight : w / q * q = w := div_mul_cancel₀ w hq
  cases c with
  | leq =>
    change w ≤ 0 at hw
    rcases le_or_gt 0 q with hle | hlt
    · refine .inl fun t ht => ?_
      have ht := mul_nonneg ht hle
      change w - t * q ≤ 0
      linarith
    · refine .inr ⟨w / q, div_nonneg_of_nonpos hw hlt.le, htight, fun t _ ht => ?_,
        admits_dualBounds_leq.2 (neg_nonneg.2 hlt.le)⟩
      have ht := mul_le_mul_of_nonpos_right ht hlt.le
      change w - t * q ≤ 0
      linarith
  | geq =>
    change 0 ≤ w at hw
    rcases le_or_gt q 0 with hle | hlt
    · refine .inl fun t ht => ?_
      have ht := mul_nonpos_of_nonneg_of_nonpos ht hle
      change 0 ≤ w - t * q
      linarith
    · refine .inr ⟨w / q, div_nonneg hw hlt.le, htight, fun t _ ht => ?_,
        admits_dualBounds_geq.2 (neg_nonpos.2 hlt.le)⟩
      have ht := mul_le_mul_of_nonneg_right ht hlt.le
      change 0 ≤ w - t * q
      linarith
  | eq =>
    change w = 0 at hw
    refine .inr ⟨0, le_rfl, by rw [zero_mul, hw], fun t ht ht' => ?_, admits_dualBounds_eq⟩
    change w - t * q = 0
    rw [hw, le_antisymm ht' ht, zero_mul, sub_zero]

namespace RawConstraint

variable {c : RawConstraint (ConicExpr ℝ UncertaintyRef)} {i j : ℕ} {k s : ℝ}

/-- The constraint says that `k + s * u i` is in relation to zero, for its coordinate `i`. -/
structure IsCut (c : RawConstraint (ConicExpr ℝ UncertaintyRef)) (i : ℕ) (k s : ℝ) : Prop where
  affine : c.expression.normed? = none
  scale : s ≠ 0
  value : ∀ u, c.expression.affine.eval (bySlot u) = k + s * u i

/-- A cut looks at its coordinate only. -/
theorem IsCut.holds_iff (h : c.IsCut i k s) (u : ℕ → ℝ) :
    c.Holds (bySlot u) ↔ c.sense.Holds (k + s * u i) := by
  rw [Holds, ConicExpr.eval, h.affine, Option.elim, zero_add, h.value]

/-- Multiples of a cut are penalties. -/
theorem IsCut.isPenalty (h : c.IsCut i k s) {y : ℝ}
    (hy : (c.sense.dualBounds : Bounds ℝ).admits y = true) :
    c.IsPenalty fun u => y * (k + s * u i) := by
  obtain ⟨sense, ⟨normed?, e⟩⟩ := c
  obtain rfl : normed? = none := h.affine
  refine isPenalty_affine_iff.2 ⟨y, hy, funext fun u => ?_⟩
  rw [← h.value]

/-- Penalties of a cut add up. -/
theorem IsCut.isPenalty_add (h : c.IsCut i k s) {g g' : (ℕ → ℝ) → ℝ} (hg : c.IsPenalty g)
    (hg' : c.IsPenalty g') : c.IsPenalty (g + g') := by
  obtain ⟨sense, ⟨normed?, e⟩⟩ := c
  obtain rfl : normed? = none := h.affine
  obtain ⟨y, hy, rfl⟩ := isPenalty_affine_iff.1 hg
  obtain ⟨y', hy', rfl⟩ := isPenalty_affine_iff.1 hg'
  exact isPenalty_affine_iff.2 ⟨y + y', ConstraintSense.admits_dualBounds_add hy hy',
    funext fun u => (add_mul _ _ _).symm⟩

/-- Moving from a point where the cut holds against a slope, the cut is never reached or yields
the multiplier that turns the slope into the value where it is reached. -/
theorem IsCut.never_or_reached (h : c.IsCut i k s) {d x : ℝ} (hd : d ≠ 0)
    (hx : c.sense.Holds (k + s * x)) :
    (∀ t ≥ 0, c.sense.Holds (k + s * (x - t * d))) ∨
      ∃ T ≥ 0, (∀ t ≥ 0, t ≤ T → c.sense.Holds (k + s * (x - t * d))) ∧
        c.IsPenalty fun u => -(d * (u i - (x - T * d))) := by
  have hmove : ∀ t, k + s * (x - t * d) = (k + s * x) - t * (s * d) := fun t => by ring
  simp only [hmove]
  obtain hnever | ⟨T, hT, htight, hheld, hsign⟩ :=
    ConstraintSense.never_or_reached (mul_ne_zero h.scale hd) hx
  · exact .inl hnever
  · refine .inr ⟨T, hT, hheld, ?_⟩
    -- The multiplier takes the slope of the cut to that of the function.
    have hs := h.scale
    have hy : (s * s)⁻¹ * -(s * d) = -(d / s) := by field_simp
    have hadmits := ConstraintSense.admits_dualBounds_mul (inv_nonneg.2 (mul_self_nonneg s)) hsign
    rw [hy] at hadmits
    convert h.isPenalty hadmits using 2 with u
    have hvalue : k + s * u i = s * (u i - (x - T * d)) := by linear_combination -htight
    rw [hvalue, neg_mul, ← mul_assoc, div_mul_cancel₀ d hs]

private theorem IsCut.holds_update_of_ne (h : c.IsCut j k s) (hne : j ≠ i) (u : ℕ → ℝ) (x : ℝ) :
    c.Holds (bySlot (Function.update u i x)) ↔ c.Holds (bySlot u) := by
  rw [h.holds_iff, h.holds_iff, Function.update_of_ne hne]

end RawConstraint

/-- A constraint that bounds a single variable is a cut. -/
theorem Constraint.isCut_of_isVariableBound {c : UncertaintyConstraint ℝ}
    (hc : c.isVariableBound = true) : ∃ i k s, c.toRawConstraint.IsCut i k s := by
  simp only [isVariableBound, ConicExpr.isAffine, Bool.and_eq_true, Option.isNone_iff_eq_none,
    beq_iff_eq] at hc
  obtain ⟨haffine, hsize⟩ := hc
  obtain ⟨t, ht⟩ := List.length_eq_one_iff.1 hsize
  refine ⟨t.var.slot, c.expression.affine.constant, t.scale, haffine, ?_, fun u => ?_⟩
  · exact LinearExpr.scale_ne_zero_of_mem_simplify (ht ▸ List.mem_singleton_self t)
  · rw [AffineExpr.eval, ← LinearExpr.eval_simplify, LinearExpr.eval, ht]
    simp [bySlot]

/-- Bounds of a variable are cuts. -/
theorem Bounds.isCut_of_mem_rows {b : Bounds ℝ} {h : UncertaintyRef}
    {c : RawConstraint (ConicExpr ℝ UncertaintyRef)} (hc : c ∈ b.rows h) :
    ∃ i k s, c.IsCut i k s := by
  simp only [rows, List.mem_append, Option.mem_toList, Option.map_eq_some_iff] at hc
  rcases hc with ⟨x, _, rfl⟩ | ⟨x, _, rfl⟩ <;>
    exact ⟨h.slot, -x, 1, rfl, one_ne_zero, fun u => by
      simp [ConicExpr.ofAffine, AffineExpr.eval, bySlot]⟩

/-- The region of a box consists of cuts. -/
theorem UncertaintySet.isCut_of_mem_region {s : UncertaintySet ℝ} {alternative : ConstraintSet ℝ}
    (hbox : alternative.isBox = true) :
    ∀ c ∈ s.region alternative, ∃ i k s, c.IsCut i k s := by
  intro c hc
  rcases List.mem_append.1 hc with hc | hc
  · obtain ⟨d, hd, rfl⟩ := List.mem_map.1 hc
    exact Constraint.isCut_of_isVariableBound (List.all_eq_true.1 hbox d hd)
  · obtain ⟨e, _, hrow⟩ := List.mem_flatMap.1 hc
    exact Bounds.isCut_of_mem_rows hrow

variable {cs : List (RawConstraint (ConicExpr ℝ UncertaintyRef))} {u₀ : ℕ → ℝ}

/-- Sums of penalties of cuts are penalties of the same cuts. -/
theorem Penalty.add (hcs : ∀ c ∈ cs, ∃ i k s, c.IsCut i k s) {g h : (ℕ → ℝ) → ℝ}
    (hg : Penalty cs g) (hh : Penalty cs h) : Penalty cs (g + h) := by
  induction cs generalizing g h with
  | nil =>
    rw [Penalty.nil_iff] at hg hh ⊢
    rw [hg, hh, add_zero]
  | cons c cs ih =>
    rw [List.forall_mem_cons] at hcs
    obtain ⟨⟨i, k, s, hc⟩, hcs⟩ := hcs
    obtain ⟨g₁, g₂, hg₁, hg₂, rfl⟩ := Penalty.cons_iff.1 hg
    obtain ⟨h₁, h₂, hh₁, hh₂, rfl⟩ := Penalty.cons_iff.1 hh
    refine Penalty.cons_iff.2 ⟨g₁ + h₁, g₂ + h₂, hc.isPenalty_add hg₁ hh₁, ih hcs hg₂ hh₂, ?_⟩
    exact add_add_add_comm _ _ _ _

/-- Moving from a point of the region against a slope in one coordinate, no cut is ever reached, or
one of them yields the multiplier that turns the slope into the value where it is reached. -/
private theorem never_or_reached (hcs : ∀ c ∈ cs, ∃ i k s, c.IsCut i k s)
    (hu₀ : ∀ c ∈ cs, c.Holds (bySlot u₀)) (i : ℕ) {d : ℝ} (hd : d ≠ 0) :
    (∀ t ≥ 0, ∀ c ∈ cs, c.Holds (bySlot (Function.update u₀ i (u₀ i - t * d)))) ∨
      ∃ T ≥ 0, (∀ t ≥ 0, t ≤ T →
          ∀ c ∈ cs, c.Holds (bySlot (Function.update u₀ i (u₀ i - t * d)))) ∧
        Penalty cs fun u => -(d * (u i - (u₀ i - T * d))) := by
  induction cs with
  | nil => exact .inl fun _ _ => by simp
  | cons c cs ih =>
    rw [List.forall_mem_cons] at hcs hu₀
    obtain ⟨⟨j, k, s, hc⟩, hcs⟩ := hcs
    obtain ⟨hc₀, hu₀⟩ := hu₀
    -- What the first cut says about the movement.
    have hfirst : (∀ t ≥ 0, c.Holds (bySlot (Function.update u₀ i (u₀ i - t * d)))) ∨
        ∃ T ≥ 0, (∀ t ≥ 0, t ≤ T → c.Holds (bySlot (Function.update u₀ i (u₀ i - t * d)))) ∧
          c.IsPenalty fun u => -(d * (u i - (u₀ i - T * d))) := by
      by_cases hji : j = i
      · subst hji
        simp only [hc.holds_iff, Function.update_self]
        exact hc.never_or_reached hd ((hc.holds_iff u₀).1 hc₀)
      · exact .inl fun t _ => (hc.holds_update_of_ne hji u₀ _).2 hc₀
    simp only [List.forall_mem_cons]
    rcases hfirst with hfirst | ⟨T, hT, hfirst, hg⟩ <;>
      rcases ih hcs hu₀ with hrest | ⟨T', hT', hrest, hg'⟩
    · exact .inl fun t ht => ⟨hfirst t ht, hrest t ht⟩
    · refine .inr ⟨T', hT', fun t ht htT => ⟨hfirst t ht, hrest t ht htT⟩, ?_⟩
      rw [← zero_add (fun u : ℕ → ℝ => -(d * (u i - (u₀ i - T' * d))))]
      exact .cons (.zero c) hg'
    · refine .inr ⟨T, hT, fun t ht htT => ⟨hfirst t ht htT, hrest t ht⟩, ?_⟩
      exact .of_mem List.mem_cons_self hg
    · -- of two cuts on the way the nearer one ends the movement
      rcases le_total T T' with hle | hle
      · refine .inr ⟨T, hT, fun t ht htT => ⟨hfirst t ht htT, hrest t ht (htT.trans hle)⟩, ?_⟩
        exact .of_mem List.mem_cons_self hg
      · refine .inr ⟨T', hT', fun t ht htT => ⟨hfirst t ht (htT.trans hle), hrest t ht htT⟩, ?_⟩
        rw [← zero_add (fun u : ℕ → ℝ => -(d * (u i - (u₀ i - T' * d))))]
        exact .cons (.zero c) hg'

/-- A function that is bounded from below on the region of cuts can be optimized in one coordinate:
there is a best position, and a penalty that turns the slope into the value there. -/
private theorem exists_best_position (hcs : ∀ c ∈ cs, ∃ i k s, c.IsCut i k s)
    (hu₀ : ∀ c ∈ cs, c.Holds (bySlot u₀)) {f : (ℕ → ℝ) → ℝ} {v : ℝ}
    (hv : ∀ u, (∀ c ∈ cs, c.Holds (bySlot u)) → v ≤ f u) {i : ℕ} {d : ℝ}
    (hf : ∀ x, f (Function.update u₀ i x) = f u₀ + d * (x - u₀ i)) :
    ∃ x, (∀ c ∈ cs, c.Holds (bySlot (Function.update u₀ i x))) ∧
      Penalty cs fun u => -(d * (u i - x)) := by
  by_cases hd : d = 0
  · refine ⟨u₀ i, by simpa using hu₀, ?_⟩
    have hzero : (fun u : ℕ → ℝ => -(d * (u i - u₀ i))) = 0 := by
      funext u
      rw [hd, zero_mul, neg_zero, Pi.zero_apply]
    exact hzero ▸ Penalty.zero cs
  · rcases never_or_reached hcs hu₀ i hd with hnever | ⟨T, hT, hrange, hg⟩
    · -- Moving far enough the function falls below its bound.
      have hdd : 0 < d * d := mul_self_pos.2 hd
      have hfar : 0 ≤ (f u₀ - v + 1) / (d * d) :=
        div_nonneg (by linarith [hv u₀ hu₀]) hdd.le
      have hle := hv _ (hnever _ hfar)
      have hcancel : (f u₀ - v + 1) / (d * d) * (d * d) = f u₀ - v + 1 :=
        div_mul_cancel₀ _ hdd.ne'
      rw [hf] at hle
      nlinarith
    · exact ⟨_, hrange T hT le_rfl, hg⟩

/-- Strong duality: a function that is affine and bounded from below on a region of cuts that is
not empty has a certificate that is as good as the bound. -/
theorem Certifies.exists_of_cuts (hcs : ∀ c ∈ cs, ∃ i k s, c.IsCut i k s)
    (hu₀ : ∀ c ∈ cs, c.Holds (bySlot u₀)) {n : ℕ} {a : ℝ} {d : ℕ → ℝ} {f : (ℕ → ℝ) → ℝ}
    (hf : ∀ u, f u = a + ∑ i ∈ Finset.range n, d i * u i) {v : ℝ}
    (hv : ∀ u, (∀ c ∈ cs, c.Holds (bySlot u)) → v ≤ f u) :
    ∃ w, v ≤ w ∧ Certifies cs f w := by
  have hupdate : ∀ i x, f (Function.update u₀ i x) =
      f u₀ + (if i ∈ Finset.range n then d i else 0) * (x - u₀ i) := by
    intro i x
    have hterm : ∀ j ∈ Finset.range n, d j * Function.update u₀ i x j =
        d j * u₀ j + if j = i then d j * (x - u₀ j) else 0 := by
      intro j _
      by_cases hj : j = i
      · subst hj
        rw [Function.update_self, if_pos rfl]
        ring
      · rw [Function.update_of_ne hj, if_neg hj, add_zero]
    rw [hf, hf, Finset.sum_congr rfl hterm, Finset.sum_add_distrib, Finset.sum_ite_eq', ite_mul,
      zero_mul, add_assoc]
  choose x hx hg using fun i => exists_best_position hcs hu₀ hv (hupdate i)
  have hmem : ∀ c ∈ cs, c.Holds (bySlot x) := by
    intro c hc
    obtain ⟨i, k, s, hcut⟩ := hcs c hc
    have hi := hx i c hc
    rw [hcut.holds_iff, Function.update_self] at hi
    exact (hcut.holds_iff x).2 hi
  refine ⟨f x, hv x hmem, ∑ i ∈ Finset.range n, fun u => -(d i * (u i - x i)), ?_, fun u => ?_⟩
  · refine Finset.sum_induction _ (Penalty cs) (fun _ _ => Penalty.add hcs) (.zero cs)
      fun i hi => ?_
    simpa only [if_pos hi] using hg i
  · simp only [hf, Finset.sum_apply, mul_sub, Finset.sum_neg_distrib, Finset.sum_sub_distrib]
    ring

end AdjustableRobust
