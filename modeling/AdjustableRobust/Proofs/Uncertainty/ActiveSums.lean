import AdjustableRobust.Proofs.Duality.Norm
import AdjustableRobust.Proofs.Uncertainty.Shape

/-!
# Sums of magnitudes

How large the magnitudes of `k` values of a realization can be together. The shape of the set bounds
them, and when the uncertainties may vanish, there is a realization that reaches the bound: `k` of
its values have the same magnitude, and the others are zero.
-/

namespace AdjustableRobust

variable {r l : List ℝ}

/-! ## Some of the values -/

private theorem sum_abs_le_mul {m : ℝ} (h : ∀ x ∈ l, |x| ≤ m) :
    (l.map fun x => |x|).sum ≤ l.length * m := by
  have hsum := List.sum_le_card_nsmul (l.map fun x => |x|) m (List.forall_mem_map.2 h)
  rwa [List.length_map, nsmul_eq_mul] at hsum

private theorem sum_abs_le_one (hl : l.Sublist r) :
    (l.map fun x => |x|).sum ≤ NormKind.one.apply r := by
  rw [NormKind.apply_one]
  refine (hl.map _).sum_le_sum fun y hy => ?_
  obtain ⟨x, -, rfl⟩ := List.mem_map.1 hy
  exact abs_nonneg x

private theorem sum_abs_le_two (hl : l.Sublist r) :
    (l.map fun x => |x|).sum ≤ Real.sqrt l.length * NormKind.two.apply r := by
  -- the magnitudes are paired with a one for each of them
  have hpairing : ∀ l : List ℝ,
      pairing (List.replicate l.length 1) (l.map fun x => |x|) = (l.map fun x => |x|).sum := by
    intro l
    induction l with
    | nil => rfl
    | cons x l ih =>
      rw [List.length_cons, List.replicate_succ, List.map_cons, pairing_cons_cons, ih,
        List.sum_cons, one_mul]
  have hones : NormKind.two.apply (List.replicate l.length 1) = Real.sqrt l.length := by
    rw [NormKind.apply_two, List.map_replicate, List.sum_replicate, nsmul_eq_mul]
    norm_num
  have habs : NormKind.two.apply (l.map fun x => |x|) ≤ NormKind.two.apply r := by
    rw [NormKind.apply_two, NormKind.apply_two, List.map_map]
    apply Real.sqrt_le_sqrt
    have hsquares : l.map ((fun x => x * x) ∘ fun x => |x|) = l.map fun x => x * x :=
      List.map_congr_left fun x _ => abs_mul_abs_self x
    rw [hsquares]
    refine (hl.map _).sum_le_sum fun y hy => ?_
    obtain ⟨x, -, rfl⟩ := List.mem_map.1 hy
    exact mul_self_nonneg x
  calc (l.map fun x => |x|).sum
      = pairing (List.replicate l.length 1) (l.map fun x => |x|) := (hpairing l).symm
    _ ≤ NormKind.two.apply (List.replicate l.length 1) * NormKind.two.apply (l.map fun x => |x|) :=
        pairing_le_dual_mul .two _ _
    _ ≤ Real.sqrt l.length * NormKind.two.apply r := by
        rw [hones]
        exact mul_le_mul_of_nonneg_left habs (Real.sqrt_nonneg _)

/-! ## A value at the first positions -/

/-- The first `k` values are the same, the others are zero. -/
private noncomputable def leading (k : ℕ) (x : ℝ) (i : ℕ) : ℝ := if i < k then x else 0

private theorem map_leading {k n : ℕ} (hk : k ≤ n) (x : ℝ) :
    (List.range n).map (leading k x) = List.replicate k x ++ List.replicate (n - k) 0 := by
  refine List.ext_getElem (by simp [hk]) fun i hi hi' => ?_
  by_cases hik : i < k
  · simp [leading, hik, List.getElem_append_left]
  · rw [List.getElem_append_right (by simpa using hik)]
    simp [leading, hik]

private theorem apply_one_leading {k n : ℕ} (hk : k ≤ n) (x : ℝ) :
    NormKind.one.apply ((List.range n).map (leading k x)) = k * |x| := by
  simp [map_leading hk, NormKind.apply_one]

private theorem apply_two_leading {k n : ℕ} (hk : k ≤ n) (x : ℝ) :
    NormKind.two.apply ((List.range n).map (leading k x)) = Real.sqrt k * |x| := by
  simp [map_leading hk, NormKind.apply_two, Real.sqrt_mul_self_eq_abs]

namespace UncertaintySet

variable {s : UncertaintySet ℝ} {a : ConstraintSet ℝ} {k : ℕ} {b : ℝ} {u : ℕ → ℝ}

/-! ## What the shape bounds -/

/-- A number is at most the capped bound when it is at most the cap and the bound, if there is
one. -/
theorem le_capped_iff {x cap : ℝ} {bound? : Option ℝ} :
    x ≤ capped cap bound? ↔ x ≤ cap ∧ ∀ y, bound? = some y → x ≤ y := by
  cases bound? with
  | none => simp [capped]
  | some y =>
    rw [capped, Scalar.min_real, le_min_iff, and_comm]
    simp

private theorem abs_le_of_region (hu : ∀ c ∈ s.region a, c.Holds (bySlot u))
    (hequal : s.equalBounds = true) (hl : l.Sublist ((List.range s.numVariables).map u)) {m : ℝ}
    (hm : s.magnitude? = some m) : ∀ x ∈ l, |x| ≤ m := by
  intro x hx
  obtain ⟨i, hi, rfl⟩ := List.mem_map.1 (hl.subset hx)
  have hi' : i < s.vars.items.length := List.mem_range.1 hi
  have hadmits := (holds_region_iff.1 hu).2 (s.vars.handleFor i, s.vars.items[i])
    (Store.mem_entries_iff.2 ⟨i, List.getElem?_eq_getElem hi', rfl⟩)
  refine Bounds.abs_le_of_magnitude? hadmits ?_
  rw [magnitude?_of_mem hequal (List.getElem_mem hi'), hm]

/-- The magnitudes of some values of a region sum up to what the shape allows. -/
theorem SumsUpTo.sum_abs_le (hsums : s.SumsUpTo a l.length b) (hequal : s.equalBounds = true)
    (hu : ∀ c ∈ s.region a, c.Holds (bySlot u))
    (hl : l.Sublist ((List.range s.numVariables).map u)) : (l.map fun x => |x|).sum ≤ b := by
  have hbox : ∀ y, (s.magnitude?.map fun m : ℝ => l.length * m) = some y →
      (l.map fun x => |x|).sum ≤ y := by
    intro y hy
    obtain ⟨m, hm, rfl⟩ := Option.map_eq_some_iff.1 hy
    exact sum_abs_le_mul (abs_le_of_region hu hequal hl hm)
  have hconstraints := (holds_region_iff.1 hu).1
  cases hsums with
  | box hempty hm => exact hbox _ (by rw [hm, Option.map_some])
  | budget hball =>
    have hnorm := (holds_iff_of_normBall? hball).1 hconstraints
    exact le_capped_iff.2 ⟨(sum_abs_le_one hl).trans hnorm, hbox⟩
  | ball hball =>
    have hnorm := (holds_iff_of_normBall? hball).1 hconstraints
    have hspread := mul_le_mul_of_nonneg_left hnorm (Real.sqrt_nonneg l.length)
    exact le_capped_iff.2 ⟨(sum_abs_le_two hl).trans hspread, hbox⟩

/-- The magnitudes of as many values of a region as are asked for. -/
theorem sum_abs_le_maxOneNorm (ha : s.alternatives.items = [a])
    (hu : ∀ c ∈ s.region a, c.Holds (bySlot u))
    (hl : l.Sublist ((List.range s.numVariables).map u)) (hrun : s.maxOneNorm l.length = .ok b) :
    (l.map fun x => |x|).sum ≤ b := by
  obtain hzero | hpos := Nat.eq_zero_or_pos l.length
  · rw [hzero, maxOneNorm, if_pos rfl, pure_eq_ok_iff] at hrun
    rw [List.length_eq_zero_iff.1 hzero, ← hrun]
    exact le_rfl
  · obtain ⟨-, hequal, a', ha', hsums⟩ := sumsUpTo_of_maxOneNorm hpos hrun
    obtain rfl : a = a' := List.singleton_inj.1 (ha.symm.trans ha')
    exact hsums.sum_abs_le hequal hu hl

/-! ## What is reached -/

/-- No bound on magnitudes is negative. -/
theorem SumsUpTo.nonneg (hsums : s.SumsUpTo a k b) : 0 ≤ b := by
  have hbox : ∀ y, (s.magnitude?.map fun m : ℝ => k * m) = some y → 0 ≤ y := by
    intro y hy
    obtain ⟨m, hm, rfl⟩ := Option.map_eq_some_iff.1 hy
    obtain ⟨v, -, hv⟩ := Option.bind_eq_some_iff.1 hm
    exact mul_nonneg k.cast_nonneg (Bounds.nonneg_of_magnitude? hv)
  cases hsums with
  | box hempty hm => exact hbox _ (by rw [hm, Option.map_some])
  | budget hball =>
    exact le_capped_iff.2 ⟨(ConstraintSet.normBall?_eq_some hball).1, hbox⟩
  | ball hball =>
    exact le_capped_iff.2
      ⟨mul_nonneg (Real.sqrt_nonneg k) (ConstraintSet.normBall?_eq_some hball).1, hbox⟩

/-- With equal bounds all uncertainties admit the same values. -/
theorem admits_of_equalBounds (hequal : s.equalBounds = true) {v w : UncertaintyVariable ℝ}
    (hv : v ∈ s.vars.items) (hw : w ∈ s.vars.items) {x : ℝ} (hx : v.bounds.admits x = true) :
    w.bounds.admits x = true := by
  obtain ⟨hlower, hupper⟩ := eq_bounds_of_equalBounds hequal hv hw
  rw [Bounds.admits, ← hlower, ← hupper]
  exact hx

private theorem SumsUpTo.exists_leading (hsums : s.SumsUpTo a k b) (hk : 0 < k)
    (hn : k ≤ s.numVariables) (hequal : s.equalBounds = true)
    (hzero : ∀ v ∈ s.vars.items, v.bounds.admits 0 = true) :
    ∃ x : ℝ, k * |x| = b ∧ ∀ c ∈ s.region a, c.Holds (bySlot (leading k x)) := by
  have hk' : (0 : ℝ) < k := Nat.cast_pos.2 hk
  obtain ⟨first, hfirst⟩ := List.exists_mem_of_length_pos (hk.trans_le hn)
  -- each of the first `k` values takes the same share of the bound
  have hbox : ∀ m, s.magnitude? = some m → b / k ≤ m := by
    intro m hm
    rw [div_le_iff₀' hk']
    cases hsums with
    | box hempty hm' => rw [Option.some.inj (hm.symm.trans hm')]
    | budget hball => exact (le_capped_iff.1 le_rfl).2 _ (by rw [hm, Option.map_some])
    | ball hball => exact (le_capped_iff.1 le_rfl).2 _ (by rw [hm, Option.map_some])
  rw [← magnitude?_of_mem hequal hfirst] at hbox
  obtain ⟨x, hx, hadmits⟩ :=
    Bounds.exists_abs_eq (hzero first hfirst) (div_nonneg hsums.nonneg hk'.le) hbox
  refine ⟨x, by rw [hx, mul_div_cancel₀ _ hk'.ne'], holds_region_iff.2 ⟨?_, ?_⟩⟩
  · cases hsums with
    | box hempty hm => simp [hempty]
    | budget hball =>
      rw [holds_iff_of_normBall? hball, apply_one_leading hn, hx, mul_div_cancel₀ _ hk'.ne']
      exact (le_capped_iff.1 le_rfl).1
    | ball hball =>
      rw [holds_iff_of_normBall? hball, apply_two_leading hn, hx, mul_div_assoc',
        div_le_iff₀ hk']
      calc Real.sqrt k * capped _ _ ≤ Real.sqrt k * (Real.sqrt k * _) :=
            mul_le_mul_of_nonneg_left (le_capped_iff.1 le_rfl).1 (Real.sqrt_nonneg _)
        _ = _ := by rw [← mul_assoc, Real.mul_self_sqrt hk'.le, mul_comm]
  · intro e he
    obtain ⟨i, hi, hhandle⟩ := Store.mem_entries_iff.1 he
    have hmem : e.2 ∈ s.vars.items := List.mem_of_getElem? hi
    rw [hhandle]
    change e.2.bounds.admits (leading k x i) = true
    unfold leading
    split
    · exact admits_of_equalBounds hequal hfirst hmem hadmits
    · exact hzero _ hmem

/-! ## The largest sum -/

/-- Sums of the magnitudes at `k` positions, over all values that respect the bounds and satisfy the
constraints of an alternative. -/
def activeSums (s : UncertaintySet ℝ) (k : ℕ) : Set ℝ :=
  {x | ∃ a ∈ s.alternatives.items, ∃ u : ℕ → ℝ, (∀ c ∈ s.region a, c.Holds (bySlot u)) ∧
    ∃ positions ⊆ Finset.range s.numVariables, positions.card = k ∧ x = ∑ i ∈ positions, |u i|}

private theorem SumsUpTo.sum_positions_le {positions : Finset ℕ}
    (hsums : s.SumsUpTo a positions.card b) (hequal : s.equalBounds = true)
    (hu : ∀ c ∈ s.region a, c.Holds (bySlot u))
    (hsub : positions ⊆ Finset.range s.numVariables) : ∑ i ∈ positions, |u i| ≤ b := by
  let chosen := (List.range s.numVariables).filter (· ∈ positions)
  have hnodup : chosen.Nodup := List.nodup_range.filter _
  have hpositions : chosen.toFinset = positions := by
    ext i
    simpa [chosen] using fun hi => Finset.mem_range.1 (hsub hi)
  have hcard : (chosen.map u).length = positions.card := by
    rw [List.length_map, ← List.toFinset_card_of_nodup hnodup, hpositions]
  rw [← hcard] at hsums
  have hle := hsums.sum_abs_le hequal hu (List.filter_sublist.map u)
  rwa [List.map_map, ← List.sum_toFinset _ hnodup, hpositions] at hle

/-- The bound on `k` magnitudes is one for the magnitudes at any `k` positions of any realization.
It is the largest of them when the uncertainties may vanish. -/
theorem maxOneNorm_tight (hk : 0 < k) (hrun : s.maxOneNorm k = .ok b) :
    b ∈ upperBounds (s.activeSums k) ∧
      ((∀ v ∈ s.vars.items, v.bounds.admits 0 = true) → IsGreatest (s.activeSums k) b) := by
  obtain ⟨hn, hequal, a, ha, hsums⟩ := sumsUpTo_of_maxOneNorm hk hrun
  have hupper : b ∈ upperBounds (s.activeSums k) := by
    rintro _ ⟨a', ha', u, hu, positions, hsub, rfl, rfl⟩
    obtain rfl : a' = a := by rwa [ha, List.mem_singleton] at ha'
    exact hsums.sum_positions_le hequal hu hsub
  refine ⟨hupper, fun hzero => ⟨?_, hupper⟩⟩
  obtain ⟨x, hx, hregion⟩ := hsums.exists_leading hk hn hequal hzero
  refine ⟨a, by rw [ha]; exact List.mem_singleton_self a, leading k x, hregion, Finset.range k,
    Finset.range_subset_range.2 hn, Finset.card_range k, ?_⟩
  rw [← hx, Finset.sum_congr rfl fun i hi => by rw [leading, if_pos (Finset.mem_range.1 hi)],
    Finset.sum_const, Finset.card_range, nsmul_eq_mul]

/-- Two uncertainties between minus one and zero. -/
noncomputable def leaning : UncertaintySet ℝ :=
  let bounds : Bounds ℝ := ⟨some (-1), some 0, by rintro _ _ ⟨⟩ ⟨⟩; norm_num⟩
  ⟨"leaning", ⟨⟨0⟩, 0, [⟨"u", none, bounds⟩, ⟨"v", none, bounds⟩]⟩, ⟨⟨0⟩, 0, [.empty]⟩⟩

/-- The leaning uncertainties with a budget of one for their magnitudes. -/
noncomputable def leaningBudget : UncertaintySet ℝ :=
  { leaning with alternatives := ⟨⟨0⟩, 0, [⟨[.named "budget" (leaning.normBall .one 1)]⟩]⟩ }

/-- Both uncertainties together use up the budget, which is less than the bounds allow. -/
theorem maxOneNorm_tight_leaningBudget :
    0 < 2 ∧ leaningBudget.maxOneNorm 2 = .ok 1 ∧ IsGreatest (leaningBudget.activeSums 2) 1 := by
  have hequal : leaningBudget.equalBounds = true := by
    simp [equalBounds, bounds, leaningBudget, leaning, Bounds.same, Bounds.sameEnd]
  have hbudget := SumsUpTo.budget (s := leaningBudget) (k := 2)
    (ConstraintSet.normBall?_normBall leaning .one "budget" zero_le_one)
  have hb : capped 1 (leaningBudget.magnitude?.map fun m : ℝ => (2 : ℕ) * m) = 1 := by
    norm_num [magnitude?, leaningBudget, leaning, Bounds.magnitude?, capped]
  rw [hb] at hbudget
  have hrun := hbudget.maxOneNorm_eq_ok (by decide) le_rfl hequal rfl
  refine ⟨by decide, hrun, (maxOneNorm_tight (by decide) hrun).2 ?_⟩
  simp [leaningBudget, leaning, Bounds.admits]

end UncertaintySet

end AdjustableRobust
