import AdjustableRobust.Lifting.Tightening
import AdjustableRobust.Proofs.Success
import AdjustableRobust.Proofs.Uncertainty.Membership

/-!
# Mass outside of a threshold

What the magnitudes of a realization exceed a threshold by in total. How many of them are beyond the
threshold is not known, so the budget for the excess is a maximum over all numbers of values: what
so many magnitudes may sum up to, less the threshold for each of them.
-/

namespace AdjustableRobust

namespace UncertaintySet

variable {s : UncertaintySet ℝ} {a : ConstraintSet ℝ} {r : List ℝ} {u : ℕ → ℝ}
variable {ω : UncertaintyRef → ℝ} {t t' budget budget' b : ℝ} {k n : ℕ}

/-! ## The budget as a maximum -/

/-- What at least one and at most `n` magnitudes may exceed a threshold by together, where there is
a bound on the sum of so many of them. -/
def excesses (s : UncertaintySet ℝ) (n : ℕ) (t : ℝ) : Set ℝ :=
  {x | ∃ k b, 0 < k ∧ k ≤ n ∧ s.maxOneNorm k = .ok b ∧ x = b - k * t}

/-- Without values nothing exceeds the threshold. -/
@[simp] theorem excesses_zero : s.excesses 0 t = ∅ := by
  rw [Set.eq_empty_iff_forall_notMem]
  rintro x ⟨k, b, hpos, hk, -⟩
  exact hpos.not_ge hk

/-- One more value brings in one more excess. -/
theorem excesses_succ (hb : s.maxOneNorm (n + 1) = .ok b) :
    s.excesses (n + 1) t = insert (b - (n + 1 : ℕ) * t) (s.excesses n t) := by
  ext x
  constructor
  · rintro ⟨k, c, hpos, hk, hc, rfl⟩
    obtain rfl | hlt := Nat.eq_or_lt_of_le hk
    · rw [Except.ok.inj (hc.symm.trans hb)]
      exact Set.mem_insert _ _
    · exact Set.mem_insert_of_mem _ ⟨k, c, hpos, Nat.le_of_lt_succ hlt, hc, rfl⟩
  · rintro (rfl | ⟨k, c, hpos, hk, hc, rfl⟩)
    · exact ⟨n + 1, b, n.succ_pos, le_rfl, hb, rfl⟩
    · exact ⟨k, c, hpos, hk.trans n.le_succ, hc, rfl⟩

/-- The budget is the largest of zero and all excesses. -/
theorem outsideBudget_isGreatest (hrun : s.outsideBudget t = .ok budget) :
    IsGreatest (insert 0 (s.excesses s.numVariables t)) budget := by
  rw [outsideBudget] at hrun
  generalize s.numVariables = n at hrun ⊢
  induction n generalizing budget with
  | zero =>
    rw [List.range_zero, List.foldlM_nil, pure_eq_ok_iff] at hrun
    rw [← hrun, excesses_zero, insert_empty_eq]
    exact isGreatest_singleton
  | succ n ih =>
    rw [List.range_succ, List.foldlM_append, bind_eq_ok_iff] at hrun
    obtain ⟨x, hx, hrun⟩ := hrun
    simp only [List.foldlM_cons, List.foldlM_nil, bind_eq_ok_iff, pure_eq_ok_iff] at hrun
    obtain ⟨_, ⟨b, hb, rfl⟩, rfl⟩ := hrun
    rw [excesses_succ hb, Set.insert_comm, Scalar.max_real, max_comm]
    exact (ih hx).insert _

/-- A higher threshold leaves no more outside. -/
theorem outsideBudget_anti (hrun : s.outsideBudget t = .ok budget)
    (hrun' : s.outsideBudget t' = .ok budget') (ht : t ≤ t') : budget' ≤ budget := by
  have hupper := (outsideBudget_isGreatest hrun).2
  obtain hzero | ⟨k, b, hpos, hk, hb, hbudget⟩ := (outsideBudget_isGreatest hrun').1
  · rw [hzero]
    exact hupper (Set.mem_insert _ _)
  · calc budget' = b - k * t' := hbudget
      _ ≤ b - k * t := sub_le_sub_left (mul_le_mul_of_nonneg_left ht k.cast_nonneg) b
      _ ≤ budget := hupper (Set.mem_insert_of_mem _ ⟨k, b, hpos, hk, hb, rfl⟩)

/-- A budget exists only when there is a bound for every number of magnitudes. -/
theorem exists_of_outsideBudget (hrun : s.outsideBudget t = .ok budget) (hpos : 0 < k)
    (hk : k ≤ s.numVariables) : ∃ b, s.maxOneNorm k = .ok b := by
  have hall := foldlM_forall (P := fun i _ => ∃ b, s.maxOneNorm (i + 1) = .ok b)
    (fun x i _ x' hstep => ?_) hrun
  · obtain ⟨b, hb⟩ := hall (k - 1) (List.mem_range.2 (by omega))
    exact ⟨b, by rwa [Nat.sub_add_cancel hpos] at hb⟩
  · obtain ⟨b, hb, -⟩ := bind_eq_ok_iff.1 hstep
    exact ⟨⟨b, hb⟩, fun _ => id⟩

/-! ## Sets with a budget -/

/-- Sets are decided to be rotationally invariant when they have a known shape and equal bounds. -/
theorem rotationalInvariance_eq_iff : s.rotationalInvariance = .decided true ↔
    s.specialType ≠ .other ∧ s.equalBounds = true := by
  rw [rotationalInvariance]
  split <;> simp_all

/-- Every number of magnitudes of a rotationally invariant set has a bound on its sum. -/
theorem exists_maxOneNorm (hinvariant : s.rotationalInvariance = .decided true) (hpos : 0 < k)
    (hk : k ≤ s.numVariables) : ∃ b, s.maxOneNorm k = .ok b := by
  obtain ⟨htype, hequal⟩ := rotationalInvariance_eq_iff.1 hinvariant
  obtain ⟨a, ha⟩ := exists_single_of_specialType htype
  obtain ⟨b, hsums⟩ := exists_sumsUpTo htype hequal (hpos.trans_le hk) ha k
  exact ⟨b, hsums.maxOneNorm_eq_ok hpos hk hequal ha⟩

/-- A rotationally invariant set has a budget for every threshold. -/
theorem exists_outsideBudget (hinvariant : s.rotationalInvariance = .decided true) (t : ℝ) :
    ∃ budget, s.outsideBudget t = .ok budget := by
  have hyields : Yields (s.outsideBudget t) fun _ => True := by
    refine .foldlM (fun x _ i hi => ?_) trivial
    obtain ⟨b, hb⟩ := exists_maxOneNorm hinvariant i.succ_pos (List.mem_range.1 hi)
    exact .bind_ok hb (.pure trivial)
  obtain ⟨budget, hrun, -⟩ := hyields
  exact ⟨budget, hrun⟩

/-! ## The budget as a bound -/

private theorem sum_excess_eq (r : List ℝ) (t : ℝ) :
    (r.map fun x => max (|x| - t) 0).sum =
      ((r.filter fun x => t < |x|).map fun x => |x|).sum -
        (r.filter fun x => t < |x|).length * t := by
  induction r with
  | nil => simp
  | cons x r ih =>
    rw [List.map_cons, List.sum_cons, ih]
    by_cases hx : t < |x|
    · rw [List.filter_cons_of_pos (by simpa using hx), List.map_cons, List.sum_cons,
        List.length_cons, max_eq_left (sub_nonneg.2 hx.le)]
      push_cast
      ring
    · rw [List.filter_cons_of_neg (by simpa using hx), max_eq_right (sub_nonpos.2 (not_lt.1 hx)),
        zero_add]

/-- What the values of a region exceed a threshold by in total. -/
theorem sum_excess_le_of_region (ha : s.alternatives.items = [a])
    (hu : ∀ c ∈ s.region a, c.Holds (bySlot u)) (hrun : s.outsideBudget t = .ok budget) :
    (((List.range s.numVariables).map u).map fun x => max (|x| - t) 0).sum ≤ budget := by
  have hupper := (outsideBudget_isGreatest hrun).2
  rw [sum_excess_eq]
  -- the values beyond the threshold are some of the values, which of them does not matter
  have hl : (((List.range s.numVariables).map u).filter fun x => t < |x|).Sublist
      ((List.range s.numVariables).map u) := List.filter_sublist
  generalize (((List.range s.numVariables).map u).filter fun x => t < |x|) = l at hl
  obtain hzero | hpos := Nat.eq_zero_or_pos l.length
  · rw [List.length_eq_zero_iff.1 hzero]
    simpa using hupper (Set.mem_insert _ _)
  · have hle : l.length ≤ s.numVariables := by simpa using hl.length_le
    obtain ⟨b, hb⟩ := exists_of_outsideBudget hrun hpos hle
    calc (l.map fun x => |x|).sum - l.length * t
        ≤ b - l.length * t := sub_le_sub_right (sum_abs_le_maxOneNorm ha hu hl hb) _
      _ ≤ budget := hupper (Set.mem_insert_of_mem _ ⟨l.length, b, hpos, hle, hb, rfl⟩)

/-- What realizations exceed a threshold by in total. -/
theorem sum_excess_le_outsideBudget (ha : s.alternatives.items = [a]) (hr : s.Realizes a r)
    (hrun : s.outsideBudget t = .ok budget) :
    (r.map fun x => max (|x| - t) 0).sum ≤ budget := by
  have hle := sum_excess_le_of_region ha (realizes_iff.1 hr).2.2 hrun
  rwa [map_entryAt_range hr.length] at hle

/-- The values of a member of a known shape, given by position, are those of a region. -/
theorem region_of_mem (htype : s.specialType ≠ .other) (ha : s.alternatives.items = [a])
    (hω : ω ∈ s.members) :
    ∀ c ∈ s.region a, c.Holds (bySlot fun i => ω (s.vars.handleFor i)) := by
  have hvalues : s.vars.handles.map (bySlot fun i => ω (s.vars.handleFor i)) =
      s.vars.handles.map ω := by
    rw [Store.map_bySlot_handles, Store.handles, List.map_map]
    rfl
  have hmem : (bySlot fun i => ω (s.vars.handleFor i)) ∈ s.members := by
    refine mem_members_of_specialType htype hω (fun hwithin e he => ?_) fun n => by rw [hvalues]
    obtain ⟨i, -, hhandle⟩ := Store.mem_entries_iff.1 he
    have hadmits := hwithin e he
    rw [hhandle] at hadmits ⊢
    exact hadmits
  obtain ⟨hwithin, a', ha', hconstraints⟩ := mem_members_iff.1 hmem
  obtain rfl : a' = a := by rwa [ha, List.mem_singleton] at ha'
  exact holds_region_iff.2 ⟨hconstraints, hwithin⟩

/-- Every rotationally invariant set has a budget for each threshold. It does not increase with the
threshold, and it is at least what the magnitudes of any member exceed the threshold by in total. -/
theorem outsideBudget_dominates (hinvariant : s.rotationalInvariance = .decided true) :
    ∃ mass : ℝ → ℝ, (∀ t, s.outsideBudget t = .ok (mass t)) ∧ Antitone mass ∧
      ∀ t, ∀ ω ∈ s.members, (s.vars.handles.map fun h => max (|ω h| - t) 0).sum ≤ mass t := by
  choose mass hmass using exists_outsideBudget hinvariant
  refine ⟨mass, hmass, fun t t' ht => outsideBudget_anti (hmass t) (hmass t') ht, ?_⟩
  intro t ω hω
  obtain ⟨htype, -⟩ := rotationalInvariance_eq_iff.1 hinvariant
  obtain ⟨a, ha⟩ := exists_single_of_specialType htype
  have hle := sum_excess_le_of_region ha (region_of_mem htype ha hω) (hmass t)
  rw [List.map_map] at hle
  rw [Store.handles, List.map_map]
  exact hle

/-- On the diamond the budget beyond one half is one half: a single value may use it up, and two
values beyond it would have to share. -/
theorem outsideBudget_dominates_diamond : diamond.rotationalInvariance = .decided true ∧
    diamond.outsideBudget (1 / 2) = .ok (1 / 2) ∧ ∀ ω ∈ diamond.members,
      (diamond.vars.handles.map fun h => max (|ω h| - 1 / 2) 0).sum ≤ 1 / 2 := by
  have hball := ConstraintSet.normBall?_normBall centered .one "budget" zero_le_one
  have htype : diamond.specialType = .budget := (specialType_eq_budget_iff rfl).2 ⟨1, hball⟩
  have hequal : diamond.equalBounds = true := by
    simp [equalBounds, bounds, diamond, centered, Bounds.same, Bounds.sameEnd]
  have hinvariant : diamond.rotationalInvariance = .decided true :=
    rotationalInvariance_eq_iff.2 ⟨htype.trans_ne (by decide), hequal⟩
  have hone : ∀ k, 0 < k → k ≤ 2 → diamond.maxOneNorm k = .ok 1 := by
    intro k hpos hk
    have hsums := SumsUpTo.budget (s := diamond) (k := k) hball
    have hcapped : capped 1 (diamond.magnitude?.map fun m : ℝ => k * m) = 1 := by
      have hk' : (1 : ℝ) ≤ k := Nat.one_le_cast.2 hpos
      simpa [magnitude?, diamond, centered, Bounds.magnitude?, capped] using hk'
    rw [hcapped] at hsums
    exact hsums.maxOneNorm_eq_ok hpos hk hequal rfl
  obtain ⟨mass, hrun, -, hmass⟩ := outsideBudget_dominates hinvariant
  have hbudget : diamond.outsideBudget (1 / 2) = .ok (1 / 2) := by
    have hgreatest : IsGreatest (insert 0 (diamond.excesses 2 (1 / 2))) (1 / 2) := by
      rw [excesses_succ (hone 2 (by decide) le_rfl), excesses_succ (hone 1 (by decide) (by decide)),
        excesses_zero]
      constructor
      · norm_num
      · rintro x (rfl | rfl | rfl | hx)
        · norm_num
        · norm_num
        · norm_num
        · exact absurd hx (Set.notMem_empty x)
    rw [hrun, (outsideBudget_isGreatest (hrun _)).unique hgreatest]
  refine ⟨hinvariant, hbudget, fun ω hω => (hmass _ ω hω).trans_eq ?_⟩
  exact Except.ok.inj ((hrun _).symm.trans hbudget)

end UncertaintySet

end AdjustableRobust
