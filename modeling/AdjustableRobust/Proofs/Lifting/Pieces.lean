import AdjustableRobust.Lifting.Breakpoints
import AdjustableRobust.Proofs.Expression.Value
import AdjustableRobust.Proofs.Uncertainty.Region

/-!
# Pieces of a range

Breakpoints split a range into consecutive pieces of positive width. The parts of a value that fall
into the pieces fill one piece after the other, and up to any breakpoint they add up to the part of
the value below it.
-/

namespace AdjustableRobust

namespace BreakpointSeries

/-- Breakpoints increase strictly inside a range whose ends are in order. -/
structure Ordered (s : BreakpointSeries ℝ) : Prop where
  range : s.lower ≤ s.upper
  inside : ∀ b ∈ s.breakPoints, s.lower < b ∧ b < s.upper
  increasing : s.breakPoints.Pairwise (· < ·)

/-- The series was made from points along a direction for a given uncertainty set. -/
def IsOver (s : BreakpointSeries ℝ) (set : UncertaintySet ℝ) : Prop :=
  ∃ points direction, make points direction set.scope = .ok s

/-! ## How a series is made -/

/-- What is kept lies inside the range, above the last point kept before, and increases. -/
theorem keepInside_spec (lower upper : ℝ) (last : Option ℝ) (bs : List ℝ) :
    (∀ b ∈ keepInside lower upper last bs, (lower < b ∧ b < upper) ∧ ∀ l ∈ last, l < b) ∧
      (keepInside lower upper last bs).Pairwise (· < ·) := by
  induction bs generalizing last with
  | nil => simp [keepInside]
  | cons b bs ih =>
    rw [keepInside]
    split
    · next hkeep =>
      rw [Bool.and_eq_true, Bool.and_eq_true, decide_eq_true_eq, decide_eq_true_eq] at hkeep
      obtain ⟨hinside, hlast⟩ := hkeep
      obtain ⟨hrest, hincreasing⟩ := ih (some b)
      have habove : ∀ c ∈ keepInside lower upper (some b) bs, b < c := fun c hc =>
        (hrest c hc).2 b rfl
      have hlast : ∀ l ∈ last, l < b := by
        intro l hl
        rw [Option.mem_def.1 hl, Option.all_some, decide_eq_true_eq] at hlast
        exact hlast
      rw [List.forall_mem_cons, List.pairwise_cons]
      refine ⟨⟨⟨hinside, hlast⟩, fun c hc => ⟨(hrest c hc).1, fun l hl => ?_⟩⟩, habove, hincreasing⟩
      exact (hlast l hl).trans (habove c hc)
    · exact ih last

/-- Points pass the check when they do not decrease. -/
theorem decreases_eq_false_iff {points : List ℝ} :
    decreases points = false ↔ points.Pairwise (· ≤ ·) := by
  induction points with
  | nil => simp [decreases]
  | cons x points ih =>
    cases points with
    | nil => simp [decreases]
    | cons y points =>
      rw [decreases, Bool.or_eq_false_iff, decide_eq_false_iff_not, not_lt, ih]
      refine ⟨fun ⟨hxy, hrest⟩ => List.pairwise_cons.2 ⟨fun z hz => ?_, hrest⟩, fun h => ?_⟩
      · obtain rfl | hz := List.mem_cons.1 hz
        · exact hxy
        · exact hxy.trans (List.rel_of_pairwise_cons hrest hz)
      · exact ⟨List.rel_of_pairwise_cons h List.mem_cons_self, List.Pairwise.of_cons h⟩

/-- Points in order are kept when they lie inside the range, above the last point kept before. -/
theorem mem_keepInside_iff {lower upper : ℝ} {last : Option ℝ} {bs : List ℝ}
    (hbs : bs.Pairwise (· ≤ ·)) {x : ℝ} :
    x ∈ keepInside lower upper last bs ↔
      x ∈ bs ∧ (lower < x ∧ x < upper) ∧ ∀ l, last = some l → l < x := by
  induction bs generalizing last with
  | nil => simp [keepInside]
  | cons b bs ih =>
    obtain ⟨hb, hrest⟩ := List.pairwise_cons.1 hbs
    have hlast : last.all (fun l => decide (l < b)) = true ↔ ∀ l, last = some l → l < b := by
      cases last <;> simp
    rw [keepInside]
    simp only [Bool.and_eq_true, decide_eq_true_eq, hlast]
    split
    · next hkeep =>
      rw [List.mem_cons, ih hrest, List.mem_cons]
      constructor
      · rintro (rfl | ⟨hx, hinside, habove⟩)
        · exact ⟨.inl rfl, hkeep⟩
        · exact ⟨.inr hx, hinside, fun l hl => (hkeep.2 l hl).trans (habove b rfl)⟩
      · rintro ⟨hx, hinside, habove⟩
        by_cases hxb : x = b
        · exact .inl hxb
        · have hx := hx.resolve_left hxb
          refine .inr ⟨hx, hinside, fun l hl => ?_⟩
          obtain rfl := Option.some.inj hl
          exact lt_of_le_of_ne (hb x hx) (Ne.symm hxb)
    · next hdrop =>
      rw [ih hrest, List.mem_cons]
      refine ⟨fun h => ⟨.inr h.1, h.2⟩, fun h => ⟨h.1.resolve_left ?_, h.2⟩⟩
      rintro rfl
      exact hdrop h.2

private theorem zero_add_one_mul (x : Extended ℝ) : 0 + Extended.ofScalar 1 * x = x := by
  rw [Extended.ofScalar_real]
  cases x with
  | finite x =>
    rw [Extended.finite_mul_finite, one_mul]
    change Extended.finite 0 + Extended.finite x = _
    rw [Extended.finite_add_finite, zero_add]
  | negInf =>
    change Extended.add (.finite 0) (Extended.infinityLike (-1)) = _
    norm_num [Extended.infinityLike, Extended.add]
  | posInf =>
    change Extended.add (.finite 0) (Extended.infinityLike 1) = _
    simp [Extended.infinityLike, Extended.add]
  | undefined => rfl

private theorem scale_one_lower (i : Interval ℝ) :
    (i.scale 1).lower = Extended.ofScalar 1 * i.lower := by
  simp [Interval.scale]

private theorem scale_one_upper (i : Interval ℝ) :
    (i.scale 1).upper = Extended.ofScalar 1 * i.upper := by
  simp [Interval.scale]

private theorem ofLower_eq_finite_iff (b? : Option ℝ) (x : ℝ) :
    Extended.ofLower b? = .finite x ↔ b? = some x := by
  cases b? <;> simp [Extended.ofLower]

private theorem ofUpper_eq_finite_iff (b? : Option ℝ) (x : ℝ) :
    Extended.ofUpper b? = .finite x ↔ b? = some x := by
  cases b? <;> simp [Extended.ofUpper]

private theorem scope_bounds {set : UncertaintySet ℝ} {u : UncertaintyRef}
    {v : UncertaintyVariable ℝ} (hv : set.variableAt u = .ok v) :
    set.scope.bounds u = .ok v.bounds.interval := by
  change (do return (← set.variableAt u).bounds.interval) = _
  rw [hv]
  rfl

private theorem lower_eq {e : LinearExpr ℝ UncertaintyRef} {set : UncertaintySet ℝ}
    {u : UncertaintyRef} {v : UncertaintyVariable ℝ} (hterms : e.terms = [⟨1, u⟩])
    (hv : set.variableAt u = .ok v) : e.lower set.scope = .ok (.ofLower v.bounds.lower?) := by
  simp only [LinearExpr.lower, hterms, List.foldlM_cons, List.foldlM_nil, Term.bounds,
    scope_bounds hv, bind_eq_ok_iff, pure_eq_ok_iff, Except.ok.injEq, exists_eq_left',
    scale_one_lower, zero_add_one_mul]
  rfl

private theorem upper_eq {e : LinearExpr ℝ UncertaintyRef} {set : UncertaintySet ℝ}
    {u : UncertaintyRef} {v : UncertaintyVariable ℝ} (hterms : e.terms = [⟨1, u⟩])
    (hv : set.variableAt u = .ok v) : e.upper set.scope = .ok (.ofUpper v.bounds.upper?) := by
  simp only [LinearExpr.upper, hterms, List.foldlM_cons, List.foldlM_nil, Term.bounds,
    scope_bounds hv, bind_eq_ok_iff, pure_eq_ok_iff, Except.ok.injEq, exists_eq_left',
    scale_one_upper, zero_add_one_mul]
  rfl

private theorem terms_of_axis {s : BreakpointSeries ℝ} {u : UncertaintyRef}
    (haxis : s.axis = .ok u) : s.direction.terms = [⟨1, u⟩] := by
  rw [axis] at haxis
  split at haxis
  · next t ht =>
    split at haxis
    · next hone =>
      obtain rfl := Except.ok.inj haxis
      rw [Scalar.beq_real, decide_eq_true_eq] at hone
      rw [ht, ← hone]
    · cases haxis
  · cases haxis

/-- A series that can be made has the finite range of its simplified direction, and keeps points
that do not decrease inside it. -/
theorem make_eq_ok {points : List ℝ} {direction : LinearExpr ℝ UncertaintyRef}
    {scope : Scope ℝ UncertaintyRef} {s : BreakpointSeries ℝ}
    (hmake : make points direction scope = .ok s) :
    direction.simplify.lower scope = .ok (.finite s.lower) ∧
      direction.simplify.upper scope = .ok (.finite s.upper) ∧ points.Pairwise (· ≤ ·) ∧
      s.direction = direction.simplify ∧
      s.breakPoints = keepInside s.lower s.upper none points := by
  simp only [make, bind_eq_ok_iff, PolicyError.fromModel, mapError_eq_ok_iff] at hmake
  obtain ⟨lower, hlower, upper, hupper, hmake⟩ := hmake
  split at hmake
  · split at hmake
    · obtain ⟨_, hthrow, -⟩ := bind_eq_ok_iff.1 hmake
      exact absurd hthrow throw_ne_ok
    · next hordered =>
      rw [pure_eq_ok_iff] at hmake
      subst hmake
      exact ⟨hlower, hupper, decreases_eq_false_iff.1 (Bool.eq_false_of_not_eq_true hordered), rfl,
        rfl⟩
  · exact absurd hmake throw_ne_ok

/-- A series along an axis has the bounds of the variable as its range. -/
theorem IsOver.along_axis {s : BreakpointSeries ℝ} {set : UncertaintySet ℝ} (h : s.IsOver set)
    {u : UncertaintyRef} (haxis : s.axis = .ok u) {v : UncertaintyVariable ℝ}
    (hv : set.variableAt u = .ok v) :
    s.Ordered ∧ s.direction.terms = [⟨1, u⟩] ∧ v.bounds.lower? = some s.lower ∧
      v.bounds.upper? = some s.upper := by
  obtain ⟨points, direction, hmake⟩ := h
  obtain ⟨hlower, hupper, -, hdirection, hkept⟩ := make_eq_ok hmake
  rw [← hdirection] at hlower hupper
  have hterms := terms_of_axis haxis
  have hl := (ofLower_eq_finite_iff _ _).1
    (Except.ok.inj ((lower_eq hterms hv).symm.trans hlower))
  have hr := (ofUpper_eq_finite_iff _ _).1
    (Except.ok.inj ((upper_eq hterms hv).symm.trans hupper))
  obtain ⟨hinside, hincreasing⟩ := keepInside_spec s.lower s.upper none points
  rw [← hkept] at hinside hincreasing
  exact ⟨⟨not_lt.1 (v.bounds.ordered _ _ hl hr), fun b hb => (hinside b hb).1, hincreasing⟩,
    hterms, hl, hr⟩

/-- A series along a variable takes both bounds, and points that do not decrease. -/
theorem make_var_eq {set : UncertaintySet ℝ} {u : UncertaintyRef} {v : UncertaintyVariable ℝ}
    (hv : set.variableAt u = .ok v) (points : List ℝ) :
    make points (.var u) set.scope = match v.bounds.lower?, v.bounds.upper? with
      | some l, some r =>
        if decreases points then .error .unorderedBreakpoints
        else .ok ⟨keepInside l r none points, .var u, l, r⟩
      | _, _ => .error .unboundedDirection := by
  have hsimplify : (LinearExpr.var u : LinearExpr ℝ UncertaintyRef).simplify = .var u := by
    simp [LinearExpr.simplify, LinearExpr.merged, LinearExpr.mergeTerm, LinearExpr.var,
      LinearExpr.term]
  simp only [make, hsimplify, lower_eq (e := .var u) rfl hv, upper_eq (e := .var u) rfl hv]
  cases v.bounds.lower? with
  | none => rfl
  | some l =>
    cases v.bounds.upper? with
    | none => rw [(ofLower_eq_finite_iff (some l) l).2 rfl]; rfl
    | some r =>
      rw [(ofLower_eq_finite_iff (some l) l).2 rfl, (ofUpper_eq_finite_iff (some r) r).2 rfl]
      cases decreases points <;> rfl

/-- Points that do not decrease make a series along a variable that has both bounds. -/
theorem make_var {set : UncertaintySet ℝ} {u : UncertaintyRef} {v : UncertaintyVariable ℝ}
    (hv : set.variableAt u = .ok v) {l r : ℝ} (hl : v.bounds.lower? = some l)
    (hr : v.bounds.upper? = some r) {points : List ℝ} (hpoints : decreases points = false) :
    make points (.var u) set.scope = .ok ⟨keepInside l r none points, .var u, l, r⟩ := by
  simp only [make_var_eq hv, hl, hr, hpoints, Bool.false_eq_true, if_false]

/-! ## Ends of pieces -/

variable {s : BreakpointSeries ℝ} {i j : ℕ} {x : ℝ}

@[simp] theorem pieceStart_zero (s : BreakpointSeries ℝ) : s.pieceStart 0 = s.lower := rfl

@[simp] theorem pieceStart_succ (s : BreakpointSeries ℝ) (i : ℕ) :
    s.pieceStart (i + 1) = s.pieceEnd i := rfl

/-- A piece that is not the last one ends at a breakpoint. -/
theorem pieceEnd_of_lt (h : i < s.breakPoints.length) : s.pieceEnd i = s.breakPoints[i] := by
  rw [pieceEnd, List.getElem?_eq_getElem h, Option.getD_some]

/-- From the last piece on, pieces end at the upper end. -/
theorem pieceEnd_of_le (h : s.breakPoints.length ≤ i) : s.pieceEnd i = s.upper := by
  rw [pieceEnd, List.getElem?_eq_none h, Option.getD_none]

/-- All pieces are over at the upper end. -/
theorem pieceStart_numPieces (s : BreakpointSeries ℝ) : s.pieceStart s.numPieces = s.upper :=
  pieceEnd_of_le le_rfl

namespace Ordered

/-- No piece ends beyond the upper end. -/
theorem pieceEnd_le_upper (hs : s.Ordered) (i : ℕ) : s.pieceEnd i ≤ s.upper := by
  by_cases h : i < s.breakPoints.length
  · rw [pieceEnd_of_lt h]
    exact (hs.inside _ (List.getElem_mem h)).2.le
  · rw [pieceEnd_of_le (not_lt.1 h)]

/-- No piece ends below the lower end. -/
theorem lower_le_pieceEnd (hs : s.Ordered) (i : ℕ) : s.lower ≤ s.pieceEnd i := by
  by_cases h : i < s.breakPoints.length
  · rw [pieceEnd_of_lt h]
    exact (hs.inside _ (List.getElem_mem h)).1.le
  · rw [pieceEnd_of_le (not_lt.1 h)]
    exact hs.range

/-- Later pieces do not end earlier. -/
theorem pieceEnd_mono (hs : s.Ordered) (h : i ≤ j) : s.pieceEnd i ≤ s.pieceEnd j := by
  by_cases hj : j < s.breakPoints.length
  · rw [pieceEnd_of_lt hj, pieceEnd_of_lt (h.trans_lt hj)]
    rcases h.eq_or_lt with rfl | hlt
    · exact le_rfl
    · exact (List.pairwise_iff_getElem.1 hs.increasing i j _ hj hlt).le
  · rw [pieceEnd_of_le (not_lt.1 hj)]
    exact hs.pieceEnd_le_upper i

/-- A piece does not end before it starts. -/
theorem pieceStart_le_pieceEnd (hs : s.Ordered) (i : ℕ) : s.pieceStart i ≤ s.pieceEnd i := by
  cases i with
  | zero => exact hs.lower_le_pieceEnd 0
  | succ i => exact hs.pieceEnd_mono i.le_succ

/-- No piece starts below the lower end. -/
theorem lower_le_pieceStart (hs : s.Ordered) (i : ℕ) : s.lower ≤ s.pieceStart i := by
  cases i with
  | zero => exact le_rfl
  | succ i => exact hs.lower_le_pieceEnd i

/-- A piece starts when all earlier ones are over. -/
theorem pieceEnd_le_pieceStart (hs : s.Ordered) (h : i < j) : s.pieceEnd i ≤ s.pieceStart j := by
  cases j with
  | zero => exact absurd h i.not_lt_zero
  | succ j => exact hs.pieceEnd_mono (Nat.le_of_lt_succ h)

/-- Later pieces do not start earlier. -/
theorem pieceStart_mono (hs : s.Ordered) (h : i ≤ j) : s.pieceStart i ≤ s.pieceStart j := by
  cases i with
  | zero => exact hs.lower_le_pieceStart j
  | succ i => exact hs.pieceEnd_le_pieceStart h

/-- With several pieces, each of them has a positive width. -/
theorem pieceStart_lt_pieceEnd (hs : s.Ordered) (hn : 1 < s.numPieces) (hi : i < s.numPieces) :
    s.pieceStart i < s.pieceEnd i := by
  rw [numPieces] at hn hi
  cases i with
  | zero =>
    have h0 : 0 < s.breakPoints.length := by omega
    rw [pieceStart_zero, pieceEnd_of_lt h0]
    exact (hs.inside _ (List.getElem_mem h0)).1
  | succ i =>
    have hstart : i < s.breakPoints.length := by omega
    rw [pieceStart_succ, pieceEnd_of_lt hstart]
    by_cases h : i + 1 < s.breakPoints.length
    · rw [pieceEnd_of_lt h]
      exact List.pairwise_iff_getElem.1 hs.increasing i (i + 1) hstart h i.lt_succ_self
    · rw [pieceEnd_of_le (not_lt.1 h)]
      exact (hs.inside _ (List.getElem_mem hstart)).2

/-- No width is negative. -/
theorem pieceWidth_nonneg (hs : s.Ordered) (i : ℕ) : 0 ≤ s.pieceWidth i :=
  sub_nonneg.2 (hs.pieceStart_le_pieceEnd i)

/-- With several pieces, widths are positive. -/
theorem pieceWidth_pos (hs : s.Ordered) (hn : 1 < s.numPieces) (hi : i < s.numPieces) :
    0 < s.pieceWidth i :=
  sub_pos.2 (hs.pieceStart_lt_pieceEnd hn hi)

end Ordered

/-- Pieces up to a position are as wide as the part of the range before it. -/
theorem sum_pieceWidth (s : BreakpointSeries ℝ) (k : ℕ) :
    ∑ i ∈ Finset.range k, s.pieceWidth i = s.pieceStart k - s.lower :=
  Finset.sum_range_sub s.pieceStart k

/-! ## Parts of a value -/

/-- The part of a value in a piece. -/
theorem portion_eq (s : BreakpointSeries ℝ) (x : ℝ) (i : ℕ) :
    s.portion x i = max (min x (s.pieceEnd i) - s.pieceStart i) 0 := by
  rw [portion, Scalar.max_real, Scalar.min_real]

/-- No part is negative. -/
theorem portion_nonneg (s : BreakpointSeries ℝ) (x : ℝ) (i : ℕ) : 0 ≤ s.portion x i := by
  rw [portion_eq]
  exact le_max_right _ _

/-- Nothing falls into a piece that starts beyond the value. -/
theorem portion_eq_zero (h : x ≤ s.pieceStart i) : s.portion x i = 0 := by
  rw [portion_eq]
  apply max_eq_right
  have hmin := min_le_left x (s.pieceEnd i)
  linarith

/-- A value beyond the start of a piece reaches into it up to its own position or the end. -/
theorem portion_of_start_le (hs : s.Ordered) (h : s.pieceStart i ≤ x) :
    s.portion x i = min x (s.pieceEnd i) - s.pieceStart i := by
  rw [portion_eq]
  apply max_eq_left
  rw [sub_nonneg]
  exact le_min h (hs.pieceStart_le_pieceEnd i)

/-- A piece that ends below the value is full. -/
theorem portion_eq_width (hs : s.Ordered) (h : s.pieceEnd i ≤ x) :
    s.portion x i = s.pieceWidth i := by
  rw [portion_of_start_le hs ((hs.pieceStart_le_pieceEnd i).trans h), min_eq_right h, pieceWidth]

/-- No piece holds more than its width. -/
theorem portion_le_width (hs : s.Ordered) (x : ℝ) (i : ℕ) : s.portion x i ≤ s.pieceWidth i := by
  rw [portion_eq, pieceWidth]
  apply max_le
  · exact sub_le_sub_right (min_le_right _ _) _
  · exact hs.pieceWidth_nonneg i

/-- A piece is filled at most to the fraction to which the piece before it is filled. -/
theorem portion_div_le (hs : s.Ordered) (hi : i + 1 < s.numPieces) (x : ℝ) :
    s.portion x (i + 1) / s.pieceWidth (i + 1) ≤ s.portion x i / s.pieceWidth i := by
  have hn : 1 < s.numPieces := by omega
  have hwidth := hs.pieceWidth_pos hn hi
  have hwidth' := hs.pieceWidth_pos hn ((Nat.lt_succ_self i).trans hi)
  rcases le_total x (s.pieceStart (i + 1)) with hx | hx
  · rw [portion_eq_zero hx, zero_div]
    exact div_nonneg (s.portion_nonneg x i) hwidth'.le
  · rw [portion_eq_width hs hx, div_self hwidth'.ne']
    exact (div_le_one hwidth).2 (portion_le_width hs x (i + 1))

/-- The part in a piece is the difference of the parts of the value before its ends. -/
theorem portion_eq_sub (hs : s.Ordered) (x : ℝ) (i : ℕ) :
    s.portion x i = min x (s.pieceEnd i) - min x (s.pieceStart i) := by
  rcases le_total x (s.pieceStart i) with hx | hx
  · rw [portion_eq_zero hx, min_eq_left hx, min_eq_left (hx.trans (hs.pieceStart_le_pieceEnd i)),
      sub_self]
  · rw [portion_of_start_le hs hx, min_eq_right hx]

/-- The part in a piece is the distance of the value, clamped to the piece, from its start. -/
theorem portion_eq_clamp (hs : s.Ordered) (x : ℝ) (i : ℕ) :
    s.portion x i = min (max x (s.pieceStart i)) (s.pieceEnd i) - s.pieceStart i := by
  rcases le_total x (s.pieceStart i) with hx | hx
  · rw [portion_eq_zero hx, max_eq_right hx, min_eq_left (hs.pieceStart_le_pieceEnd i), sub_self]
  · rw [portion_of_start_le hs hx, max_eq_left hx]

/-- A piece is reached only when the one before it is full. -/
theorem portion_eq_width_of_next (hs : s.Ordered) (h : s.portion x (i + 1) ≠ 0) :
    s.portion x i = s.pieceWidth i := by
  refine portion_eq_width hs (le_of_not_ge fun hx => h ?_)
  exact portion_eq_zero hx

/-- Below the lower end there is nothing to fill the pieces with. -/
theorem portion_max_lower (hs : s.Ordered) (x : ℝ) (i : ℕ) :
    s.portion (max x s.lower) i = s.portion x i := by
  rw [portion_eq_clamp hs, portion_eq_clamp hs, max_assoc, max_eq_right (hs.lower_le_pieceStart i)]

/-- The parts up to a position add up to the part of the value before it. -/
theorem sum_portion (hs : s.Ordered) (h : s.lower ≤ x) (k : ℕ) :
    ∑ i ∈ Finset.range k, s.portion x i = min x (s.pieceStart k) - s.lower := by
  induction k with
  | zero => rw [Finset.sum_range_zero, pieceStart_zero, min_eq_right h, sub_self]
  | succ k ih =>
    rw [Finset.sum_range_succ, ih, portion_eq_sub hs, pieceStart_succ]
    ring

/-- The last parts add up to the part of the value behind a position. -/
theorem sum_portion_reflect (hs : s.Ordered) (h : x ≤ s.upper) {k : ℕ} (hk : k ≤ s.numPieces) :
    ∑ j ∈ Finset.range k, s.portion x (s.numPieces - 1 - j) =
      x - min x (s.pieceStart (s.numPieces - k)) := by
  induction k with
  | zero => rw [Finset.sum_range_zero, Nat.sub_zero, pieceStart_numPieces, min_eq_left h, sub_self]
  | succ k ih =>
    have hend : s.pieceStart (s.numPieces - k) = s.pieceEnd (s.numPieces - 1 - k) := by
      rw [show s.numPieces - k = s.numPieces - 1 - k + 1 by omega, pieceStart_succ]
    have hstart : s.numPieces - 1 - k = s.numPieces - (k + 1) := by omega
    rw [Finset.sum_range_succ, ih (Nat.le_of_succ_le hk), portion_eq_sub hs, hend, hstart]
    ring

/-- All parts add up to the distance of the value, clamped to the range, from the lower end. -/
theorem sum_lifted_eq_clamp (hs : s.Ordered) (x : ℝ) :
    (s.lifted x).sum = min (max x s.lower) s.upper - s.lower := by
  have hsum := sum_portion hs (le_max_right x s.lower) s.numPieces
  simp only [portion_max_lower hs, pieceStart_numPieces] at hsum
  exact hsum

/-- All parts add up to the distance from the lower end. -/
theorem sum_lifted (hs : s.Ordered) (h : s.lower ≤ x) (h' : x ≤ s.upper) :
    (s.lifted x).sum = x - s.lower := by
  rw [sum_lifted_eq_clamp hs, max_eq_left h, min_eq_left h']

/-- The part in a piece as an entry of the list of all parts. -/
theorem getElem?_lifted (s : BreakpointSeries ℝ) (x : ℝ) (hi : i < s.numPieces) :
    (s.lifted x)[i]? = some (s.portion x i) := by
  simp [lifted, hi]

end BreakpointSeries

end AdjustableRobust
