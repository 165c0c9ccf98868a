import AdjustableRobust.Proofs.Lifting.Alternatives

/-!
# Tightening boxes

The constraints of a box alternative leave a range for each uncertainty. What is said of the pieces
of an axis holds for the parts of every value in this range: the parts lie between those of the ends
of the range, and what lies outside of the range, or in the pieces that hold its ends, is bounded by
how far these pieces reach into the range.
-/

namespace AdjustableRobust

/-! ## Ranges of boxes -/

namespace BoxRange

/-- The value lies between the ends that exist. -/
structure Contains (range : BoxRange ℝ) (x : ℝ) : Prop where
  lower : ∀ l, range.lower? = some l → l ≤ x
  upper : ∀ u, range.upper? = some u → x ≤ u

variable {range : BoxRange ℝ} {x b : ℝ}

/-- Lowering the upper end to a bound leaves the values below it. -/
theorem contains_boundAbove_iff : (range.boundAbove b).Contains x ↔ range.Contains x ∧ x ≤ b := by
  obtain ⟨lower?, upper?⟩ := range
  cases upper? with
  | none =>
    constructor
    · rintro ⟨hl, hu⟩
      exact ⟨⟨hl, by simp⟩, hu b (by simp [boundAbove])⟩
    · rintro ⟨⟨hl, -⟩, hb⟩
      exact ⟨hl, by simpa [boundAbove] using hb⟩
  | some u =>
    constructor
    · rintro ⟨hl, hu⟩
      have hmin : x ≤ min u b := hu _ (by simp [boundAbove])
      exact ⟨⟨hl, by simpa using hmin.trans (min_le_left _ _)⟩, hmin.trans (min_le_right _ _)⟩
    · rintro ⟨⟨hl, hu⟩, hb⟩
      exact ⟨hl, by simpa [boundAbove] using ⟨hu u rfl, hb⟩⟩

/-- Raising the lower end to a bound leaves the values above it. -/
theorem contains_boundBelow_iff : (range.boundBelow b).Contains x ↔ range.Contains x ∧ b ≤ x := by
  obtain ⟨lower?, upper?⟩ := range
  cases lower? with
  | none =>
    constructor
    · rintro ⟨hl, hu⟩
      exact ⟨⟨by simp, hu⟩, hl b (by simp [boundBelow])⟩
    · rintro ⟨⟨-, hu⟩, hb⟩
      exact ⟨by simpa [boundBelow] using hb, hu⟩
  | some l =>
    constructor
    · rintro ⟨hl, hu⟩
      have hmax : max l b ≤ x := hl _ (by simp [boundBelow])
      exact ⟨⟨by simpa using (le_max_left _ _).trans hmax, hu⟩, (le_max_right _ _).trans hmax⟩
    · rintro ⟨⟨hl, hu⟩, hb⟩
      exact ⟨by simpa [boundBelow] using ⟨hl l rfl, hb⟩, hu⟩

/-- Intersecting with a constraint leaves the values in the relation. -/
theorem contains_intersect_iff {sense : ConstraintSense} {scale constant : ℝ}
    (hscale : scale ≠ 0) : (range.intersect sense scale constant).Contains x ↔
      range.Contains x ∧ sense.Holds (constant + scale * x) := by
  cases sense with
  | leq =>
    change _ ↔ range.Contains x ∧ constant + scale * x ≤ 0
    by_cases hpos : 0 < scale
    · simp only [intersect, hpos, decide_true, contains_boundAbove_iff, le_div_iff₀ hpos]
      exact and_congr_right fun _ => ⟨fun h => by linarith, fun h => by linarith⟩
    · have hneg := lt_of_le_of_ne (not_lt.1 hpos) hscale
      simp only [intersect, hpos, decide_false, contains_boundBelow_iff, div_le_iff_of_neg hneg]
      exact and_congr_right fun _ => ⟨fun h => by linarith, fun h => by linarith⟩
  | geq =>
    change _ ↔ range.Contains x ∧ 0 ≤ constant + scale * x
    by_cases hpos : 0 < scale
    · simp only [intersect, hpos, decide_true, contains_boundBelow_iff, div_le_iff₀ hpos]
      exact and_congr_right fun _ => ⟨fun h => by linarith, fun h => by linarith⟩
    · have hneg := lt_of_le_of_ne (not_lt.1 hpos) hscale
      simp only [intersect, hpos, decide_false, contains_boundAbove_iff, le_div_iff_of_neg hneg]
      exact and_congr_right fun _ => ⟨fun h => by linarith, fun h => by linarith⟩
  | eq =>
    change _ ↔ range.Contains x ∧ constant + scale * x = 0
    have hend : x = -constant / scale ↔ constant + scale * x = 0 := by
      rw [eq_div_iff hscale]
      exact ⟨fun h => by linarith, fun h => by linarith⟩
    rw [← hend, le_antisymm_iff, ← and_assoc]
    simp only [intersect, contains_boundAbove_iff, contains_boundBelow_iff]

/-- There is one range for each variable, to begin with. -/
theorem length_bounds (set : UncertaintySet ℝ) :
    (set.bounds.map fun b => (⟨b.lower?, b.upper?⟩ : BoxRange ℝ)).length = set.numVariables := by
  rw [List.length_map, UncertaintySet.bounds, List.length_map]
  rfl

/-- There are as many ranges as before. -/
theorem length_addConstraint {set : UncertaintySet ℝ} {ranges ranges' : List (BoxRange ℝ)}
    {c : UncertaintyConstraint ℝ} (hrun : addConstraint set ranges c = .ok ranges') :
    ranges'.length = ranges.length := by
  rw [addConstraint] at hrun
  split at hrun
  · obtain ⟨_, -, hrun⟩ := bind_eq_ok_iff.1 hrun
    obtain rfl := pure_eq_ok_iff.1 hrun
    exact List.length_modify _ _ _
  · obtain rfl := pure_eq_ok_iff.1 hrun
    rfl

/-- There is an upper end, and it is not above a bound. -/
def EndsBy (range : BoxRange ℝ) (u : ℝ) : Prop := ∃ u', range.upper? = some u' ∧ u' ≤ u

/-- No intersection raises the upper end. -/
theorem EndsBy.intersect {u : ℝ} (h : range.EndsBy u) (sense : ConstraintSense)
    (scale constant : ℝ) : (range.intersect sense scale constant).EndsBy u := by
  have habove : ∀ b, (range.boundAbove b).EndsBy u := by
    obtain ⟨u', hu', hle⟩ := h
    intro b
    exact ⟨min u' b, by simp [boundAbove, hu'], (min_le_left _ _).trans hle⟩
  unfold BoxRange.intersect
  split
  · exact habove _
  · exact habove _
  · exact h
  · exact h
  · exact habove _

/-- The range of a variable does not reach beyond its upper bound. -/
theorem endsBy_of_ofAlternative {set : UncertaintySet ℝ} {a : ConstraintSet ℝ}
    {ranges : List (BoxRange ℝ)} (hrun : ofAlternative set a = .ok ranges) {i : ℕ}
    {v : UncertaintyVariable ℝ} (hv : set.vars.items[i]? = some v) {u : ℝ}
    (hu : v.bounds.upper? = some u) (hrange : ranges[i]? = some range) : range.EndsBy u := by
  refine foldlM_invariant (I := fun ranges : List (BoxRange ℝ) =>
    ∀ range, ranges[i]? = some range → range.EndsBy u) ?_ ?_ hrun range hrange
  · intro ranges c _ ranges' hends hstep range hrange
    rw [addConstraint] at hstep
    split at hstep
    · obtain ⟨_, -, hstep⟩ := bind_eq_ok_iff.1 hstep
      obtain rfl := pure_eq_ok_iff.1 hstep
      rw [List.getElem?_modify] at hrange
      obtain ⟨range₀, hrange₀, rfl⟩ := Option.map_eq_some_iff.1 hrange
      split
      · exact (hends range₀ hrange₀).intersect _ _ _
      · exact hends range₀ hrange₀
    · obtain rfl := pure_eq_ok_iff.1 hstep
      exact hends range hrange
  · intro range hrange
    rw [UncertaintySet.bounds, List.map_map, List.getElem?_map, hv, Option.map_some,
      Option.some.injEq] at hrange
    exact ⟨u, hrange ▸ hu, le_rfl⟩

/-- The ranges contain the values at their positions. -/
def AllContain (ranges : List (BoxRange ℝ)) (r : List ℝ) : Prop :=
  ∀ (i : ℕ) (range : BoxRange ℝ) (x : ℝ), ranges[i]? = some range → r[i]? = some x →
    range.Contains x

private theorem holds_iff_of_terms {e : AffineExpr ℝ UncertaintyRef} {t : Term ℝ UncertaintyRef}
    (ht : e.linear.simplify.terms = [t]) {sense : ConstraintSense} {r : List ℝ} {x : ℝ}
    (hx : r[t.var.slot]? = some x) :
    RawConstraint.Holds ⟨sense, ⟨none, e⟩⟩ (bySlot (entryAt r)) ↔
      sense.Holds (e.constant + t.scale * x) := by
  have hvalue : bySlot (entryAt r) t.var = x := by
    simp [bySlot, entryAt, List.getD_eq_getElem?_getD, hx]
  rw [RawConstraint.Holds, ConicExpr.eval, Option.elim_none, zero_add, AffineExpr.eval,
    ← LinearExpr.eval_simplify, LinearExpr.eval, ht, List.map_singleton, List.sum_singleton, hvalue]

private theorem allContain_addConstraint_iff {set : UncertaintySet ℝ}
    {ranges ranges' : List (BoxRange ℝ)} {c : UncertaintyConstraint ℝ} {r : List ℝ}
    (hbound : c.isVariableBound = true) (hranges : ranges.length = set.numVariables)
    (hr : r.length = set.numVariables) (hrun : addConstraint set ranges c = .ok ranges') :
    ranges'.length = set.numVariables ∧
      (AllContain ranges' r ↔ AllContain ranges r ∧
        c.toRawConstraint.Holds (bySlot (entryAt r))) := by
  rw [Constraint.isVariableBound, Bool.and_eq_true, beq_iff_eq] at hbound
  obtain ⟨hnormed, hsize⟩ := hbound
  obtain ⟨⟨sense, ⟨normed?, e⟩⟩, name, dual?⟩ := c
  obtain rfl : normed? = none := Option.isNone_iff_eq_none.1 hnormed
  obtain ⟨t, ht⟩ := List.length_eq_one_iff.1 hsize
  have hlength := length_addConstraint hrun
  simp only [addConstraint, ht, bind_eq_ok_iff, pure_eq_ok_iff] at hrun
  obtain ⟨v, hv, rfl⟩ := hrun
  have hslot : t.var.slot < set.numVariables :=
    UncertaintySet.slot_lt_of_variableAt hv
  have hscale : t.scale ≠ 0 :=
    LinearExpr.scale_ne_zero_of_mem_simplify (ht ▸ List.mem_singleton_self t)
  have hx : r[t.var.slot]? = some r[t.var.slot] := List.getElem?_eq_getElem (hr ▸ hslot)
  refine ⟨hlength.trans hranges, ?_⟩
  rw [holds_iff_of_terms ht hx]
  constructor
  · intro h
    have hthere := List.getElem?_eq_getElem (hranges ▸ hslot)
    have hmodified := h t.var.slot _ _ (by rw [List.getElem?_modify_eq, hthere]; rfl) hx
    refine ⟨fun i range x hrange hx' => ?_, ((contains_intersect_iff hscale).1 hmodified).2⟩
    by_cases hi : t.var.slot = i
    · subst hi
      obtain rfl := Option.some.inj (hthere.symm.trans hrange)
      obtain rfl := Option.some.inj (hx.symm.trans hx')
      exact ((contains_intersect_iff hscale).1 hmodified).1
    · exact h i range x (by simpa [List.getElem?_modify, hi] using hrange) hx'
  · rintro ⟨h, hholds⟩ i range x hrange hx'
    rw [List.getElem?_modify] at hrange
    obtain ⟨range₀, hrange₀, rfl⟩ := Option.map_eq_some_iff.1 hrange
    have hcontains := h i range₀ x hrange₀ hx'
    by_cases hi : t.var.slot = i
    · subst hi
      obtain rfl := Option.some.inj (hx.symm.trans hx')
      rw [if_pos rfl]
      exact (contains_intersect_iff hscale).2 ⟨hcontains, hholds⟩
    · rwa [if_neg hi]

private theorem allContain_bounds_iff {set : UncertaintySet ℝ} {r : List ℝ}
    (hr : r.length = set.numVariables) :
    AllContain (set.bounds.map fun b => ⟨b.lower?, b.upper?⟩) r ↔
      UncertaintySet.boundsRespected (.ofList r) 0 set.vars.entries = .ok true := by
  have hadmits := UncertaintySet.forall₂_admits_iff (s := set) (r := r)
  have hitems : set.vars.items.length = r.length := hr.symm
  rw [and_iff_right hr, List.forall₂_iff_get, and_iff_right hitems] at hadmits
  rw [← hadmits, UncertaintySet.bounds, List.map_map]
  constructor
  · intro h i hi hi'
    have hcontains := h i _ _ (by rw [List.getElem?_map, List.getElem?_eq_getElem hi]; rfl)
      (List.getElem?_eq_getElem hi')
    exact (Bounds.admits_iff _ _).2 ⟨hcontains.lower, hcontains.upper⟩
  · intro h i range x hrange hx
    rw [List.getElem?_map] at hrange
    obtain ⟨v, hv, rfl⟩ := Option.map_eq_some_iff.1 hrange
    obtain ⟨hi, rfl⟩ := List.getElem?_eq_some_iff.1 hv
    obtain ⟨hi', rfl⟩ := List.getElem?_eq_some_iff.1 hx
    have hvalue := (Bounds.admits_iff _ _).1 (h i hi hi')
    exact ⟨hvalue.1, hvalue.2⟩

/-- The ranges of a box alternative contain exactly the values within the bounds that satisfy its
constraints. -/
theorem allContain_ofAlternative_iff {set : UncertaintySet ℝ} {a : ConstraintSet ℝ}
    {ranges : List (BoxRange ℝ)} {r : List ℝ} (hbox : a.isBox = true)
    (hrun : ofAlternative set a = .ok ranges) (hr : r.length = set.numVariables) :
    ranges.length = set.numVariables ∧ (AllContain ranges r ↔
      UncertaintySet.boundsRespected (.ofList r) 0 set.vars.entries = .ok true ∧
        ∀ c ∈ a.constraints, c.toRawConstraint.Holds (bySlot (entryAt r))) := by
  rw [← allContain_bounds_iff hr]
  have hstart := length_bounds set
  rw [ofAlternative] at hrun
  generalize (set.bounds.map fun b => (⟨b.lower?, b.upper?⟩ : BoxRange ℝ)) = start at *
  have hbounds := List.all_eq_true.1 hbox
  generalize a.constraints = cs at hrun hbounds ⊢
  induction cs generalizing start with
  | nil =>
    rw [List.foldlM_nil, pure_eq_ok_iff] at hrun
    exact hrun ▸ ⟨hstart, by simp⟩
  | cons c cs ih =>
    rw [List.foldlM_cons, bind_eq_ok_iff] at hrun
    obtain ⟨next, hfirst, hrest⟩ := hrun
    rw [List.forall_mem_cons] at hbounds
    obtain ⟨hnext, hiff⟩ := allContain_addConstraint_iff hbounds.1 hstart hr hfirst
    obtain ⟨hlength, hall⟩ := ih next hnext hrest hbounds.2
    refine ⟨hlength, ?_⟩
    rw [hall, hiff, List.forall_mem_cons, and_assoc]

/-- The ranges of a box alternative contain the values of all its realizations. -/
theorem allContain_of_ofAlternative {set : UncertaintySet ℝ} {a : ConstraintSet ℝ}
    {ranges : List (BoxRange ℝ)} {r : List ℝ} (hbox : a.isBox = true)
    (hrun : ofAlternative set a = .ok ranges) (hr : set.Realizes a r) : AllContain ranges r := by
  refine (allContain_ofAlternative_iff hbox hrun hr.length).2.2 ⟨hr.bounds, fun c hc => ?_⟩
  exact (UncertaintySet.realizes_iff.1 hr).2.2 _ (List.mem_append_left _ (List.mem_map_of_mem hc))

/-- A box alternative that has realizations has all that its ranges contain. -/
theorem realizes_iff_forall₂ {set : UncertaintySet ℝ} {a : ConstraintSet ℝ}
    {ranges : List (BoxRange ℝ)} (hbox : a.isBox = true) (hrun : ofAlternative set a = .ok ranges)
    (hne : ∃ r, set.Realizes a r) (r : List ℝ) :
    set.Realizes a r ↔ List.Forall₂ Contains ranges r := by
  obtain ⟨r₀, hr₀⟩ := hne
  have hlength := (allContain_ofAlternative_iff hbox hrun hr₀.length).1
  rw [List.forall₂_iff_get]
  constructor
  · intro hr
    have hall := allContain_of_ofAlternative hbox hrun hr
    exact ⟨hlength.trans hr.length.symm, fun i hi hi' =>
      hall i _ _ (List.getElem?_eq_getElem hi) (List.getElem?_eq_getElem hi')⟩
  · rintro ⟨hranges, hcontains⟩
    have hr : r.length = set.numVariables := hranges.symm.trans hlength
    have hall : AllContain ranges r := by
      intro i range x hrange hx
      obtain ⟨hi, rfl⟩ := List.getElem?_eq_some_iff.1 hrange
      obtain ⟨hi', rfl⟩ := List.getElem?_eq_some_iff.1 hx
      exact hcontains i hi hi'
    obtain ⟨hbounds, hholds⟩ := (allContain_ofAlternative_iff hbox hrun hr).2.1 hall
    refine ⟨hr, hbounds, (ConstraintSet.satisfied_iff _ _).2 fun c hc => ?_⟩
    refine (Constraint.feasible_iff (Assignment.ofList_within r)).2 ⟨fun v hv => ?_, hholds c hc⟩
    exact Assignment.ofList_eq_bySlot_iff.2
      (hr ▸ (UncertaintySet.realizes_iff.1 hr₀).2.1 c hc v hv)

end BoxRange

/-! ## Pieces in a box -/

namespace BoxPieces

variable {b : BoxPieces ℝ}

/-- A constraint on the pieces of an axis holds wherever a value in the box fills them. -/
structure Valid (b : BoxPieces ℝ) (c : RawConstraint (AffineExpr ℝ UncertaintyRef)) : Prop where
  occurs : ∀ u ∈ c.toConic.expression.vars, u ∈ b.axis.vars
  holds : ∀ x U, b.axis.IsFilled b.series x U → b.lower ≤ x → x ≤ b.upper → c.toConic.Holds U

/-- A relation of an expression in the pieces to a value. -/
theorem valid_relateValue {e : AffineExpr ℝ UncertaintyRef} {sense : ConstraintSense} {value : ℝ}
    (hoccurs : ∀ u ∈ e.vars, u ∈ b.axis.vars)
    (hholds : ∀ x U, b.axis.IsFilled b.series x U → b.lower ≤ x → x ≤ b.upper →
      sense.Holds (e.eval U - value)) : b.Valid (e.relateValue sense value) where
  occurs u hu := hoccurs u (AffineExpr.vars_relateValue e sense value ▸ hu)
  holds x U hfilled hl hu := AffineExpr.holds_relateValue_iff.2 (hholds x U hfilled hl hu)

/-! ### Clipped pieces -/

/-- Clipping keeps the order of values. -/
theorem clip_mono (b : BoxPieces ℝ) (i : ℕ) {x y : ℝ} (h : x ≤ y) : b.clip i x ≤ b.clip i y := by
  rw [clip, clip, Scalar.min_real, Scalar.max_real, Scalar.min_real, Scalar.max_real]
  exact min_le_min_right _ (max_le_max_right _ (sub_le_sub_right h _))

/-- The part of a value in a piece is the value clipped to the piece. -/
theorem portion_eq_clip (hs : b.series.Ordered) (x : ℝ) (i : ℕ) :
    b.series.portion x i = b.clip i x := by
  rw [clip, Scalar.min_real, Scalar.max_real]
  rcases le_total x (b.series.pieceStart i) with hx | hx
  · rw [BreakpointSeries.portion_eq_zero hx, max_eq_right (sub_nonpos.2 hx),
      min_eq_left (hs.pieceWidth_nonneg i)]
  · rw [BreakpointSeries.portion_of_start_le hs hx, max_eq_left (sub_nonneg.2 hx),
      BreakpointSeries.pieceWidth, min_sub_sub_right]

/-- The box leaves something of a piece that ends beyond its lower end. -/
theorem clip_lower_lt_pieceWidth {i : ℕ} (hlower : b.lower < b.series.pieceEnd i)
    (hwidth : b.series.pieceStart i < b.series.pieceEnd i) :
    b.clip i b.lower < b.series.pieceWidth i := by
  rw [clip, Scalar.min_real, Scalar.max_real, BreakpointSeries.pieceWidth]
  apply lt_of_le_of_lt (min_le_left _ _)
  apply max_lt
  · exact sub_lt_sub_right hlower _
  · exact sub_pos.2 hwidth

/-- The box leaves something of the piece behind one that ends before its upper end. -/
theorem nextUpper_pos {i : ℕ} (hupper : b.series.pieceEnd i < b.upper)
    (hwidth : b.series.pieceStart (i + 1) < b.series.pieceEnd (i + 1)) :
    0 < min (b.upper - b.series.pieceEnd i)
      (b.series.pieceEnd (i + 1) - b.series.pieceEnd i) :=
  lt_min (sub_pos.2 hupper) (sub_pos.2 hwidth)

private theorem div_le_of_clipped (hs : b.series.Ordered) {x : ℝ} {i : ℕ}
    (hi : i + 1 < b.series.numPieces) (hlower : b.lower ≤ x) (hupper : x ≤ b.upper)
    (hstart : b.lower < b.series.pieceEnd i) (hend : b.series.pieceEnd i < b.upper) :
    b.series.portion x (i + 1) / min (b.upper - b.series.pieceEnd i)
        (b.series.pieceEnd (i + 1) - b.series.pieceEnd i) ≤
      (b.series.portion x i - b.clip i b.lower) / (b.series.pieceWidth i - b.clip i b.lower) := by
  have hn : 1 < b.series.numPieces := by omega
  have hnext := nextUpper_pos hend (hs.pieceStart_lt_pieceEnd hn hi)
  have hremaining : 0 < b.series.pieceWidth i - b.clip i b.lower :=
    sub_pos.2 (clip_lower_lt_pieceWidth hstart
      (hs.pieceStart_lt_pieceEnd hn ((Nat.lt_succ_self i).trans hi)))
  -- the next piece is empty until this one is full
  rcases le_total x (b.series.pieceEnd i) with hx | hx
  · rw [BreakpointSeries.portion_eq_zero hx, zero_div]
    apply div_nonneg _ hremaining.le
    rw [sub_nonneg, portion_eq_clip hs]
    exact b.clip_mono i hlower
  · rw [BreakpointSeries.portion_eq_width hs hx, div_self hremaining.ne', div_le_one hnext,
      BreakpointSeries.portion_of_start_le hs hx]
    exact le_min (sub_le_sub_right ((min_le_left _ _).trans hupper) _)
      (sub_le_sub_right (min_le_right _ _) _)

/-- A clipped piece is bounded; inside of the box it is also filled before the next one. -/
theorem clippedPiece_eq_ok {piece : UncertaintyRef} {i : ℕ} {cs : List (NamedConstraint ℝ)}
    (hrun : b.clippedPiece piece i = .ok cs) : ∃ fills : List (RawConstraint _),
      cs.map (·.2) = [(AffineExpr.var piece).relateValue .geq (b.clip i b.lower),
        (AffineExpr.var piece).relateValue .leq (b.clip i b.upper)] ++ fills ∧
      ((fills = [] ∧ ¬(b.lower < b.series.pieceEnd i ∧ b.series.pieceEnd i < b.upper)) ∨
        b.lower < b.series.pieceEnd i ∧ b.series.pieceEnd i < b.upper ∧
          ∃ next, b.axis.vars[i + 1]? = some next ∧ fills =
            [(((AffineExpr.term (1 / (b.series.pieceWidth i - b.clip i b.lower)) piece).addConstant
              (-b.clip i b.lower / (b.series.pieceWidth i - b.clip i b.lower))).addTerm
                (-1 / min (b.upper - b.series.pieceEnd i)
                  (b.series.pieceEnd (i + 1) - b.series.pieceEnd i)) next).relateValue .geq
                    0]) := by
  simp only [clippedPiece] at hrun
  split at hrun
  · next hinside =>
    rw [Bool.and_eq_true, decide_eq_true_eq, decide_eq_true_eq] at hinside
    rw [bind_eq_ok_iff] at hrun
    obtain ⟨next, hnext, hrun⟩ := hrun
    rw [pure_eq_ok_iff] at hrun
    subst hrun
    exact ⟨_, rfl, .inr ⟨hinside.1, hinside.2, next, LiftedAxis.variableAt_eq_ok_iff.1 hnext,
      by rw [← Scalar.min_real]; rfl⟩⟩
  · next houtside =>
    rw [Bool.and_eq_true, decide_eq_true_eq, decide_eq_true_eq] at houtside
    rw [pure_eq_ok_iff] at hrun
    subst hrun
    exact ⟨[], rfl, .inl ⟨rfl, houtside⟩⟩

private theorem valid_of_clippedPiece {piece : UncertaintyRef} {i : ℕ}
    (hpiece : b.axis.vars[i]? = some piece) {cs : List (NamedConstraint ℝ)}
    (hrun : b.clippedPiece piece i = .ok cs) : ∀ c ∈ cs, b.Valid c.2 := by
  have hmem : piece ∈ b.axis.vars := List.mem_of_getElem? hpiece
  have hlower : b.Valid ((AffineExpr.var piece).relateValue .geq (b.clip i b.lower)) := by
    refine valid_relateValue (by simpa using hmem) fun x U hfilled hl hu => ?_
    rw [AffineExpr.eval_var, hfilled.portion i piece hpiece, portion_eq_clip hfilled.ordered]
    exact sub_nonneg.2 (b.clip_mono i hl)
  have hupper : b.Valid ((AffineExpr.var piece).relateValue .leq (b.clip i b.upper)) := by
    refine valid_relateValue (by simpa using hmem) fun x U hfilled hl hu => ?_
    rw [AffineExpr.eval_var, hfilled.portion i piece hpiece, portion_eq_clip hfilled.ordered]
    exact sub_nonpos.2 (b.clip_mono i hu)
  obtain ⟨fills, hcs, hfills⟩ := clippedPiece_eq_ok hrun
  rw [← List.forall_mem_map (P := b.Valid), hcs]
  refine List.forall_mem_append.2 ⟨List.forall_mem_cons.2
    ⟨hlower, List.forall_mem_singleton.2 hupper⟩, ?_⟩
  obtain ⟨rfl, -⟩ | ⟨hstart, hend, next, hnext, rfl⟩ := hfills
  · simp
  · rw [List.forall_mem_singleton]
    refine valid_relateValue (fun u hu => ?_) fun x U hfilled hl hu => ?_
    · rw [AffineExpr.vars_addTerm, AffineExpr.vars_addConstant, AffineExpr.vars_term,
        List.singleton_append, List.mem_pair] at hu
      rcases hu with rfl | rfl
      · exact hmem
      · exact List.mem_of_getElem? hnext
    · have hi : i + 1 < b.series.numPieces :=
        hfilled.length ▸ (List.getElem?_eq_some_iff.1 hnext).1
      have hfill := div_le_of_clipped hfilled.ordered hi hl hu hstart hend
      rw [AffineExpr.eval_addTerm, AffineExpr.eval_addConstant, AffineExpr.eval_term,
        hfilled.portion i piece hpiece, hfilled.portion (i + 1) next hnext]
      change 0 ≤ _
      linear_combination hfill

/-- All pieces are clipped, and nothing else is said. -/
theorem clipped_eq_ok {cs : List (NamedConstraint ℝ)} (hrun : b.clipped = .ok cs) :
    (∀ i piece, b.axis.vars[i]? = some piece →
        ∃ part, b.clippedPiece piece i = .ok part ∧ ∀ c ∈ part, c ∈ cs) ∧
      ∀ c ∈ cs, ∃ i piece part, b.axis.vars[i]? = some piece ∧
        b.clippedPiece piece i = .ok part ∧ c ∈ part := by
  rw [clipped, bind_eq_ok_iff] at hrun
  obtain ⟨parts, hparts, hrun⟩ := hrun
  rw [pure_eq_ok_iff] at hrun
  subst hrun
  rw [mapM_eq_ok_iff] at hparts
  have hpart : ∀ i (hi : i < b.axis.vars.length) (hi' : i < parts.length),
      b.clippedPiece b.axis.vars[i] i = .ok parts[i] := by
    intro i hi hi'
    have hstep := hparts.get (by rwa [List.length_zipIdx]) hi'
    simpa only [List.get_eq_getElem, List.getElem_zipIdx, Nat.zero_add] using hstep
  have hlength : b.axis.vars.length = parts.length := by
    rw [← hparts.length_eq, List.length_zipIdx]
  constructor
  · intro i piece hpiece
    obtain ⟨hi, rfl⟩ := List.getElem?_eq_some_iff.1 hpiece
    exact ⟨_, hpart i hi (hlength ▸ hi), fun c hc =>
      List.mem_flatten.2 ⟨_, List.getElem_mem _, hc⟩⟩
  · intro c hc
    obtain ⟨part, hmem, hc⟩ := List.mem_flatten.1 hc
    obtain ⟨i, hi, rfl⟩ := List.getElem_of_mem hmem
    have hi' : i < b.axis.vars.length := hlength ▸ hi
    exact ⟨i, _, _, List.getElem?_eq_getElem hi', hpart i hi' hi, hc⟩

/-- What is said of clipped pieces is valid. -/
theorem valid_of_clipped {cs : List (NamedConstraint ℝ)} (hrun : b.clipped = .ok cs) :
    ∀ c ∈ cs, b.Valid c.2 := by
  intro c hc
  obtain ⟨i, piece, part, hpiece, hpart, hc⟩ := (clipped_eq_ok hrun).2 c hc
  exact valid_of_clippedPiece hpiece hpart c hc

/-! ### Accumulated pieces -/

/-- What a fold over the pieces keeps, when it holds at the start. -/
theorem foldl_zipIdx_invariant {α β : Type} {f : β → α × ℕ → β} {I : ℕ → β → Prop}
    {vs : List α} (hstep : ∀ k x v, vs[k]? = some v → I k x → I (k + 1) (f x (v, k))) {x : β}
    (hx : I 0 x) : I vs.length (vs.zipIdx.foldl f x) := by
  induction vs using List.reverseRecOn with
  | nil => exact hx
  | append_singleton vs v ih =>
    rw [List.zipIdx_append, List.foldl_append, List.length_append, Nat.zero_add]
    refine hstep vs.length _ v ?_ (ih fun k x w hw => hstep k x w ?_)
    · rw [List.getElem?_append_right le_rfl, Nat.sub_self]
      rfl
    · rwa [List.getElem?_append_left (List.getElem?_eq_some_iff.1 hw).1]

/-- What is outside of the box so far, with the position of the first piece that is not below and
the number of pieces that are not above. -/
abbrev Outside := AffineExpr ℝ UncertaintyRef × ℕ × ℕ

/-- A piece below the box misses what it does not hold. -/
noncomputable def below (b : BoxPieces ℝ) (o : Outside) (piece : UncertaintyRef) (k : ℕ) :
    Outside :=
  if b.series.pieceEnd k ≤ b.lower then
    ((o.1.addTerm (-1) piece).addConstant (b.series.pieceEnd k - b.series.pieceStart k),
      o.2.1 + 1, o.2.2)
  else o

/-- A piece above the box holds too much. -/
noncomputable def above (b : BoxPieces ℝ) (o : Outside) (piece : UncertaintyRef) (k : ℕ) :
    Outside :=
  if b.upper ≤ b.series.pieceStart k then (o.1.addTerm 1 piece, o.2.1, o.2.2 - 1) else o

/-- What is outside of the box, piece by piece. -/
theorem outside_eq (b : BoxPieces ℝ) :
    b.outside = b.axis.vars.zipIdx.foldl
      (fun (o : Outside) p => b.above (b.below o p.1 p.2) p.1 p.2)
        (.zero, 0, b.series.numPieces) := by
  rw [outside]
  congr 1
  funext ⟨outer, first, stop⟩ ⟨piece, k⟩
  by_cases hbelow : b.series.pieceEnd k ≤ b.lower
  · simp only [above, below, if_pos hbelow]
  · simp only [above, below, if_neg hbelow]

private theorem occurs_outside (b : BoxPieces ℝ) : ∀ u ∈ b.outside.1.vars, u ∈ b.axis.vars := by
  rw [outside_eq]
  refine foldl_zipIdx_invariant (I := fun _ (o : Outside) => ∀ u ∈ o.1.vars, u ∈ b.axis.vars) ?_
    (by simp)
  intro k o piece hpiece h
  have hmem : piece ∈ b.axis.vars := List.mem_of_getElem? hpiece
  have hbelow : ∀ u ∈ (b.below o piece k).1.vars, u ∈ b.axis.vars := by
    rw [below]
    split
    · rw [AffineExpr.vars_addConstant, AffineExpr.vars_addTerm, List.forall_mem_append,
        List.forall_mem_singleton]
      exact ⟨h, hmem⟩
    · exact h
  rw [above]
  split
  · rw [AffineExpr.vars_addTerm, List.forall_mem_append, List.forall_mem_singleton]
    exact ⟨hbelow, hmem⟩
  · exact hbelow

/-- On what is inside of the box, the expression for what is outside has the value zero. The first
piece that is not below the box reaches beyond its lower end, and the last piece that is not above
starts before its upper end. -/
private structure OutsideOf (b : BoxPieces ℝ) (U : UncertaintyRef → ℝ) (j k : ℕ) (o : Outside) :
    Prop where
  eval : o.1.eval U = 0
  first_le : o.2.1 ≤ j
  /-- The first piece that is not below the box. -/
  first : o.2.1 < j → b.lower < b.series.pieceEnd o.2.1
  le_stop : b.series.numPieces ≤ o.2.2 + k
  stop_le : o.2.2 ≤ b.series.numPieces
  /-- The pieces that are not above the box. -/
  stop : ∀ i, i + b.series.numPieces < o.2.2 + k → b.series.pieceStart i < b.upper

section

variable {x : ℝ} {U : UncertaintyRef → ℝ} {o : Outside} {piece : UncertaintyRef} {k : ℕ}

private theorem OutsideOf.below (h : b.OutsideOf U k k o) (hfilled : b.axis.IsFilled b.series x U)
    (hl : b.lower ≤ x) (hpiece : b.axis.vars[k]? = some piece) :
    b.OutsideOf U (k + 1) k (b.below o piece k) := by
  have hs := hfilled.ordered
  rw [BoxPieces.below]
  split
  · next hbelow =>
    -- pieces are looked at in order, so none before this one was found to reach into the box
    have hfirst : o.2.1 = k := by
      by_contra hne
      have hlt := lt_of_le_of_ne h.first_le hne
      exact absurd ((h.first hlt).trans_le (hs.pieceEnd_mono hlt.le)) (not_lt.2 hbelow)
    refine ⟨?_, (congrArg (· + 1) hfirst).le, fun hlt => ?_, h.le_stop, h.stop_le, h.stop⟩
    · rw [AffineExpr.eval_addConstant, AffineExpr.eval_addTerm, h.eval,
        hfilled.portion k piece hpiece, BreakpointSeries.portion_eq_width hs (hbelow.trans hl),
        BreakpointSeries.pieceWidth]
      ring
    · have : o.2.1 + 1 < k + 1 := hlt
      omega
  · next hbelow =>
    refine ⟨h.eval, h.first_le.trans k.le_succ, fun _ => ?_, h.le_stop, h.stop_le, h.stop⟩
    rcases h.first_le.eq_or_lt with heq | hlt
    · rw [heq]
      exact not_le.1 hbelow
    · exact h.first hlt

private theorem OutsideOf.above (h : b.OutsideOf U (k + 1) k o)
    (hfilled : b.axis.IsFilled b.series x U) (hu : x ≤ b.upper)
    (hpiece : b.axis.vars[k]? = some piece) :
    b.OutsideOf U (k + 1) (k + 1) (b.above o piece k) := by
  have hs := hfilled.ordered
  have hk : k < b.series.numPieces := hfilled.length ▸ (List.getElem?_eq_some_iff.1 hpiece).1
  have hle_stop := h.le_stop
  rw [BoxPieces.above]
  split
  · next habove =>
    refine ⟨?_, h.first_le, h.first, ?_, (Nat.sub_le _ _).trans h.stop_le, fun i hi => h.stop i ?_⟩
    · rw [AffineExpr.eval_addTerm, h.eval, hfilled.portion k piece hpiece,
        BreakpointSeries.portion_eq_zero (hu.trans habove), mul_zero, add_zero]
    · change b.series.numPieces ≤ o.2.2 - 1 + (k + 1)
      omega
    · change i + b.series.numPieces < o.2.2 - 1 + (k + 1) at hi
      omega
  · next habove =>
    refine ⟨h.eval, h.first_le, h.first, hle_stop.trans (Nat.le_succ _), h.stop_le, fun i hi => ?_⟩
    have hi' : i ≤ k := by
      have := h.stop_le
      omega
    exact (hs.pieceStart_mono hi').trans_lt (not_le.1 habove)

private theorem outsideOf_outside (h : b.axis.IsFilled b.series x U) (hl : b.lower ≤ x)
    (hu : x ≤ b.upper) : b.OutsideOf U b.series.numPieces b.series.numPieces b.outside := by
  rw [outside_eq, ← h.length]
  refine foldl_zipIdx_invariant (I := fun k => b.OutsideOf U k k) (fun k o piece hpiece ho => ?_) ?_
  · exact (ho.below h hl hpiece).above h hu hpiece
  · rw [h.length]
    refine ⟨AffineExpr.eval_zero U, le_rfl, fun hlt => absurd hlt (Nat.lt_irrefl 0), le_rfl, le_rfl,
      fun i hi => ?_⟩
    change i + b.series.numPieces < b.series.numPieces + 0 at hi
    omega

end

private theorem width_sub_portion_le {s : BreakpointSeries ℝ} {i : ℕ} {x l : ℝ} (hl : l ≤ x)
    (hi : l ≤ s.pieceEnd i) : s.pieceWidth i - s.portion x i ≤ s.pieceEnd i - l := by
  have hportion : min x (s.pieceEnd i) - s.pieceStart i ≤ s.portion x i := by
    rw [BreakpointSeries.portion_eq]
    exact le_max_left _ _
  have hmin : l ≤ min x (s.pieceEnd i) := le_min hl hi
  rw [BreakpointSeries.pieceWidth]
  linarith

private theorem portion_le_sub {s : BreakpointSeries ℝ} {i : ℕ} {x u : ℝ} (hu : x ≤ u)
    (hi : s.pieceStart i ≤ u) : s.portion x i ≤ u - s.pieceStart i := by
  rw [BreakpointSeries.portion_eq]
  apply max_le
  · exact sub_le_sub_right ((min_le_left _ _).trans hu) _
  · exact sub_nonneg.2 hi

private theorem missing_add_portion_le {s : BreakpointSeries ℝ} (hs : s.Ordered) {i j : ℕ}
    (hij : i < j) {x l u : ℝ} (hl : l ≤ x) (hu : x ≤ u) (hi : l ≤ s.pieceEnd i)
    (hj : s.pieceStart j ≤ u) :
    s.pieceWidth i - s.portion x i + s.portion x j ≤
      max (s.pieceEnd i - l) (u - s.pieceStart j) := by
  -- the later piece is empty until the earlier one is full, so only one of the two counts
  rcases le_total x (s.pieceEnd i) with hx | hx
  · rw [BreakpointSeries.portion_eq_zero (hx.trans (hs.pieceEnd_le_pieceStart hij)), add_zero]
    exact (width_sub_portion_le hl hi).trans (le_max_left _ _)
  · rw [BreakpointSeries.portion_eq_width hs hx, sub_self, zero_add]
    exact (portion_le_sub hu hj).trans (le_max_right _ _)

/-- The expression for what is outside of the box is about the pieces and has the value zero on what
is inside. -/
private structure Vanishes (b : BoxPieces ℝ) (outer : AffineExpr ℝ UncertaintyRef) : Prop where
  occurs : ∀ u ∈ outer.vars, u ∈ b.axis.vars
  eval : ∀ x U, b.axis.IsFilled b.series x U → b.lower ≤ x → x ≤ b.upper → outer.eval U = 0

private theorem vanishes_outside (b : BoxPieces ℝ) : b.Vanishes b.outside.1 where
  occurs := occurs_outside b
  eval _ _ h hl hu := (outsideOf_outside h hl hu).eval

private theorem reaches_outside {x : ℝ} {U : UncertaintyRef → ℝ} (h : b.axis.IsFilled b.series x U)
    (hl : b.lower ≤ x) (hu : x ≤ b.upper) (hlt : b.outside.2.1 < b.outside.2.2) :
    b.lower ≤ b.series.pieceEnd b.outside.2.1 ∧
      b.series.pieceStart (b.outside.2.2 - 1) ≤ b.upper := by
  have ho := outsideOf_outside h hl hu
  have hstop := ho.stop_le
  exact ⟨(ho.first (by omega)).le, (ho.stop _ (by omega)).le⟩

section

variable {outer : AffineExpr ℝ UncertaintyRef} {lowerPiece upperPiece : UncertaintyRef} {i j : ℕ}

private theorem Vanishes.valid (h : b.Vanishes outer) : b.Valid (outer.relateValue .leq 0) := by
  refine valid_relateValue h.occurs fun x U hfilled hl hu => ?_
  rw [h.eval x U hfilled hl hu, sub_zero]
  exact le_refl (0 : ℝ)

private theorem Vanishes.valid_lowerEnd (h : b.Vanishes outer)
    (hpiece : b.axis.vars[i]? = some lowerPiece)
    (hreach : ∀ x U, b.axis.IsFilled b.series x U → b.lower ≤ x → x ≤ b.upper →
      b.lower ≤ b.series.pieceEnd i) :
    b.Valid (((outer.addConstant (b.series.pieceWidth i)).addTerm (-1) lowerPiece).relateValue .leq
      (b.series.pieceEnd i - b.lower)) := by
  refine valid_relateValue ?_ fun x U hfilled hl hu => ?_
  · rw [AffineExpr.vars_addTerm, AffineExpr.vars_addConstant, List.forall_mem_append,
      List.forall_mem_singleton]
    exact ⟨h.occurs, List.mem_of_getElem? hpiece⟩
  · have hmissing := width_sub_portion_le hl (hreach x U hfilled hl hu)
    rw [AffineExpr.eval_addTerm, AffineExpr.eval_addConstant, h.eval x U hfilled hl hu,
      hfilled.portion i lowerPiece hpiece]
    change _ ≤ (0 : ℝ)
    linarith

private theorem Vanishes.valid_upperEnd (h : b.Vanishes outer)
    (hpiece : b.axis.vars[j]? = some upperPiece)
    (hreach : ∀ x U, b.axis.IsFilled b.series x U → b.lower ≤ x → x ≤ b.upper →
      b.series.pieceStart j ≤ b.upper) :
    b.Valid ((outer.addTerm 1 upperPiece).relateValue .leq (b.upper - b.series.pieceStart j)) := by
  refine valid_relateValue ?_ fun x U hfilled hl hu => ?_
  · rw [AffineExpr.vars_addTerm, List.forall_mem_append, List.forall_mem_singleton]
    exact ⟨h.occurs, List.mem_of_getElem? hpiece⟩
  · have hpart := portion_le_sub hu (hreach x U hfilled hl hu)
    rw [AffineExpr.eval_addTerm, h.eval x U hfilled hl hu, hfilled.portion j upperPiece hpiece]
    change _ ≤ (0 : ℝ)
    linarith

private theorem Vanishes.valid_full (h : b.Vanishes outer) (hij : i < j)
    (hlower : b.axis.vars[i]? = some lowerPiece) (hupper : b.axis.vars[j]? = some upperPiece)
    (hreach : ∀ x U, b.axis.IsFilled b.series x U → b.lower ≤ x → x ≤ b.upper →
      b.lower ≤ b.series.pieceEnd i ∧ b.series.pieceStart j ≤ b.upper) :
    b.Valid ((((outer.addConstant (b.series.pieceWidth i)).addTerm (-1) lowerPiece).addTerm 1
      upperPiece).relateValue .leq
        (Scalar.max (b.series.pieceEnd i - b.lower) (b.upper - b.series.pieceStart j))) := by
  refine valid_relateValue ?_ fun x U hfilled hl hu => ?_
  · rw [AffineExpr.vars_addTerm, AffineExpr.vars_addTerm, AffineExpr.vars_addConstant,
      List.forall_mem_append, List.forall_mem_append, List.forall_mem_singleton,
      List.forall_mem_singleton]
    exact ⟨⟨h.occurs, List.mem_of_getElem? hlower⟩, List.mem_of_getElem? hupper⟩
  · obtain ⟨hi, hj⟩ := hreach x U hfilled hl hu
    have hboth := missing_add_portion_le hfilled.ordered hij hl hu hi hj
    rw [AffineExpr.eval_addTerm, AffineExpr.eval_addTerm, AffineExpr.eval_addConstant,
      h.eval x U hfilled hl hu, hfilled.portion i lowerPiece hlower,
      hfilled.portion j upperPiece hupper, Scalar.max_real]
    change _ ≤ (0 : ℝ)
    linarith

end

/-- What is said of accumulated pieces is valid. -/
theorem valid_of_accumulated {cs : List (NamedConstraint ℝ)} (hrun : b.accumulated = .ok cs) :
    ∀ c ∈ cs, b.Valid c.2 := by
  have hvanishes := vanishes_outside b
  have hreach := @reaches_outside b
  rw [accumulated] at hrun
  generalize b.outside = o at hrun hvanishes hreach
  obtain ⟨outer, first, stop⟩ := o
  have houtermost : ∀ name : String, ∀ c ∈ if outer.linear.isEmpty then [] else
      [(name, outer.relateValue .leq 0)], b.Valid c.2 := by
    intro name c hc
    split at hc
    · cases hc
    · exact List.mem_singleton.1 hc ▸ hvanishes.valid
  simp only at hrun
  split at hrun
  · rw [pure_eq_ok_iff] at hrun
    exact hrun ▸ houtermost _
  next hle =>
  simp only [bind_eq_ok_iff, pure_eq_ok_iff, LiftedAxis.variableAt_eq_ok_iff] at hrun
  obtain ⟨lowerPiece, hlower, upperPiece, hupper, rfl⟩ := hrun
  have hlt : first < stop := not_le.1 hle
  intro c hc
  simp only [List.mem_append] at hc
  rcases hc with ((hc | hc) | hc) | hc
  · exact houtermost _ c hc
  · split at hc
    · exact List.mem_singleton.1 hc ▸ hvanishes.valid_lowerEnd hlower
        fun _ _ hfilled hl hu => (hreach hfilled hl hu hlt).1
    · cases hc
  · split at hc
    · exact List.mem_singleton.1 hc ▸ hvanishes.valid_upperEnd hupper
        fun _ _ hfilled hl hu => (hreach hfilled hl hu hlt).2
    · cases hc
  · split at hc
    · cases hc
    · next hne =>
      have hfirst : first ≠ stop - 1 := by
        rintro rfl
        exact hne (Option.some.inj (hlower.symm.trans hupper))
      exact List.mem_singleton.1 hc ▸ hvanishes.valid_full (by omega) hlower hupper
        fun _ _ hfilled hl hu => hreach hfilled hl hu hlt

end BoxPieces

/-! ## Box alternatives -/

namespace LiftedModel

variable {model : RobustModel ℝ} {options : LiftingOptions} {axes : List (LiftedAxis ℝ)}

private theorem valid_of_boxPieces (h : (⟨axes⟩ : Lifting ℝ).IsOver model.uncertainty) {k : ℕ}
    {axis : LiftedAxis ℝ} {s : BreakpointSeries ℝ} (hk : axes[k]? = some axis)
    (hs : axis.series? = some s) {i : ℕ} {a : ConstraintSet ℝ}
    (ha : model.uncertainty.alternatives.items[i]? = some a) {ref : ConstraintSetRef}
    {name : String} {range : BoxRange ℝ}
    (hrange : ∀ r x, model.uncertainty.Realizes a r → r[k]? = some x → range.Contains x)
    {c : RawConstraint (AffineExpr ℝ UncertaintyRef)}
    (hc : BoxPieces.Valid ⟨ref, name, s, axis, range.lower?.getD s.lower,
      range.upper?.getD s.upper⟩ c) :
    Lifting.Valid ⟨axes⟩ model.uncertainty i c.toConic := by
  refine h.valid_of_isFilled hk hs hc.occurs fun a' r x U ha' hr hx hfilled => ?_
  obtain rfl := Option.some.inj (ha.symm.trans ha')
  have hcontains := hrange r x hr hx
  refine hc.holds x U hfilled ?_ ?_
  · change range.lower?.getD s.lower ≤ x
    cases hlower : range.lower? with
    | none => exact hfilled.lower
    | some l => exact hcontains.lower l hlower
  · change x ≤ range.upper?.getD s.upper
    cases hupper : range.upper? with
    | none => exact hfilled.upper
    | some u => exact hcontains.upper u hupper

/-- Tightening a box alternative adds valid constraints. -/
theorem tightens_of_tightenBox (h : (⟨axes⟩ : Lifting ℝ).IsOver model.uncertainty)
    {lifted lifted' : RobustModel ℝ} {a : ConstraintSet ℝ} {ref : ConstraintSetRef}
    (ha : model.uncertainty.alternatives.items[ref.slot]? = some a)
    (hrun : tightenBox model options axes lifted a ref = .ok lifted') :
    UncertaintySet.Tightens (Lifting.Valid ⟨axes⟩ model.uncertainty) lifted.uncertainty
      lifted'.uncertainty := by
  rw [tightenBox] at hrun
  split at hrun
  · rw [pure_eq_ok_iff] at hrun
    exact hrun ▸ .refl _
  next hbox =>
  rw [Bool.not_eq_true, Bool.not_eq_false'] at hbox
  rw [bind_eq_ok_iff] at hrun
  obtain ⟨ranges, hranges, hrun⟩ := hrun
  rw [PolicyError.fromModel, mapError_eq_ok_iff] at hranges
  refine .of_foldlM (fun m row hrow m' hstep => ?_) hrun
  obtain ⟨v, axis, range⟩ := row
  obtain ⟨k, hk, hget⟩ := List.getElem_of_mem hrow
  simp only [List.length_zip, lt_min_iff] at hk
  simp only [List.getElem_zip, Prod.mk.injEq] at hget
  have haxis : axes[k]? = some axis := by rw [List.getElem?_eq_getElem hk.2.1, hget.2.1]
  have hrange : ranges[k]? = some range := by rw [List.getElem?_eq_getElem hk.2.2, hget.2.2]
  cases hs : axis.series? with
  | none =>
    simp only [hs, pure_eq_ok_iff] at hstep
    exact hstep ▸ .refl _
  | some s =>
    simp only [hs, bind_eq_ok_iff, PolicyError.fromStore, mapError_eq_ok_iff] at hstep
    obtain ⟨cs, hcs, hstep⟩ := hstep
    have hvalid : ∀ c ∈ cs, BoxPieces.Valid ⟨ref, v.name, s, axis, range.lower?.getD s.lower,
        range.upper?.getD s.upper⟩ c.2 := by
      split at hcs
      · exact BoxPieces.valid_of_accumulated hcs
      · exact BoxPieces.valid_of_clipped hcs
    refine .of_foldlM (fun m c hc m' hadd => ?_) hstep
    rw [PolicyError.fromModel, mapError_eq_ok_iff] at hadd
    refine RobustModel.tightens_of_addUncertaintyConstraintTo ?_ hadd
    exact valid_of_boxPieces h haxis hs ha
      (fun r x hr hx => BoxRange.allContain_of_ofAlternative hbox hranges hr k range x hrange hx)
      (hvalid c hc)

end LiftedModel

end AdjustableRobust
