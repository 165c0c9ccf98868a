import AdjustableRobust.Proofs.Expression.Enclosure
import AdjustableRobust.Proofs.Lifting.Pieces
import AdjustableRobust.Proofs.Uncertainty.Membership

/-!
# Series along any direction

A series keeps the distinct points inside the range of its direction, in order, so its pieces cover
the range one after the other. A value is clamped to each piece in turn: it fills the pieces from
the lower end on, and what falls into them adds up to its distance from there, clamped to the range.
-/

namespace AdjustableRobust

/-- The smallest value of a linear expression over bounds is not above the largest one. -/
theorem LinearExpr.lower_le_upper {V : Type} {e : LinearExpr ℝ V} {scope : Scope ℝ V}
    (hscope : scope.FromBounds) {l u : ℝ} (hl : e.lower scope = .ok (.finite l))
    (hu : e.upper scope = .ok (.finite u)) : l ≤ u := by
  obtain ⟨ω, hω⟩ := hscope.exists_admits
  have hlower : Side.lower.Bounds (.finite l) (e.eval ω) := e.bounds_value hω hl (e.value_total ω)
  have hupper : Side.upper.Bounds (.finite u) (e.eval ω) := e.bounds_value hω hu (e.value_total ω)
  exact (Side.bounds_finite_iff.1 hlower).trans (Side.bounds_finite_iff.1 hupper)

namespace BreakpointSeries

variable {set : UncertaintySet ℝ} {points : List ℝ} {direction : LinearExpr ℝ UncertaintyRef}
variable {s : BreakpointSeries ℝ}

/-- A series that can be made has breakpoints that increase inside its range. -/
theorem ordered_of_make (hmake : make points direction set.scope = .ok s) : s.Ordered := by
  obtain ⟨hlower, hupper, -, -, hkept⟩ := make_eq_ok hmake
  obtain ⟨hinside, hincreasing⟩ := keepInside_spec s.lower s.upper none points
  rw [← hkept] at hinside hincreasing
  exact ⟨LinearExpr.lower_le_upper set.scope_fromBounds hlower hupper,
    fun b hb => (hinside b hb).1, hincreasing⟩

/-- The breakpoints are the given points inside the range. -/
theorem mem_breakPoints_iff (hmake : make points direction set.scope = .ok s) {x : ℝ} :
    x ∈ s.breakPoints ↔ x ∈ points ∧ s.lower < x ∧ x < s.upper := by
  obtain ⟨-, -, hordered, -, hkept⟩ := make_eq_ok hmake
  rw [hkept, mem_keepInside_iff hordered]
  simp

/-- All pieces of a range of positive width have a positive width. -/
theorem Ordered.pieceWidth_pos_of_lt (hs : s.Ordered) (h : s.lower < s.upper) {i : ℕ}
    (hi : i < s.numPieces) : 0 < s.pieceWidth i := by
  obtain hone | hn := Nat.eq_or_lt_of_le (Nat.succ_le_succ s.breakPoints.length.zero_le)
  · have hlength : s.breakPoints.length ≤ 0 := by omega
    obtain rfl : i = 0 := by rw [numPieces] at hi; omega
    rw [pieceWidth, pieceStart_zero, pieceEnd_of_le hlength]
    exact sub_pos.2 h
  · exact hs.pieceWidth_pos hn hi

/-- A series represents its direction. Whatever points and direction it is made of, its breakpoints
are the distinct given points strictly inside the range of the direction, in order, and its pieces
follow each other from the lower end to the upper end, with positive widths when the range has one.
Whatever value the direction has at a realization, the lifted realization has one part for each
piece: the distance of the value, clamped to the piece, from the start of the piece. So no part is
negative or exceeds the width of its piece, a piece is reached only when the one before it is full,
and all parts add up to the distance of the value, clamped to the range, from the lower end. -/
theorem make_represents (hmake : make points direction set.scope = .ok s) :
    (direction.simplify.lower set.scope = .ok (.finite s.lower) ∧
      direction.simplify.upper set.scope = .ok (.finite s.upper)) ∧
    (s.breakPoints.Pairwise (· < ·) ∧
      ∀ x, x ∈ s.breakPoints ↔ x ∈ points ∧ s.lower < x ∧ x < s.upper) ∧
    (s.pieceStart 0 = s.lower ∧ s.pieceEnd (s.numPieces - 1) = s.upper ∧
      (∀ i, s.pieceStart (i + 1) = s.pieceEnd i) ∧
      (s.lower < s.upper → ∀ i < s.numPieces, 0 < s.pieceWidth i)) ∧
    (∀ a x, direction.value a = .ok x → s.direction.value a = .ok x) ∧
    ∀ a x, s.direction.value a = .ok x → ∃ parts, s.liftedRealization a = .ok parts ∧
      parts.length = s.numPieces ∧
      (∀ i < s.numPieces, parts[i]? =
        some (min (max x (s.pieceStart i)) (s.pieceEnd i) - s.pieceStart i)) ∧
      (∀ i part, parts[i]? = some part → 0 ≤ part ∧ part ≤ s.pieceWidth i) ∧
      (∀ i part next, parts[i]? = some part → parts[i + 1]? = some next → next ≠ 0 →
        part = s.pieceWidth i) ∧
      parts.sum = min (max x s.lower) s.upper - s.lower := by
  have hs := ordered_of_make hmake
  obtain ⟨hlower, hupper, -, hdirection, -⟩ := make_eq_ok hmake
  refine ⟨⟨hlower, hupper⟩, ⟨hs.increasing, fun _ => mem_breakPoints_iff hmake⟩,
    ⟨rfl, pieceEnd_of_le le_rfl, fun _ => rfl, fun h i hi => hs.pieceWidth_pos_of_lt h hi⟩,
    fun a x hx => hdirection ▸ LinearExpr.value_simplify hx, fun a x hx => ?_⟩
  have hpart : ∀ {i part}, (s.lifted x)[i]? = some part → part = s.portion x i := by
    intro i part hpart
    have hi : i < s.numPieces :=
      s.length_lifted x ▸ (List.getElem?_eq_some_iff.1 hpart).1
    exact Option.some.inj (hpart.symm.trans (s.getElem?_lifted x hi))
  refine ⟨s.lifted x, ?_, s.length_lifted x, fun i hi => ?_, fun i part hi => ?_,
    fun i part next hi hnext hne => ?_, sum_lifted_eq_clamp hs x⟩
  · rw [liftedRealization, hx]
    rfl
  · rw [getElem?_lifted s x hi, portion_eq_clamp hs]
  · rw [hpart hi]
    exact ⟨s.portion_nonneg x i, portion_le_width hs x i⟩
  · rw [hpart hnext] at hne
    rw [hpart hi, portion_eq_width_of_next hs hne]

open UncertaintySet (centered)

/-- Twice the first uncertainty without the second one, written with a repeated term. -/
noncomputable def sloping : LinearExpr ℝ UncertaintyRef :=
  ⟨[⟨1, ⟨⟨0⟩, 0, 0⟩⟩, ⟨-1, ⟨⟨0⟩, 0, 1⟩⟩, ⟨1, ⟨⟨0⟩, 0, 0⟩⟩]⟩

private theorem make_sloping : make [-4, -1, -1, 2, 3] sloping centered.scope =
    .ok ⟨[-1, 2], ⟨[⟨2, ⟨⟨0⟩, 0, 0⟩⟩, ⟨-1, ⟨⟨0⟩, 0, 1⟩⟩]⟩, -3, 3⟩ := by
  have hsimplify : sloping.simplify = ⟨[⟨2, ⟨⟨0⟩, 0, 0⟩⟩, ⟨-1, ⟨⟨0⟩, 0, 1⟩⟩]⟩ := by
    simp [sloping, LinearExpr.simplify, LinearExpr.merged, LinearExpr.mergeTerm]
    norm_num
  have hfirst : centered.scope.bounds ⟨⟨0⟩, 0, 0⟩ =
      .ok ⟨.ofLower (some (-1)), .ofUpper (some 1)⟩ := rfl
  have hsecond : centered.scope.bounds ⟨⟨0⟩, 0, 1⟩ =
      .ok ⟨.ofLower (some (-1)), .ofUpper (some 1)⟩ := rfl
  have hzero : (0 : Extended ℝ) = .finite 0 := rfl
  simp only [make, hsimplify, LinearExpr.lower, LinearExpr.upper, Term.bounds, hfirst, hsecond,
    hzero, Interval.scale, Extended.ofLower, Extended.ofUpper, Extended.ofScalar_real,
    PolicyError.fromModel, Bind.bind, Except.bind, pure, Except.pure, List.foldlM_cons,
    List.foldlM_nil]
  norm_num [Except.mapError, decreases, keepInside]

/-- Points outside the range and a repeated one are dropped, and a value that ends in the second
piece fills the first one. -/
theorem make_represents_sloping : ∃ s parts,
    make [-4, -1, -1, 2, 3] sloping centered.scope = .ok s ∧
      s.breakPoints = [-1, 2] ∧ s.lower = -3 ∧ s.upper = 3 ∧
      sloping.value (.ofList [1, 1 / 2]) = .ok (3 / 2) ∧
      s.liftedRealization (.ofList [1, 1 / 2]) = .ok parts ∧ parts.length = 3 ∧
      parts[0]? = some 2 ∧ parts[1]? = some (5 / 2) ∧ parts[2]? = some 0 ∧ parts.sum = 9 / 2 := by
  have hvalue : sloping.value (.ofList [1, 1 / 2]) = .ok (3 / 2) := by
    refine (LinearExpr.value_eq_ok_iff (Assignment.ofList_within _)).2 ⟨?_, ?_⟩
    · simp [sloping, LinearExpr.vars, Assignment.ofList_eq_bySlot_iff]
    · norm_num [sloping, LinearExpr.eval, bySlot, entryAt]
  obtain ⟨-, -, -, hsimplified, hlifted⟩ := make_represents make_sloping
  obtain ⟨parts, hrun, hlength, hparts, -, -, hsum⟩ := hlifted _ _ (hsimplified _ _ hvalue)
  refine ⟨_, parts, make_sloping, rfl, rfl, rfl, hvalue, hrun, hlength, ?_, ?_, ?_, ?_⟩
  · rw [hparts 0 (by decide)]
    norm_num [pieceStart, pieceEnd]
  · rw [hparts 1 (by decide)]
    norm_num [pieceStart, pieceEnd]
  · rw [hparts 2 (by decide)]
    norm_num [pieceStart, pieceEnd]
  · rw [hsum]
    norm_num

end BreakpointSeries

end AdjustableRobust
