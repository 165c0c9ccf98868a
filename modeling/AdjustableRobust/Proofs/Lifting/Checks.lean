import AdjustableRobust.Proofs.Checked
import AdjustableRobust.Proofs.Lifting.Box
import AdjustableRobust.Proofs.Lifting.Rotational

/-!
# Checked pieces

What lifting says of the pieces of an axis, with its divisions, positions and entries checked: the
pieces fill up one after the other, box alternatives are tightened, and sets that stay the same
under permutations are cut. The loops run over positions, as on a machine. Where the pieces of the
series are in order, and there is a lifted variable for each of them, all checks are passed.
-/

namespace AdjustableRobust

/-- The lifted variables of an axis stand for the pieces of a series. -/
structure LiftedAxis.HasPieces (axis : LiftedAxis ℝ) (s : BreakpointSeries ℝ) : Prop where
  ordered : s.Ordered
  length : axis.vars.length = s.numPieces

/-- An axis that stands for an uncertainty has the pieces of its series. -/
theorem LiftedAxis.Represents.hasPieces {axis : LiftedAxis ℝ} {v : UncertaintyVariable ℝ}
    (h : axis.Represents v) {s : BreakpointSeries ℝ} (hs : axis.series? = some s) :
    axis.HasPieces s where
  ordered := (h.pieces s hs).1
  length := by rw [h.length, hs, Option.elim_some]

namespace CheckedLifting

open Checked (Agrees plain divide minus entry)
open BoxPieces (NamedConstraint Outside)

variable {axis : LiftedAxis ℝ} {s series : BreakpointSeries ℝ} {b : BoxPieces ℝ}

private theorem agrees_variableAt {i : ℕ} (hi : i < axis.vars.length) :
    Agrees (entry axis.vars i) (axis.variableAt i) := by
  rw [LiftedAxis.variableAt_eq_ok_iff.2 (List.getElem?_eq_getElem hi)]
  exact Checked.entry_of_lt hi

private theorem agrees_fromStore_variableAt {i : ℕ} (hi : i < axis.vars.length) :
    Agrees (entry axis.vars i) (PolicyError.fromStore (axis.variableAt i) :
      Except (PolicyError ℝ) UncertaintyRef) := by
  rw [LiftedAxis.variableAt_eq_ok_iff.2 (List.getElem?_eq_getElem hi)]
  exact Checked.entry_of_lt hi

private theorem forall₂_range_zipIdx {α : Type} (xs : List α) :
    List.Forall₂ (fun i (p : α × ℕ) => p.2 = i ∧ xs[i]? = some p.1) (List.range xs.length)
      xs.zipIdx := by
  refine List.forall₂_iff_get.2 ⟨by simp, fun i hi hi' => ?_⟩
  rw [List.length_range] at hi
  simp [hi]

/-! ## Fill constraints -/

/-- Each piece is filled at most to the fraction to which the piece before it is filled. -/
noncomputable def addFill (lifted : RobustModel ℝ) (set : ConstraintSetRef) (name : String)
    (s : BreakpointSeries ℝ) (axis : LiftedAxis ℝ) : Checked (ModelError ℝ) (RobustModel ℝ) :=
  (List.range' 1 (s.numPieces - 1)).foldlM (fun lifted i => do
    let rate ← divide 1 (s.pieceWidth i)
    let piece ← entry axis.vars i
    let before ← minus i 1
    let previousRate ← divide (-1) (s.pieceWidth before)
    let previous ← entry axis.vars before
    let fill := (AffineExpr.term rate piece).addTerm previousRate previous
    plain (lifted.addUncertaintyConstraintTo set s!"BoundLiftedWithPrevious{name}_{i}"
      (fill.relateValue .leq 0).toConic)) lifted

private theorem forall₂_range'_zip {α : Type} (xs : List α) :
    List.Forall₂ (fun i (p : (α × α) × ℕ) =>
      p.2 = i ∧ 1 ≤ i ∧ xs[i - 1]? = some p.1.1 ∧ xs[i]? = some p.1.2)
        (List.range' 1 (xs.length - 1)) ((xs.zip xs.tail).zipIdx 1) := by
  refine List.forall₂_iff_get.2 ⟨by simp, fun i hi hi' => ?_⟩
  rw [List.length_range'] at hi
  have hlt : 1 + i < xs.length := by omega
  have hlt' : i < xs.length := by omega
  simp [hlt, hlt', Nat.add_comm i 1]

/-- With several pieces, all of them have a width. -/
theorem agrees_addFill (h : axis.HasPieces s) (lifted : RobustModel ℝ) (set : ConstraintSetRef)
    (name : String) :
    Agrees (addFill lifted set name s axis) (LiftedModel.addFill lifted set name s axis) := by
  rw [addFill, LiftedModel.addFill, ← h.length]
  refine Agrees.foldlM_forall₂ (I := fun _ _ => True) (forall₂_range'_zip axis.vars)
    (fun _ _ _ _ _ _ => trivial) ?_ trivial
  rintro i ⟨⟨previous, piece⟩, j⟩ rest lifted ⟨rfl, hone, hprevious, hpiece⟩ -
  have hj : j < s.numPieces := h.length ▸ (List.getElem?_eq_some_iff.1 hpiece).1
  have hn : 1 < s.numPieces := by omega
  have hwidth := (h.ordered.pieceWidth_pos hn hj).ne'
  have hwidth' := (h.ordered.pieceWidth_pos hn (by omega : j - 1 < s.numPieces)).ne'
  exact Agrees.bind_ok (Checked.divide_of_ne 1 hwidth) <|
    Agrees.bind_ok (Checked.entry_of_eq_some hpiece) <|
    Agrees.bind_ok (Checked.minus_of_le hone) <|
    Agrees.bind_ok (Checked.divide_of_ne (-1) hwidth') <|
    Agrees.bind_ok (Checked.entry_of_eq_some hprevious) Agrees.plain

/-- A second piece without a width does not pass the check: the order of the pieces is needed. -/
theorem addFill_eq_fault (hn : 1 < s.numPieces) (hwidth : s.pieceWidth 1 = 0)
    (lifted : RobustModel ℝ) (set : ConstraintSetRef) (name : String) (axis : LiftedAxis ℝ) :
    addFill lifted set name s axis = .error (.fault .divisionByZero) := by
  obtain ⟨n, hn⟩ : ∃ n, s.numPieces - 1 = n + 1 := ⟨s.numPieces - 2, by omega⟩
  have hdivide : (divide 1 (s.pieceWidth 1) : Checked (ModelError ℝ) ℝ) =
    .error (.fault .divisionByZero) := if_pos hwidth
  rw [addFill, hn, List.range'_succ, List.foldlM_cons, hdivide]
  rfl

/-! ## Boxes -/

/-- Clip a piece to the box. A piece that ends inside the box has to be filled before the next
one; both are measured by what the box leaves of them. -/
noncomputable def clippedPiece (b : BoxPieces ℝ) (i : ℕ) :
    Checked StoreError (List (NamedConstraint ℝ)) := do
  let pieceEnd := b.series.pieceEnd i
  let lower := b.clip i b.lower
  let upper := b.clip i b.upper
  let piece ← entry b.axis.vars i
  let v : AffineExpr ℝ UncertaintyRef := .var piece
  let bounds := [
    (s!"BoundLiftedBoxLB{b.set.slot}_{b.name}_{i}", v.relateValue .geq lower),
    (s!"BoundLiftedBoxUB{b.set.slot}_{b.name}_{i}", v.relateValue .leq upper)]
  if b.lower < pieceEnd && pieceEnd < b.upper then
    let nextUpper := Scalar.min (b.upper - pieceEnd) (b.series.pieceEnd (i + 1) - pieceEnd)
    let remaining := b.series.pieceWidth i - lower
    let rate ← divide 1 remaining
    let offset ← divide (-lower) remaining
    let nextRate ← divide (-1) nextUpper
    let next ← entry b.axis.vars (i + 1)
    let fill := ((AffineExpr.term rate piece).addConstant offset).addTerm nextRate next
    return bounds ++ [(s!"BoundLiftedWithPreviousBox{b.set.slot}_{b.name}_{i}",
      fill.relateValue .geq 0)]
  return bounds

/-- Clip every piece to the box. -/
noncomputable def clipped (b : BoxPieces ℝ) : Checked StoreError (List (NamedConstraint ℝ)) := do
  return (← (List.range b.series.numPieces).mapM (clippedPiece b)).flatten

private theorem agrees_clippedPiece (h : b.axis.HasPieces b.series)
    (hupper : b.upper ≤ b.series.upper) {i : ℕ} {piece : UncertaintyRef}
    (hpiece : b.axis.vars[i]? = some piece) :
    Agrees (clippedPiece b i) (b.clippedPiece piece i) := by
  refine Agrees.bind_ok (Checked.entry_of_eq_some hpiece) ?_
  rw [BoxPieces.clippedPiece]
  by_cases hinside : b.lower < b.series.pieceEnd i ∧ b.series.pieceEnd i < b.upper
  · obtain ⟨hlower, hend⟩ := hinside
    have hnext : i + 1 < b.series.numPieces := by
      by_contra hlast
      rw [BreakpointSeries.numPieces] at hlast
      rw [BreakpointSeries.pieceEnd_of_le (by omega)] at hend
      exact absurd hend (not_lt.2 hupper)
    have hn : 1 < b.series.numPieces := by omega
    have hremaining := (sub_pos.2 (BoxPieces.clip_lower_lt_pieceWidth hlower
      (h.ordered.pieceStart_lt_pieceEnd hn ((Nat.lt_succ_self i).trans hnext)))).ne'
    have hnextUpper := (BoxPieces.nextUpper_pos hend
      (h.ordered.pieceStart_lt_pieceEnd hn hnext)).ne'
    rw [← Scalar.min_real] at hnextUpper
    simp only [hlower, hend, decide_true, Bool.and_self, if_true]
    exact Agrees.bind_ok (Checked.divide_of_ne 1 hremaining) <|
      Agrees.bind_ok (Checked.divide_of_ne _ hremaining) <|
      Agrees.bind_ok (Checked.divide_of_ne (-1) hnextUpper) <|
      (agrees_variableAt (h.length ▸ hnext)).bind fun _ _ => .pure
  · have hcond : ¬(decide (b.lower < b.series.pieceEnd i) &&
        decide (b.series.pieceEnd i < b.upper)) = true := by simpa using hinside
    simp only [hcond]
    exact .pure

/-- Clipping passes all checks. -/
theorem agrees_clipped (h : b.axis.HasPieces b.series) (hupper : b.upper ≤ b.series.upper) :
    Agrees (clipped b) b.clipped := by
  rw [clipped, BoxPieces.clipped, ← h.length]
  refine (Agrees.mapM_forall₂ (forall₂_range_zipIdx b.axis.vars) ?_).bind fun _ _ => .pure
  rintro i ⟨piece, j⟩ ⟨rfl, hpiece⟩
  exact agrees_clippedPiece h hupper hpiece

/-- A piece below the box misses what it does not hold. -/
noncomputable def below (b : BoxPieces ℝ) (o : Outside) (i : ℕ) : Checked StoreError Outside := do
  if b.series.pieceEnd i ≤ b.lower then
    let piece ← entry b.axis.vars i
    return ((o.1.addTerm (-1) piece).addConstant (b.series.pieceEnd i - b.series.pieceStart i),
      o.2.1 + 1, o.2.2)
  return o

/-- A piece above the box holds too much. -/
noncomputable def above (b : BoxPieces ℝ) (o : Outside) (i : ℕ) : Checked StoreError Outside := do
  if b.upper ≤ b.series.pieceStart i then
    let stop ← minus o.2.2 1
    let piece ← entry b.axis.vars i
    return (o.1.addTerm 1 piece, o.2.1, stop)
  return o

/-- The mass missing from the pieces below the box plus the mass in the pieces above it, with the
position of the first piece that is not below and the number of pieces that are not above. -/
noncomputable def outside (b : BoxPieces ℝ) : Checked StoreError Outside :=
  (List.range b.series.numPieces).foldlM (fun o i => do above b (← below b o i) i)
    (.zero, 0, b.series.numPieces)

/-- Bound the mass outside of the box and in the two pieces that hold the ends of the box. -/
noncomputable def accumulated (b : BoxPieces ℝ) :
    Checked StoreError (List (NamedConstraint ℝ)) := do
  let (outer, first, stop) ← outside b
  let name (label : String) := s!"LiftedBoxConstrOuter{label}_{b.name}_US{b.set.slot}"
  let outermost := if outer.linear.isEmpty then [] else [(name "", outer.relateValue .leq 0)]
  if stop ≤ first then return outermost
  let last ← minus stop 1
  let lowerReach := b.series.pieceEnd first - b.lower
  let upperReach := b.upper - b.series.pieceStart last
  let lowerPiece ← entry b.axis.vars first
  let upperPiece ← entry b.axis.vars last
  let width := b.series.pieceWidth first
  let below := (outer.addConstant width).addTerm (-1) lowerPiece
  let lowerEnd := if lowerReach < upperReach then
    [(name "Smaller", below.relateValue .leq lowerReach)] else []
  let upperEnd := if upperReach < lowerReach || lowerPiece = upperPiece then
    [(name "Smaller", (outer.addTerm 1 upperPiece).relateValue .leq upperReach)] else []
  let full := if lowerPiece = upperPiece then [] else
    [(name "Full", (below.addTerm 1 upperPiece).relateValue .leq
      (Scalar.max lowerReach upperReach))]
  return outermost ++ lowerEnd ++ upperEnd ++ full

section

variable {o : Outside} {piece : UncertaintyRef} {i : ℕ}

private theorem agrees_below (o : Outside) (hpiece : b.axis.vars[i]? = some piece) :
    Agrees (below b o i) (pure (b.below o piece i)) := by
  rw [below, BoxPieces.below]
  split
  · exact .bind_ok (Checked.entry_of_eq_some hpiece) .pure
  · exact .pure

private theorem agrees_above (hpiece : b.axis.vars[i]? = some piece) (hstop : 1 ≤ o.2.2) :
    Agrees (above b o i) (pure (b.above o piece i)) := by
  rw [above, BoxPieces.above]
  split
  · exact .bind_ok (Checked.minus_of_le hstop) <|
      .bind_ok (Checked.entry_of_eq_some hpiece) .pure
  · exact .pure

private theorem stop_below (b : BoxPieces ℝ) (o : Outside) (piece : UncertaintyRef) (i : ℕ) :
    (b.below o piece i).2.2 = o.2.2 := by
  rw [BoxPieces.below]
  split <;> rfl

private theorem stop_above (b : BoxPieces ℝ) (o : Outside) (piece : UncertaintyRef) (i : ℕ) :
    o.2.2 ≤ (b.above o piece i).2.2 + 1 ∧ (b.above o piece i).2.2 ≤ o.2.2 := by
  rw [BoxPieces.above]
  split
  · exact ⟨Nat.le_add_of_sub_le le_rfl, Nat.sub_le _ _⟩
  · exact ⟨Nat.le_succ _, le_rfl⟩

end

private theorem agrees_outside (h : b.axis.HasPieces b.series) :
    Agrees (outside b) (pure b.outside) := by
  have hrange : List.range b.series.numPieces = List.range b.axis.vars.length := by rw [h.length]
  rw [BoxPieces.outside_eq, ← List.foldlM_pure, outside, hrange]
  -- at least the pieces that are left are not above the box so far
  refine Agrees.foldlM_forall₂ (I := fun rest (o : Outside) => rest.length ≤ o.2.2)
    (forall₂_range_zipIdx b.axis.vars) ?_ ?_ ?_
  · rintro ⟨piece, i⟩ rest o o' hstop hstep
    obtain ⟨habove, -⟩ := stop_above b (b.below o piece i) piece i
    rw [pure_eq_ok_iff] at hstep
    rw [stop_below, hstep] at habove
    rw [List.length_cons] at hstop
    omega
  · rintro j ⟨piece, i⟩ rest o ⟨rfl, hpiece⟩ hstop
    rw [List.length_cons] at hstop
    refine (agrees_below o hpiece).bind (g := fun o => pure (b.above o piece i)) fun o' ho' => ?_
    obtain rfl := pure_eq_ok_iff.1 ho'
    exact agrees_above hpiece (by rw [stop_below]; omega)
  · rw [List.length_zipIdx, h.length]

private theorem outside_stop_le (b : BoxPieces ℝ) : b.outside.2.2 ≤ b.series.numPieces := by
  rw [BoxPieces.outside_eq]
  refine BoxPieces.foldl_zipIdx_invariant
    (I := fun _ (o : Outside) => o.2.2 ≤ b.series.numPieces) ?_ le_rfl
  intro i o piece _ hstop
  exact (stop_above b (b.below o piece i) piece i).2.trans (stop_below b o piece i ▸ hstop)

/-- Bounding what is outside of the box passes all checks. -/
theorem agrees_accumulated (h : b.axis.HasPieces b.series) :
    Agrees (accumulated b) b.accumulated := by
  rw [accumulated, BoxPieces.accumulated]
  refine Agrees.bind_ok (agrees_outside h) ?_
  have hstop := outside_stop_le b
  generalize b.outside = o at hstop
  obtain ⟨outer, first, stop⟩ := o
  replace hstop : stop ≤ b.series.numPieces := hstop
  by_cases hempty : stop ≤ first
  · simp only [hempty, if_true]
    exact .pure
  · simp only [hempty, if_false]
    refine Agrees.bind_ok (Checked.minus_of_le (by omega)) ?_
    have hfirst : first < b.axis.vars.length := by rw [h.length]; omega
    have hlast : stop - 1 < b.axis.vars.length := by rw [h.length]; omega
    exact (agrees_variableAt hfirst).bind fun _ _ => (agrees_variableAt hlast).bind fun _ _ => .pure

/-! ## Ranges of boxes -/

/-- Intersect with the values on one side of a bound, or with the bound alone. -/
noncomputable def meet (r : BoxRange ℝ) (sense : ConstraintSense) (positive : Bool) (bound : ℝ) :
    BoxRange ℝ :=
  match sense, positive with
  | .leq, true | .geq, false => r.boundAbove bound
  | .geq, true | .leq, false => r.boundBelow bound
  | .eq, _ => (r.boundAbove bound).boundBelow bound

/-- Intersect the ranges of all variables with a constraint that bounds a single one. Other
constraints change nothing. -/
noncomputable def addConstraint (set : UncertaintySet ℝ) (ranges : List (BoxRange ℝ))
    (c : UncertaintyConstraint ℝ) : Checked (ModelError ℝ) (List (BoxRange ℝ)) := do
  match c.expression.affine.linear.simplify.terms with
  | [t] =>
    let _ ← plain (set.variableAt t.var)
    let bound ← divide (-c.expression.affine.constant) t.scale
    let range ← entry ranges t.var.slot
    return ranges.set t.var.slot (meet range c.sense (0 < t.scale) bound)
  | _ => return ranges

/-- The variable bounds intersected with the constraints of a box alternative. -/
noncomputable def ofAlternative (set : UncertaintySet ℝ) (alternative : ConstraintSet ℝ) :
    Checked (ModelError ℝ) (List (BoxRange ℝ)) :=
  alternative.constraints.foldlM (addConstraint set) (set.bounds.map fun b => ⟨b.lower?, b.upper?⟩)

private theorem agrees_addConstraint {set : UncertaintySet ℝ} {ranges : List (BoxRange ℝ)}
    (hlength : ranges.length = set.numVariables) (c : UncertaintyConstraint ℝ) :
    Agrees (addConstraint set ranges c) (BoxRange.addConstraint set ranges c) := by
  rw [addConstraint, BoxRange.addConstraint]
  have hscale := fun t => LinearExpr.scale_ne_zero_of_mem_simplify (t := t)
    (e := c.expression.affine.linear)
  generalize c.expression.affine.linear.simplify.terms = terms at hscale
  obtain _ | ⟨t, _ | ⟨t', ts⟩⟩ := terms
  · exact .pure
  · refine Agrees.plain.bind fun v hv => ?_
    have hslot : t.var.slot < ranges.length := hlength ▸ UncertaintySet.slot_lt_of_variableAt hv
    refine .bind_ok (Checked.divide_of_ne _ (hscale t (List.mem_singleton_self t))) <|
      .bind_ok (Checked.entry_of_lt hslot) ?_
    rw [List.modify_eq_set_get _ hslot]
    exact .pure
  · exact .pure

/-- The ranges of a box alternative pass all checks. -/
theorem agrees_ofAlternative (set : UncertaintySet ℝ) (alternative : ConstraintSet ℝ) :
    Agrees (ofAlternative set alternative) (BoxRange.ofAlternative set alternative) :=
  Agrees.foldlM_invariant (I := fun ranges => ranges.length = set.numVariables)
    (fun _ _ _ _ h hrun => (BoxRange.length_addConstraint hrun).trans h)
    (fun _ h c _ => agrees_addConstraint h c) (BoxRange.length_bounds set)

/-! ## Cuts across axes -/

/-- Whether the breakpoints are symmetric around zero. -/
noncomputable def isSymmetric (s : BreakpointSeries ℝ) : Checked (PolicyError ℝ) Bool :=
  let n := s.breakPoints.length
  (List.range n).allM fun i => do
    let x ← entry s.breakPoints (← minus (← minus n i) 1)
    let y ← entry s.breakPoints i
    return x == -y

/-- Symmetric sets: for each pair of opposite breakpoints, what is missing below the lower one
and present above the upper one. Sums run from the outermost pair inwards. -/
noncomputable def addSymmetric (set : UncertaintySet ℝ) (series : BreakpointSeries ℝ)
    (axes : List (LiftedAxis ℝ)) (lifted : RobustModel ℝ) :
    Checked (PolicyError ℝ) (RobustModel ℝ) := do
  let n := series.numPieces
  let (lifted, _) ← (List.range (n / 2)).foldlM (fun (lifted, outer) i => do
    let outer ← axes.foldlM (fun (outer : AffineExpr ℝ UncertaintyRef) axis => do
      let low ← entry axis.vars i
      let high ← entry axis.vars (← minus (← minus n i) 1)
      return ((outer.addConstant (series.pieceWidth i)).addTerm (-1) low).addTerm 1 high) outer
    let budget ← plain (PolicyError.fromModel (set.outsideBudget (-series.pieceEnd i)))
    return (← plain (RotationalCut.cap lifted i outer budget), outer)) (lifted, .zero)
  return lifted

/-- Non-negative sets: for each breakpoint, what is present above it. Sums run downwards from the
last piece. -/
noncomputable def addNonNegative (set : UncertaintySet ℝ) (series : BreakpointSeries ℝ)
    (axes : List (LiftedAxis ℝ)) (lifted : RobustModel ℝ) :
    Checked (PolicyError ℝ) (RobustModel ℝ) := do
  let (lifted, _) ← (List.range series.numPieces).reverse.foldlM (fun (lifted, outer) i => do
    let outer ← axes.foldlM (fun (outer : AffineExpr ℝ UncertaintyRef) axis => do
      return outer.addTerm 1 (← entry axis.vars i)) outer
    let budget ← plain (PolicyError.fromModel (set.outsideBudget (series.pieceStart i)))
    return (← plain (RotationalCut.cap lifted i outer budget), outer)) (lifted, .zero)
  return lifted

private theorem zip_reverse_eq (xs : List ℝ) :
    xs.reverse.zip xs =
      (List.range xs.length).map fun i => (entryAt xs (xs.length - i - 1), entryAt xs i) := by
  refine List.ext_getElem (by simp) fun i hi _ => ?_
  have hlt : i < xs.length := by simpa using hi
  have hlt' : xs.length - 1 - i < xs.length := by omega
  simp [entryAt, List.getElem_reverse, List.getD_eq_getElem?_getD, hlt, hlt',
    Nat.sub_right_comm xs.length i 1]

/-- There is a breakpoint at the same distance from the other end. -/
theorem isSymmetric_eq_ok (s : BreakpointSeries ℝ) : isSymmetric s = .ok s.isSymmetric := by
  rw [BreakpointSeries.isSymmetric, zip_reverse_eq, List.all_map]
  have hentry : ∀ {j}, j < s.breakPoints.length →
      (entry s.breakPoints j : Checked (PolicyError ℝ) ℝ) = .ok (entryAt s.breakPoints j) := by
    intro j hj
    rw [Checked.entry_of_lt hj, entryAt, List.getD_eq_getElem?_getD,
      List.getElem?_eq_getElem hj, Option.getD_some]
  refine Checked.allM_eq_ok fun i hi => ?_
  rw [List.mem_range] at hi
  exact Agrees.eq_ok <| .bind_ok (Checked.minus_of_le hi.le) <|
    .bind_ok (Checked.minus_of_le (Nat.le_sub_of_add_le' hi)) <|
    .bind_ok (hentry (by omega)) <| .bind_ok (hentry hi) .pure

section

variable {set : UncertaintySet ℝ} {axes : List (LiftedAxis ℝ)}

/-- The pieces of opposite breakpoints exist on all axes. -/
theorem agrees_addSymmetric (h : ∀ axis ∈ axes, axis.vars.length = series.numPieces)
    (lifted : RobustModel ℝ) :
    Agrees (addSymmetric set series axes lifted)
      (RotationalCut.addSymmetric set series axes lifted) := by
  refine Agrees.bind (Agrees.foldlM ?_) fun _ _ => .pure
  rintro ⟨lifted, outer⟩ i hi
  have hi : i < series.numPieces := (List.mem_range.1 hi).trans_le (Nat.div_le_self _ _)
  refine Agrees.bind (Agrees.foldlM fun outer axis haxis => ?_) fun _ _ =>
    Agrees.plain.bind fun _ _ => Agrees.plain.bind fun _ _ => .pure
  have hlow : i < axis.vars.length := by rw [h axis haxis]; exact hi
  have hhigh : series.numPieces - i - 1 < axis.vars.length := by rw [h axis haxis]; omega
  exact (agrees_fromStore_variableAt hlow).bind fun _ _ =>
    .bind_ok (Checked.minus_of_le hi.le) <|
    .bind_ok (Checked.minus_of_le (Nat.le_sub_of_add_le' hi)) <|
    (agrees_fromStore_variableAt hhigh).bind fun _ _ => .pure

/-- All pieces exist on all axes. -/
theorem agrees_addNonNegative (h : ∀ axis ∈ axes, axis.vars.length = series.numPieces)
    (lifted : RobustModel ℝ) :
    Agrees (addNonNegative set series axes lifted)
      (RotationalCut.addNonNegative set series axes lifted) := by
  refine Agrees.bind (Agrees.foldlM ?_) fun _ _ => .pure
  rintro ⟨lifted, outer⟩ i hi
  rw [List.mem_reverse, List.mem_range] at hi
  refine Agrees.bind (Agrees.foldlM fun outer axis haxis => ?_) fun _ _ =>
    Agrees.plain.bind fun _ _ => Agrees.plain.bind fun _ _ => .pure
  have hpiece : i < axis.vars.length := by rw [h axis haxis]; exact hi
  exact (agrees_fromStore_variableAt hpiece).bind fun _ _ => .pure

end

end CheckedLifting

end AdjustableRobust
