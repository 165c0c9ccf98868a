import AdjustableRobust.Proofs.Lifting.Alternatives
import AdjustableRobust.Proofs.Lifting.OutsideMass

/-!
# Cuts across axes

When all axes share their breakpoints, the pieces beyond a breakpoint hold what the values exceed it
by, so their sum over all axes is bounded by how much realizations of the set exceed the breakpoint
in total.
-/

namespace AdjustableRobust

/-! ## Shared breakpoints -/

namespace LiftedAxis

variable {axis : LiftedAxis ℝ} {s series : BreakpointSeries ℝ} {x : ℝ} {U : UncertaintyRef → ℝ}

/-- Series differ at most in their direction. -/
theorem IsFilled.of_eq (h : axis.IsFilled s x U) (hpoints : s.breakPoints = series.breakPoints)
    (hlower : s.lower = series.lower) (hupper : s.upper = series.upper) :
    axis.IsFilled series x U := by
  obtain ⟨points, direction, lower, upper⟩ := s
  obtain ⟨points', direction', lower', upper'⟩ := series
  simp only at hpoints hlower hupper
  subst hpoints hlower hupper
  exact ⟨⟨h.ordered.range, h.ordered.inside, h.ordered.increasing⟩, h.lower, h.upper, h.length,
    h.portion⟩

private theorem eq_of_forall_mem_zip {xs ys : List ℝ} (hlength : xs.length = ys.length)
    (h : ∀ p ∈ xs.zip ys, p.1 = p.2) : xs = ys := by
  refine List.ext_getElem hlength fun i hi hi' => ?_
  have hmem : (xs[i], ys[i]) ∈ xs.zip ys := by
    rw [← List.getElem_zip (h := by rw [List.length_zip]; omega)]
    exact List.getElem_mem _
  exact h _ hmem

/-- All axes have a series with the shared breakpoints, and the shared series is one of them. -/
theorem sharedSeries?_eq_some {axes : List (LiftedAxis ℝ)} (h : sharedSeries? axes = some series) :
    (∃ axis ∈ axes, axis.series? = some series) ∧
      ∀ axis ∈ axes, ∃ s, axis.series? = some s ∧ s.breakPoints = series.breakPoints := by
  simp only [sharedSeries?, Option.bind_eq_bind, Option.bind_eq_some_iff] at h
  obtain ⟨first, hfirst, series', hseries, h⟩ := h
  split at h
  · next hall =>
    obtain rfl := Option.some.inj h
    refine ⟨⟨first, List.mem_of_head? hfirst, hseries⟩, fun axis haxis => ?_⟩
    have hany := List.all_eq_true.1 hall axis haxis
    cases hs : axis.series? with
    | none => simp [hs] at hany
    | some s =>
      rw [hs, Option.any_some, Bool.and_eq_true, beq_iff_eq, List.all_eq_true] at hany
      refine ⟨s, rfl, eq_of_forall_mem_zip hany.1 fun p hp => ?_⟩
      have hsame := hany.2 p hp
      rwa [Scalar.beq_real, decide_eq_true_eq] at hsame
  · cases h

end LiftedAxis

namespace Lifting

variable {l : Lifting ℝ} {set : UncertaintySet ℝ} {a : ConstraintSet ℝ} {r : List ℝ}
variable {series : BreakpointSeries ℝ} {U : UncertaintyRef → ℝ}

/-- With equal bounds, realizations fill all axes along the shared series. -/
theorem IsOver.forall₂_isFilled (h : l.IsOver set) (hequal : set.equalBounds = true)
    (hshared : LiftedAxis.sharedSeries? l.axes = some series) (hr : set.Realizes a r)
    (hU : l.IsLift r U) :
    List.Forall₂ (fun axis x => LiftedAxis.IsFilled axis series x U) l.axes r := by
  have hadmits := UncertaintySet.forall₂_admits_iff.2 ⟨hr.length, hr.bounds⟩
  obtain ⟨⟨first, hfirst, hseries⟩, hall⟩ := LiftedAxis.sharedSeries?_eq_some hshared
  obtain ⟨v, hv, hrepresents⟩ := exists_of_forall₂_right h.represents hfirst
  obtain ⟨-, hlower, hupper⟩ := hrepresents.pieces series hseries
  rw [List.forall₂_iff_get]
  refine ⟨hU.length_eq, fun i hi hi' => ?_⟩
  obtain ⟨s, hs, hpoints⟩ := hall l.axes[i] (List.getElem_mem hi)
  have hi₀ : i < set.vars.items.length := h.represents.length_eq ▸ hi
  obtain ⟨-, hlower', hupper'⟩ := (h.represents.get hi₀ hi).pieces s hs
  obtain ⟨heq, heq'⟩ := UncertaintySet.eq_bounds_of_equalBounds hequal (List.getElem_mem hi₀) hv
  obtain ⟨x, hx, hfilled⟩ := h.isFilled hadmits hU (List.getElem?_eq_getElem hi) hs
  obtain rfl : r[i] = x := Option.some.inj ((List.getElem?_eq_getElem hi').symm.trans hx)
  refine hfilled.of_eq hpoints ?_ ?_
  · exact Option.some.inj (hlower'.symm.trans (heq.trans hlower))
  · exact Option.some.inj (hupper'.symm.trans (heq'.trans hupper))

end Lifting

/-! ## Sums over all axes -/

namespace RotationalCut

variable {axes : List (LiftedAxis ℝ)} {series : BreakpointSeries ℝ}

/-- An expression adds up a part of the value of each axis, wherever values fill all axes. -/
structure Sums (axes : List (LiftedAxis ℝ)) (series : BreakpointSeries ℝ)
    (e : AffineExpr ℝ UncertaintyRef) (part : ℝ → ℝ) : Prop where
  occurs : ∀ u ∈ e.vars, u ∈ axes.flatMap (·.vars)
  eval : ∀ r U, List.Forall₂ (fun axis x => LiftedAxis.IsFilled axis series x U) axes r →
    e.eval U = (r.map part).sum

/-- Adding a part of the value of an axis to an expression. -/
structure AddsPart (series : BreakpointSeries ℝ) (part : ℝ → ℝ) (axis : LiftedAxis ℝ)
    (e e' : AffineExpr ℝ UncertaintyRef) : Prop where
  occurs : ∀ u ∈ e'.vars, u ∈ e.vars ∨ u ∈ axis.vars
  eval : ∀ x U, axis.IsFilled series x U → e'.eval U = e.eval U + part x

private theorem eval_foldlM {part : ℝ → ℝ} {ε : Type}
    {add : AffineExpr ℝ UncertaintyRef → LiftedAxis ℝ → Except ε (AffineExpr ℝ UncertaintyRef)}
    (hadd : ∀ e axis e', add e axis = .ok e' → AddsPart series part axis e e') {r : List ℝ}
    {U : UncertaintyRef → ℝ}
    (hfilled : List.Forall₂ (fun axis x => LiftedAxis.IsFilled axis series x U) axes r)
    {e e' : AffineExpr ℝ UncertaintyRef} (hrun : axes.foldlM add e = .ok e') :
    e'.eval U = e.eval U + (r.map part).sum := by
  induction hfilled generalizing e with
  | nil =>
    rw [List.foldlM_nil, pure_eq_ok_iff] at hrun
    rw [hrun, List.map_nil, List.sum_nil, add_zero]
  | cons hx _ ih =>
    rw [List.foldlM_cons, bind_eq_ok_iff] at hrun
    obtain ⟨e₁, hfirst, hrest⟩ := hrun
    rw [ih hrest, (hadd e _ e₁ hfirst).eval _ _ hx, List.map_cons, List.sum_cons, add_assoc]

/-- Adding a part for each axis to a sum over all axes. -/
theorem Sums.add_parts {e e' : AffineExpr ℝ UncertaintyRef} {sum part : ℝ → ℝ} {ε : Type}
    {add : AffineExpr ℝ UncertaintyRef → LiftedAxis ℝ → Except ε (AffineExpr ℝ UncertaintyRef)}
    (h : Sums axes series e sum)
    (hadd : ∀ e axis e', add e axis = .ok e' → AddsPart series part axis e e')
    (hrun : axes.foldlM add e = .ok e') : Sums axes series e' fun x => sum x + part x where
  occurs := by
    refine foldlM_invariant (I := fun e : AffineExpr ℝ UncertaintyRef =>
      ∀ u ∈ e.vars, u ∈ axes.flatMap (·.vars))
      (fun e axis haxis e' he hstep u hu => ?_) h.occurs hrun
    rcases (hadd e axis e' hstep).occurs u hu with hu | hu
    · exact he u hu
    · exact List.mem_flatMap.2 ⟨axis, haxis, hu⟩
  eval r U hfilled := by
    rw [eval_foldlM hadd hfilled hrun, h.eval r U hfilled, List.sum_map_add]

/-! ## Cuts -/

variable {set : UncertaintySet ℝ} {a : ConstraintSet ℝ} {m m' : RobustModel ℝ}

/-- The axes share a series, and stand for the uncertainties of a set with equal bounds and a single
alternative. -/
structure Shared (axes : List (LiftedAxis ℝ)) (series : BreakpointSeries ℝ)
    (set : UncertaintySet ℝ) (a : ConstraintSet ℝ) : Prop where
  isOver : (⟨axes⟩ : Lifting ℝ).IsOver set
  series : LiftedAxis.sharedSeries? axes = some series
  bounds : set.equalBounds = true
  single : set.alternatives.items = [a]

private theorem Sums.valid (h : Shared axes series set a) {e : AffineExpr ℝ UncertaintyRef}
    {sum : ℝ → ℝ} (he : Sums axes series e sum) {t budget : ℝ}
    (hsum : ∀ x, series.Ordered → series.lower ≤ x → x ≤ series.upper → sum x ≤ max (|x| - t) 0)
    (hbudget : set.outsideBudget t = .ok budget) :
    Lifting.Valid ⟨axes⟩ set 0 (e.relateValue .leq budget).toConic where
  occurs u hu := he.occurs u (AffineExpr.vars_relateValue e _ _ ▸ hu)
  holds a' r U ha' hr hU := by
    obtain rfl : a = a' := by simpa [h.single] using ha'
    have hfilled := h.isOver.forall₂_isFilled h.bounds h.series hr hU
    rw [AffineExpr.holds_relateValue_iff, he.eval r U hfilled]
    change _ ≤ (0 : ℝ)
    rw [sub_nonpos]
    refine le_trans ?_ (UncertaintySet.sum_excess_le_outsideBudget h.single hr hbudget)
    apply List.sum_le_sum
    intro x hx
    obtain ⟨axis, -, hx⟩ := exists_of_forall₂_right hfilled hx
    exact hsum x hx.ordered hx.lower hx.upper

private theorem tightens_of_cuts (h : Shared axes series set a)
    (hsize : m.uncertainty.alternatives.size = 1) {is : List ℕ} {threshold : ℕ → ℝ}
    {part : ℕ → ℝ → ℝ} {add : ℕ → AffineExpr ℝ UncertaintyRef → LiftedAxis ℝ →
      Except (PolicyError ℝ) (AffineExpr ℝ UncertaintyRef)}
    (hadd : ∀ i e axis e', add i e axis = .ok e' → AddsPart series (part i) axis e e')
    (hsum : ∀ ps i rest, ps ++ i :: rest = is → ∀ x, series.Ordered → series.lower ≤ x →
      x ≤ series.upper → ((ps ++ [i]).map (part · x)).sum ≤ max (|x| - threshold i) 0)
    {o : AffineExpr ℝ UncertaintyRef}
    (hrun : is.foldlM (fun (p : RobustModel ℝ × AffineExpr ℝ UncertaintyRef) i => do
      let outer ← axes.foldlM (add i) p.2
      let budget ← PolicyError.fromModel (set.outsideBudget (threshold i))
      return (← cap p.1 i outer budget, outer)) (m, .zero) = .ok (m', o)) :
    UncertaintySet.Tightens (Lifting.Valid ⟨axes⟩ set) m.uncertainty m'.uncertainty := by
  -- the expression accumulates the parts for all breakpoints that were come past
  have hall := foldlM_prefix (I := fun ps (p : RobustModel ℝ × AffineExpr ℝ UncertaintyRef) =>
    UncertaintySet.Tightens (Lifting.Valid ⟨axes⟩ set) m.uncertainty p.1.uncertainty ∧
      Sums axes series p.2 fun x => (ps.map (part · x)).sum) ?_ ?_ hrun
  · exact hall.1
  · rintro ps i rest ⟨m₁, outer⟩ p' his ⟨htightens, hsums⟩ hstep
    simp only [bind_eq_ok_iff, pure_eq_ok_iff, cap, PolicyError.fromModel, mapError_eq_ok_iff,
      RobustModel.addUncertaintyConstraint] at hstep
    obtain ⟨outer', houter', budget, hbudget, m₂, ⟨s, hs, rfl⟩, rfl⟩ := hstep
    have hsums' : Sums axes series outer' fun x => ((ps ++ [i]).map (part · x)).sum := by
      simp only [List.map_append, List.sum_append, List.map_singleton, List.sum_singleton]
      exact hsums.add_parts (hadd i) houter'
    refine ⟨htightens.trans (.of_addConstraint ?_ hs), hsums'⟩
    rw [htightens.size, hsize]
    exact hsums'.valid h (hsum ps i rest his) hbudget
  · exact ⟨.refl _, by simp, fun r U _ => by simp⟩

private theorem prefix_map_range {f : ℕ → ℕ} {ps rest : List ℕ} {i n : ℕ}
    (h : ps ++ i :: rest = (List.range n).map f) :
    ps.length < n ∧ i = f ps.length ∧ ps ++ [i] = (List.range (ps.length + 1)).map f := by
  have hlength := congrArg List.length h
  rw [List.length_append, List.length_cons, List.length_map, List.length_range] at hlength
  have hlt : ps.length < n := by omega
  have htake := congrArg (List.take (ps.length + 1)) h
  have hbegin : ps ++ i :: rest = (ps ++ [i]) ++ rest := by simp
  rw [hbegin, List.take_left' (by simp), ← List.map_take, List.take_range,
    min_eq_left (Nat.succ_le_of_lt hlt)] at htake
  have hlast := htake
  rw [List.range_succ, List.map_append] at hlast
  exact ⟨hlt, by simpa using (List.append_inj hlast (by simp)).2, htake⟩

private theorem addsPart_portion {i : ℕ} {e e' : AffineExpr ℝ UncertaintyRef}
    {axis : LiftedAxis ℝ} (hrun : (do
      return e.addTerm 1 (← PolicyError.fromStore (axis.variableAt i))) =
        (.ok e' : Except (PolicyError ℝ) (AffineExpr ℝ UncertaintyRef))) :
    AddsPart series (fun x => series.portion x i) axis e e' := by
  rw [bind_eq_ok_iff] at hrun
  obtain ⟨u, hu, hrun⟩ := hrun
  rw [PolicyError.fromStore, mapError_eq_ok_iff, LiftedAxis.variableAt_eq_ok_iff] at hu
  rw [pure_eq_ok_iff] at hrun
  subst hrun
  refine ⟨fun v hv => ?_, fun x U hfilled => ?_⟩
  · rw [AffineExpr.vars_addTerm, List.mem_append, List.mem_singleton] at hv
    rcases hv with hv | rfl
    · exact .inl hv
    · exact .inr (List.mem_of_getElem? hu)
  · rw [AffineExpr.eval_addTerm, hfilled.portion i u hu, one_mul]

private theorem reverse_range_eq (n : ℕ) :
    (List.range n).reverse = (List.range n).map fun k => n - 1 - k := by
  rw [List.range_eq_range', List.reverse_range', ← List.range_eq_range']
  simp only [Nat.zero_add]

private theorem sum_last_portions (hs : series.Ordered) {x : ℝ} (hx : x ≤ series.upper)
    {ps rest : List ℕ} {i : ℕ} (his : ps ++ i :: rest = (List.range series.numPieces).reverse) :
    ((ps ++ [i]).map fun j => series.portion x j).sum = x - min x (series.pieceStart i) := by
  rw [reverse_range_eq] at his
  obtain ⟨hlt, hi, hps⟩ := prefix_map_range his
  have hsum := BreakpointSeries.sum_portion_reflect hs hx (Nat.succ_le_of_lt hlt)
  have hi' : series.numPieces - (ps.length + 1) = i := by omega
  rw [hi'] at hsum
  rw [← hsum, hps, List.map_map]
  rfl

/-- Cuts of non-negative sets are valid. -/
theorem tightens_of_addNonNegative (h : Shared axes series set a)
    (hsize : m.uncertainty.alternatives.size = 1)
    (hrun : addNonNegative set series axes m = .ok m') :
    UncertaintySet.Tightens (Lifting.Valid ⟨axes⟩ set) m.uncertainty m'.uncertainty := by
  rw [addNonNegative, bind_eq_ok_iff] at hrun
  obtain ⟨⟨m₁, o⟩, hrun, hret⟩ := hrun
  obtain rfl := pure_eq_ok_iff.1 hret
  refine tightens_of_cuts h hsize (fun i e axis e' => addsPart_portion (i := i)) ?_
    hrun
  intro ps i rest his x hs _ hx
  rw [sum_last_portions hs hx his]
  rcases le_total x (series.pieceStart i) with hle | hle
  · rw [min_eq_left hle, sub_self]
    exact le_max_right _ _
  · rw [min_eq_right hle]
    exact (sub_le_sub_right (le_abs_self x) _).trans (le_max_left _ _)

private theorem pieceStart_eq_neg (hsymmetric : series.isSymmetric = true) {i : ℕ}
    (hi : i < series.breakPoints.length) :
    series.pieceStart (series.numPieces - (i + 1)) = -series.pieceEnd i := by
  have hopposite : series.breakPoints.length - 1 - i < series.breakPoints.length := by omega
  have hreverse : i < series.breakPoints.reverse.length := by rwa [List.length_reverse]
  have hmem : (series.breakPoints.reverse[i], series.breakPoints[i]) ∈
      series.breakPoints.reverse.zip series.breakPoints := by
    rw [← List.getElem_zip (h := by rw [List.length_zip, List.length_reverse, min_self]; exact hi)]
    exact List.getElem_mem _
  have hneg := List.all_eq_true.1 hsymmetric _ hmem
  simp only [Scalar.beq_real, decide_eq_true_eq, List.getElem_reverse] at hneg
  have hpiece : series.numPieces - (i + 1) = series.breakPoints.length - 1 - i + 1 := by
    rw [BreakpointSeries.numPieces]
    omega
  rw [hpiece, BreakpointSeries.pieceStart_succ, BreakpointSeries.pieceEnd_of_lt hopposite,
    BreakpointSeries.pieceEnd_of_lt hi, hneg]

private theorem sub_min_add_sub_min_le {x t : ℝ} (ht : 0 ≤ t) :
    -t - min x (-t) + (x - min x t) ≤ max (|x| - t) 0 := by
  rcases le_total x (-t) with hlow | hlow
  · rw [min_eq_left hlow, min_eq_left (by linarith), abs_of_nonpos (by linarith)]
    exact le_trans (by linarith) (le_max_left _ _)
  · rw [min_eq_right hlow]
    rcases le_total x t with hhigh | hhigh
    · rw [min_eq_left hhigh]
      exact le_trans (by linarith) (le_max_right _ _)
    · rw [min_eq_right hhigh, abs_of_nonneg (by linarith)]
      exact le_trans (by linarith) (le_max_left _ _)

private theorem addsPart_outside {i j : ℕ} {e e' : AffineExpr ℝ UncertaintyRef}
    {axis : LiftedAxis ℝ} (hrun : (do
      let low ← PolicyError.fromStore (axis.variableAt i)
      let high ← PolicyError.fromStore (axis.variableAt j)
      return ((e.addConstant (series.pieceWidth i)).addTerm (-1) low).addTerm 1 high) =
        (.ok e' : Except (PolicyError ℝ) (AffineExpr ℝ UncertaintyRef))) :
    AddsPart series (fun x => series.pieceWidth i - series.portion x i + series.portion x j) axis
      e e' := by
  simp only [bind_eq_ok_iff, pure_eq_ok_iff, PolicyError.fromStore, mapError_eq_ok_iff,
    LiftedAxis.variableAt_eq_ok_iff] at hrun
  obtain ⟨low, hlow, high, hhigh, rfl⟩ := hrun
  refine ⟨fun v hv => ?_, fun x U hfilled => ?_⟩
  · rw [AffineExpr.vars_addTerm, AffineExpr.vars_addTerm, AffineExpr.vars_addConstant,
      List.mem_append, List.mem_append, List.mem_singleton, List.mem_singleton] at hv
    rcases hv with (hv | rfl) | rfl
    · exact .inl hv
    · exact .inr (List.mem_of_getElem? hlow)
    · exact .inr (List.mem_of_getElem? hhigh)
  · rw [AffineExpr.eval_addTerm, AffineExpr.eval_addTerm, AffineExpr.eval_addConstant,
      hfilled.portion i low hlow, hfilled.portion j high hhigh]
    ring

private theorem sum_outer_portions (hs : series.Ordered) {x : ℝ} (hl : series.lower ≤ x)
    (hx : x ≤ series.upper) {k : ℕ} (hk : k < series.numPieces) :
    ((List.range (k + 1)).map fun j => series.pieceWidth j - series.portion x j +
        series.portion x (series.numPieces - j - 1)).sum =
      series.pieceEnd k - min x (series.pieceEnd k) +
        (x - min x (series.pieceStart (series.numPieces - (k + 1)))) := by
  have hsum : ∑ j ∈ Finset.range (k + 1), (series.pieceWidth j - series.portion x j +
      series.portion x (series.numPieces - 1 - j)) =
        series.pieceEnd k - min x (series.pieceEnd k) +
          (x - min x (series.pieceStart (series.numPieces - (k + 1)))) := by
    rw [Finset.sum_add_distrib, Finset.sum_sub_distrib, series.sum_pieceWidth,
      BreakpointSeries.sum_portion hs hl, BreakpointSeries.sum_portion_reflect hs hx hk,
      BreakpointSeries.pieceStart_succ]
    ring
  simp only [Nat.sub_right_comm _ _ 1]
  exact hsum

/-- Cuts of symmetric sets are valid. -/
theorem tightens_of_addSymmetric (h : Shared axes series set a)
    (hsymmetric : series.isSymmetric = true) (hsize : m.uncertainty.alternatives.size = 1)
    (hrun : addSymmetric set series axes m = .ok m') :
    UncertaintySet.Tightens (Lifting.Valid ⟨axes⟩ set) m.uncertainty m'.uncertainty := by
  rw [addSymmetric, bind_eq_ok_iff] at hrun
  obtain ⟨⟨m₁, o⟩, hrun, hret⟩ := hrun
  obtain rfl := pure_eq_ok_iff.1 hret
  refine tightens_of_cuts h hsize (fun i e axis e' =>
    addsPart_outside (i := i) (j := series.numPieces - i - 1)) ?_ hrun
  intro ps i rest his x hs hl hx
  rw [← List.map_id (List.range _)] at his
  obtain ⟨hlt, hi, hps⟩ := prefix_map_range his
  rw [id] at hi
  subst hi
  have hpoint : ps.length < series.breakPoints.length := by
    rw [BreakpointSeries.numPieces] at hlt
    omega
  have hstart := pieceStart_eq_neg hsymmetric hpoint
  have hneg : 0 ≤ -series.pieceEnd ps.length := by
    have hle : series.pieceEnd ps.length ≤
        series.pieceStart (series.numPieces - (ps.length + 1)) := by
      apply hs.pieceEnd_le_pieceStart
      rw [BreakpointSeries.numPieces] at hlt ⊢
      omega
    rw [hstart] at hle
    linarith
  have hpiece : ps.length < series.numPieces := hpoint.trans (Nat.lt_succ_self _)
  rw [hps, List.map_id, sum_outer_portions hs hl hx hpiece, hstart]
  have houtside := sub_min_add_sub_min_le (x := x) hneg
  rwa [neg_neg] at houtside

end RotationalCut

namespace LiftedModel

/-- Only a decided question is settled with yes. -/
theorem eq_decided_of_settle {d d' : Diagnostics} {v : Verdict}
    (h : d.settle v = (true, d')) : v = .decided true := by
  cases v with
  | decided answer =>
    obtain ⟨rfl, -⟩ := Prod.mk.inj h
    rfl
  | undecided warning => cases (Prod.mk.inj h).1

/-- Only sets with a known shape and equal bounds are decided to be rotationally invariant. -/
theorem shape_of_rotationalInvariance {s : UncertaintySet ℝ}
    (h : s.rotationalInvariance = .decided true) :
    (∃ a, s.alternatives.items = [a]) ∧ s.equalBounds = true := by
  obtain ⟨htype, hequal⟩ := UncertaintySet.rotationalInvariance_eq_iff.1 h
  exact ⟨UncertaintySet.exists_single_of_specialType htype, hequal⟩

section

variable {model : RobustModel ℝ} {axes : List (LiftedAxis ℝ)}
variable {lifted lifted' : RobustModel ℝ} {d d' : Diagnostics}

/-- Cuts across axes are only made for axes that share their breakpoints, over a set that is known
to stay the same under permutations: first those of symmetric sets, if the breakpoints are
symmetric, then those of sets that are not negative. -/
theorem tightenRotational_eq_ok (hrun : tightenRotational model axes lifted d = .ok lifted' d') :
    lifted' = lifted ∨ ∃ series m, LiftedAxis.sharedSeries? axes = some series ∧
      model.uncertainty.rotationalInvariance = .decided true ∧
        (m = lifted ∨ series.isSymmetric = true ∧
          RotationalCut.addSymmetric model.uncertainty series axes lifted = .ok m) ∧
        (lifted' = m ∨
          RotationalCut.addNonNegative model.uncertainty series axes m = .ok lifted') := by
  have hlast : ∀ {m : RobustModel ℝ} {series : BreakpointSeries ℝ} {d : Diagnostics},
      (if model.uncertainty.nonNegative then
        Step.ofExcept id (RotationalCut.addNonNegative model.uncertainty series axes m)
      else pure m : Step Diagnostics (PolicyError ℝ) _) d = .ok lifted' d' →
        lifted' = m ∨
          RotationalCut.addNonNegative model.uncertainty series axes m = .ok lifted' := by
    intro m series d hrun
    split at hrun
    · exact .inr (Step.ofExcept_eq_ok_iff.1 hrun).1
    · exact .inl (Step.pure_eq_ok_iff.1 hrun).1.symm
  rw [tightenRotational] at hrun
  cases hseries : LiftedAxis.sharedSeries? axes with
  | none =>
    rw [hseries] at hrun
    exact .inl (Step.pure_eq_ok_iff.1 hrun).1.symm
  | some series =>
    rw [hseries] at hrun
    obtain ⟨invariant, d₁, hinvariant, hrun⟩ := Step.bind_eq_ok_iff.1 hrun
    rw [Step.ofChange_eq_ok_iff] at hinvariant
    cases invariant with
    | false => exact .inl (Step.pure_eq_ok_iff.1 hrun).1.symm
    | true =>
      have hdecided := eq_decided_of_settle hinvariant
      rw [Bool.not_true, if_neg Bool.false_ne_true] at hrun
      by_cases hsymmetric : series.isSymmetric = true
      · rw [if_pos hsymmetric] at hrun
        obtain ⟨symmetric, d₂, -, hrun⟩ := Step.bind_eq_ok_iff.1 hrun
        cases symmetric with
        | true =>
          obtain ⟨m, d₃, hadd, hrun⟩ := Step.bind_eq_ok_iff.1 hrun
          exact .inr ⟨series, m, rfl, hdecided,
            .inr ⟨hsymmetric, (Step.ofExcept_eq_ok_iff.1 hadd).1⟩, hlast hrun⟩
        | false => exact .inr ⟨series, lifted, rfl, hdecided, .inl rfl, hlast hrun⟩
      · rw [if_neg hsymmetric] at hrun
        exact .inr ⟨series, lifted, rfl, hdecided, .inl rfl, hlast hrun⟩

/-- Cuts across axes are valid. -/
theorem tightens_of_tightenRotational (h : (⟨axes⟩ : Lifting ℝ).IsOver model.uncertainty)
    (hsize : model.uncertainty.alternatives.size = 1 → lifted.uncertainty.alternatives.size = 1)
    (hrun : tightenRotational model axes lifted d = .ok lifted' d') :
    UncertaintySet.Tightens (Lifting.Valid ⟨axes⟩ model.uncertainty) lifted.uncertainty
      lifted'.uncertainty := by
  obtain rfl | ⟨series, m, hseries, hdecided, hfirst, hsecond⟩ := tightenRotational_eq_ok hrun
  · exact .refl _
  obtain ⟨⟨a, ha⟩, hequal⟩ := shape_of_rotationalInvariance hdecided
  have hshared : RotationalCut.Shared axes series model.uncertainty a := ⟨h, hseries, hequal, ha⟩
  have hone : lifted.uncertainty.alternatives.size = 1 := hsize (congrArg List.length ha)
  have hm : UncertaintySet.Tightens (Lifting.Valid ⟨axes⟩ model.uncertainty) lifted.uncertainty
      m.uncertainty := by
    obtain rfl | ⟨hsymmetric, hadd⟩ := hfirst
    · exact .refl _
    · exact RotationalCut.tightens_of_addSymmetric hshared hsymmetric hone hadd
  obtain rfl | hadd := hsecond
  · exact hm
  · exact hm.trans (RotationalCut.tightens_of_addNonNegative hshared (hm.size.trans hone) hadd)

end

end LiftedModel

end AdjustableRobust
