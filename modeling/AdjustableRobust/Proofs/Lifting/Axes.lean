import AdjustableRobust.Lifting.Map
import AdjustableRobust.Proofs.Lifting.Pieces
import AdjustableRobust.Proofs.Uncertainty.Constraints

/-!
# Lifted axes

An axis spreads a value of its base uncertainty over its lifted variables, and retracts values of
the lifted variables to one of the base uncertainty. Within the bounds both stay within the bounds,
and retracting undoes spreading. The lifting map spreads all values of a realization.
-/

namespace AdjustableRobust

namespace LiftedAxis

/-- Value of the base uncertainty when all lifted variables are zero. -/
noncomputable def origin (axis : LiftedAxis ℝ) : ℝ := axis.series?.elim 0 (·.lower)

/-- Value of the base uncertainty at values of the lifted variables: the lower end plus the sum of
the pieces, or the value of the copy. -/
noncomputable def retract (axis : LiftedAxis ℝ) (U : UncertaintyRef → ℝ) : ℝ :=
  axis.origin + (axis.vars.map U).sum

/-- Values of the lifted variables that belong to a value of the base uncertainty. -/
noncomputable def spread (axis : LiftedAxis ℝ) (x : ℝ) : List ℝ :=
  match axis.series? with
  | some s => s.lifted x
  | none => [x]

/-- The bounds of the lifted variables admit the values: a piece lies between zero and its width,
and a copy has the bounds of the base uncertainty. -/
def Admits (axis : LiftedAxis ℝ) (v : UncertaintyVariable ℝ) (xs : List ℝ) : Prop :=
  match axis.series? with
  | some s => List.Forall₂ (fun i x => 0 ≤ x ∧ x ≤ s.pieceWidth i) (List.range s.numPieces) xs
  | none => List.Forall₂ (fun (v : UncertaintyVariable ℝ) x => v.bounds.admits x = true) [v] xs

/-- The bounds of the lifted variables as constraints. -/
noncomputable def rows (axis : LiftedAxis ℝ) (v : UncertaintyVariable ℝ) :
    List (RawConstraint (ConicExpr ℝ UncertaintyRef)) :=
  match axis.series? with
  | some s => (axis.vars.zip (List.range s.numPieces)).flatMap fun x =>
    [⟨.geq, .ofAffine ⟨-0, .var x.1⟩⟩, ⟨.leq, .ofAffine ⟨-s.pieceWidth x.2, .var x.1⟩⟩]
  | none => axis.vars.flatMap fun x => v.bounds.rows x

/-- The axis stands for an uncertainty: a series covers the range between its bounds, and there is
one lifted variable for each piece. -/
structure Represents (axis : LiftedAxis ℝ) (v : UncertaintyVariable ℝ) : Prop where
  pieces : ∀ s, axis.series? = some s →
    s.Ordered ∧ v.bounds.lower? = some s.lower ∧ v.bounds.upper? = some s.upper
  length : axis.vars.length = axis.series?.elim 1 (·.numPieces)

namespace Represents

variable {axis : LiftedAxis ℝ} {v : UncertaintyVariable ℝ} {x : ℝ} {xs : List ℝ}

/-- The bounds admit the values of the lifted variables when they hold as constraints. -/
theorem admits_iff_rows (h : axis.Represents v) (U : UncertaintyRef → ℝ) :
    axis.Admits v (axis.vars.map U) ↔ ∀ c ∈ axis.rows v, c.Holds U := by
  have hlength := h.length
  rw [Admits, rows]
  cases hs : axis.series? with
  | none =>
    rw [hs, Option.elim_none, List.length_eq_one_iff] at hlength
    obtain ⟨x, hx⟩ := hlength
    simp [hx, ← Bounds.admits_iff_rows]
  | some s =>
    rw [hs, Option.elim_some] at hlength
    have hpieces : ∀ (xs : List UncertaintyRef) (is : List ℕ), xs.length = is.length →
        (List.Forall₂ (fun i x => 0 ≤ x ∧ x ≤ s.pieceWidth i) is (xs.map U) ↔
          ∀ c ∈ (xs.zip is).flatMap fun x =>
            ([⟨.geq, .ofAffine ⟨-0, .var x.1⟩⟩, ⟨.leq, .ofAffine ⟨-s.pieceWidth x.2, .var x.1⟩⟩] :
              List (RawConstraint (ConicExpr ℝ UncertaintyRef))), c.Holds U) := by
      intro xs is hsize
      induction xs generalizing is with
      | nil =>
        obtain rfl : is = [] := List.length_eq_zero_iff.1 hsize.symm
        simp
      | cons x xs ih =>
        cases is with
        | nil => cases hsize
        | cons i is =>
          rw [List.zip_cons_cons, List.flatMap_cons, List.forall_mem_append, List.map_cons,
            List.forall₂_cons, ih is (Nat.succ.inj hsize)]
          simp [RawConstraint.Holds, ConstraintSense.Holds, ConicExpr.eval, ConicExpr.ofAffine,
            AffineExpr.eval]
    exact hpieces axis.vars (List.range s.numPieces) (by rw [hlength, List.length_range])

/-- Values within the bounds lie in the range of a series. -/
theorem mem_range (h : axis.Represents v) (hx : v.bounds.admits x = true)
    {s : BreakpointSeries ℝ} (hs : axis.series? = some s) : s.lower ≤ x ∧ x ≤ s.upper := by
  obtain ⟨-, hl, hu⟩ := h.pieces s hs
  rw [Bounds.admits_iff] at hx
  exact ⟨hx.1 _ hl, hx.2 _ hu⟩

/-- A value is spread over all lifted variables. -/
theorem length_spread (h : axis.Represents v) (x : ℝ) :
    (axis.spread x).length = axis.vars.length := by
  rw [h.length, spread]
  cases axis.series? with
  | none => rfl
  | some s => exact s.length_lifted x

/-- Spread values are within the bounds of the lifted variables. -/
theorem admits_spread (h : axis.Represents v) (hx : v.bounds.admits x = true) :
    axis.Admits v (axis.spread x) := by
  rw [Admits, spread]
  cases hs : axis.series? with
  | none => exact .cons hx .nil
  | some s =>
    obtain ⟨hordered, -⟩ := h.pieces s hs
    simp only [BreakpointSeries.lifted]
    rw [List.forall₂_map_right_iff, List.forall₂_same]
    intro i _
    exact ⟨s.portion_nonneg x i, BreakpointSeries.portion_le_width hordered x i⟩

/-- Retracting undoes spreading. -/
theorem origin_add_sum_spread (h : axis.Represents v) (hx : v.bounds.admits x = true) :
    axis.origin + (axis.spread x).sum = x := by
  rw [origin, spread]
  cases hs : axis.series? with
  | none => simp
  | some s =>
    obtain ⟨hordered, -⟩ := h.pieces s hs
    obtain ⟨hl, hu⟩ := h.mem_range hx hs
    simp only [Option.elim_some]
    rw [BreakpointSeries.sum_lifted hordered hl hu]
    ring

private theorem sum_mem_range {is : List ℕ} {w : ℕ → ℝ}
    (h : List.Forall₂ (fun i x => 0 ≤ x ∧ x ≤ w i) is xs) :
    0 ≤ xs.sum ∧ xs.sum ≤ (is.map w).sum := by
  induction h with
  | nil => simp
  | cons hx _ ih =>
    rw [List.map_cons, List.sum_cons, List.sum_cons]
    exact ⟨add_nonneg hx.1 ih.1, add_le_add hx.2 ih.2⟩

/-- Values within the bounds of the lifted variables are retracted to one within the bounds. -/
theorem admits_of_admits (h : axis.Represents v) (hxs : axis.Admits v xs) :
    v.bounds.admits (axis.origin + xs.sum) = true := by
  rw [Admits] at hxs
  rw [origin]
  cases hs : axis.series? with
  | none =>
    simp only [hs] at hxs
    obtain ⟨x, _, hx, hnil, rfl⟩ := List.forall₂_cons_left_iff.1 hxs
    obtain rfl := List.forall₂_nil_left_iff.1 hnil
    simpa using hx
  | some s =>
    simp only [hs] at hxs
    obtain ⟨-, hl, hu⟩ := h.pieces s hs
    obtain ⟨hnonneg, hle⟩ := sum_mem_range hxs
    have hwidths : ((List.range s.numPieces).map s.pieceWidth).sum = s.upper - s.lower := by
      rw [← s.pieceStart_numPieces]
      exact s.sum_pieceWidth s.numPieces
    rw [hwidths] at hle
    simp only [Option.elim_some, Bounds.admits_iff, hl, hu, Option.some.injEq]
    constructor
    · rintro _ rfl
      linarith
    · rintro _ rfl
      linarith

end Represents

/-- The lifted variables of a series have the parts of a value in its range. -/
structure IsFilled (axis : LiftedAxis ℝ) (s : BreakpointSeries ℝ) (x : ℝ)
    (U : UncertaintyRef → ℝ) : Prop where
  ordered : s.Ordered
  lower : s.lower ≤ x
  upper : x ≤ s.upper
  length : axis.vars.length = s.numPieces
  /-- The lifted variables have the parts of the value. -/
  portion : ∀ j u, axis.vars[j]? = some u → U u = s.portion x j

/-- The lifted variables of a series to which a value within the bounds is spread. -/
theorem Represents.isFilled {axis : LiftedAxis ℝ} {v : UncertaintyVariable ℝ} {x : ℝ}
    {s : BreakpointSeries ℝ} {U : UncertaintyRef → ℝ} (h : axis.Represents v)
    (hx : v.bounds.admits x = true) (hs : axis.series? = some s)
    (hU : axis.vars.map U = axis.spread x) : axis.IsFilled s x U where
  ordered := (h.pieces s hs).1
  lower := (h.mem_range hx hs).1
  upper := (h.mem_range hx hs).2
  length := by rw [h.length, hs, Option.elim_some]
  portion j u hu := by
    have hlt : j < s.numPieces := by
      have hlength := h.length
      rw [hs, Option.elim_some] at hlength
      rw [← hlength]
      exact (List.getElem?_eq_some_iff.1 hu).1
    have hget : (axis.vars.map U)[j]? = some (U u) := by rw [List.getElem?_map, hu, Option.map_some]
    rw [hU, spread, hs, s.getElem?_lifted x hlt, Option.some.injEq] at hget
    exact hget.symm

end LiftedAxis

namespace Lifting

/-- The realization of the base uncertainties that belongs to one of the lifted variables. -/
noncomputable def retract (l : Lifting ℝ) (R : List ℝ) : List ℝ :=
  l.axes.map (·.retract (bySlot (entryAt R)))

/-- The axes stand for the uncertainties of a set, in order, and the direction of a series is the
uncertainty at its position. -/
structure IsOver (l : Lifting ℝ) (set : UncertaintySet ℝ) : Prop where
  represents : List.Forall₂ (fun v axis => LiftedAxis.Represents axis v) set.vars.items l.axes
  aligned : ∀ i axis s, l.axes[i]? = some axis → axis.series? = some s →
    ∃ u : UncertaintyRef, s.direction.terms = [⟨1, u⟩] ∧ u.slot = i

/-- The lifted variables have the values that the base values are spread to. -/
def IsLift (l : Lifting ℝ) (r : List ℝ) (U : UncertaintyRef → ℝ) : Prop :=
  List.Forall₂ (fun axis x => axis.vars.map U = axis.spread x) l.axes r

namespace IsOver

variable {l : Lifting ℝ} {set : UncertaintySet ℝ} {r : List ℝ} {U : UncertaintyRef → ℝ}

/-- There is one axis for each uncertainty. -/
theorem length_axes (h : l.IsOver set) : l.axes.length = set.numVariables :=
  h.represents.length_eq.symm

/-- Lifting succeeds for realizations of the right length, and spreads every value. -/
theorem lift_eq_ok (h : l.IsOver set) (hr : r.length = set.numVariables) :
    l.lift r = .ok ((l.axes.zip r).flatMap fun p => p.1.spread p.2) := by
  have hlength : r.length = l.axes.length := hr.trans h.length_axes.symm
  simp only [lift, hlength, ne_eq, not_true_eq_false, ite_false, bind_eq_ok_iff, pure_eq_ok_iff]
  refine ⟨(l.axes.zip r).map fun p => p.1.spread p.2, mapM_eq_ok_iff.2 ?_,
    (List.flatMap_def ..).symm⟩
  rw [List.forall₂_map_right_iff, List.forall₂_same]
  rintro ⟨axis, x⟩ hmem
  obtain ⟨i, hi, hget⟩ := List.getElem_of_mem hmem
  rw [List.getElem_zip, Prod.mk.injEq] at hget
  rw [List.length_zip, lt_min_iff] at hi
  have haxis : l.axes[i]? = some axis := by rw [List.getElem?_eq_getElem hi.1, hget.1]
  simp only [LiftedAxis.spread]
  cases hs : axis.series? with
  | none => rfl
  | some s =>
    obtain ⟨u, hterms, hslot⟩ := h.aligned i axis s haxis hs
    have hvalue : s.direction.value (.ofList r) = .ok x := by
      rw [LinearExpr.value_eq_ok_iff (Assignment.ofList_within r)]
      constructor
      · intro v hv
        obtain rfl : v = u := by simpa [LinearExpr.vars, hterms] using hv
        rw [Assignment.ofList_eq_bySlot_iff, hslot]
        exact hi.2
      · simp [LinearExpr.eval, hterms, bySlot, entryAt, hslot, List.getD_eq_getElem?_getD,
          List.getElem?_eq_getElem hi.2, hget.2]
    simp only [BreakpointSeries.liftedRealization, hvalue]
    rfl

private theorem isLift_of_flatMap {axes : List (LiftedAxis ℝ)}
    (hlengths : List.Forall₂ (fun axis x => (axis.spread x).length = axis.vars.length) axes r)
    (hmap : (axes.flatMap (·.vars)).map U = (axes.zip r).flatMap fun p => p.1.spread p.2) :
    List.Forall₂ (fun axis x => axis.vars.map U = axis.spread x) axes r := by
  induction hlengths with
  | nil => exact .nil
  | cons hlength _ ih =>
    rw [List.flatMap_cons, List.map_append, List.zip_cons_cons, List.flatMap_cons] at hmap
    have hsplit := List.append_inj hmap (by rw [List.length_map, hlength])
    exact .cons hsplit.1 (ih hsplit.2)

/-- When the lifted variables are those of a store, in order, lifting yields values for all of
them, and gives every axis the values that its base value is spread to. -/
theorem isLift_flatMap {κ : Type} (h : l.IsOver set) (hr : r.length = set.numVariables)
    {vars : Store .uncertainty κ} (hvars : l.axes.flatMap (·.vars) = vars.handles) {R : List ℝ}
    (hR : R = (l.axes.zip r).flatMap fun p => p.1.spread p.2) :
    R.length = vars.size ∧ l.IsLift r (bySlot (entryAt R)) := by
  have hlengths : List.Forall₂
      (fun axis x => (LiftedAxis.spread axis x).length = axis.vars.length) l.axes r := by
    rw [List.forall₂_iff_get]
    refine ⟨h.length_axes.trans hr.symm, fun i hi hi' => ?_⟩
    have hi₀ : i < set.vars.items.length := h.represents.length_eq ▸ hi
    exact (h.represents.get hi₀ hi).length_spread _
  have hlength : R.length = vars.size := by
    have hcount : ∀ {axes : List (LiftedAxis ℝ)} {r : List ℝ}, List.Forall₂
        (fun axis x => (LiftedAxis.spread axis x).length = axis.vars.length) axes r →
          ((axes.zip r).flatMap fun p => p.1.spread p.2).length =
            (axes.flatMap (·.vars)).length := by
      intro axes r hlengths
      induction hlengths with
      | nil => rfl
      | cons hlength _ ih =>
        rw [List.zip_cons_cons, List.flatMap_cons, List.flatMap_cons, List.length_append,
          List.length_append, ih, hlength]
    rw [hR, hcount hlengths, hvars, Store.handles, List.length_map, List.length_range]
  refine ⟨hlength, isLift_of_flatMap hlengths ?_⟩
  rw [hvars, Store.map_bySlot_handles, map_entryAt_range hlength, hR]

/-- Lifting fills the lifted axes. -/
theorem isFilled (h : l.IsOver set)
    (hr : List.Forall₂ (fun v x => v.bounds.admits x = true) set.vars.items r)
    (hU : l.IsLift r U) {i : ℕ} {axis : LiftedAxis ℝ} {s : BreakpointSeries ℝ}
    (hi : l.axes[i]? = some axis) (hs : axis.series? = some s) :
    ∃ x, r[i]? = some x ∧ axis.IsFilled s x U := by
  obtain ⟨hlt, rfl⟩ := List.getElem?_eq_some_iff.1 hi
  have hlt₀ : i < set.vars.items.length := h.represents.length_eq ▸ hlt
  have hlt' : i < r.length := hU.length_eq ▸ hlt
  refine ⟨r[i], List.getElem?_eq_getElem hlt', ?_⟩
  exact (h.represents.get hlt₀ hlt).isFilled (hr.get hlt₀ hlt') hs (hU.get hlt hlt')

/-- Retracting undoes lifting within the bounds. -/
theorem retract_of_isLift (h : l.IsOver set)
    (hr : List.Forall₂ (fun v x => v.bounds.admits x = true) set.vars.items r)
    (hU : l.IsLift r U) : l.axes.map (·.retract U) = r := by
  refine List.ext_getElem (by rw [List.length_map, hU.length_eq]) fun i hi hi' => ?_
  rw [List.length_map] at hi
  have hi₀ : i < set.vars.items.length := h.represents.length_eq ▸ hi
  have hmap : l.axes[i].vars.map U = l.axes[i].spread r[i] := hU.get hi hi'
  rw [List.getElem_map, LiftedAxis.retract, hmap]
  exact (h.represents.get hi₀ hi).origin_add_sum_spread (hr.get hi₀ hi')

end IsOver

end Lifting

end AdjustableRobust
