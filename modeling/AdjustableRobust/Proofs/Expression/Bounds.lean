import AdjustableRobust.Proofs.Expression.Value
import AdjustableRobust.Proofs.Scalar.Guarded

/-!
# Bounds of expressions

The smallest and the largest value of an expression are computed from the ranges of its variables.
For every kind of expression, and for both sides at once: a bound bounds the value, it bounds
nothing when it is infinite, so guards against sums and products without a value are never met, and
a finite bound is the value at some assignment when the expression is affine and no variable
repeats.
-/

namespace AdjustableRobust

variable {V : Type}

/-! ## Scopes -/

namespace Scope

/-- The ranges have ends that can be bounds. -/
def Ranged (s : Scope ℝ V) : Prop := ∀ v i, s.bounds v = .ok i → i.Ranged

/-- The values that the assignment gives lie in the ranges. -/
def Admits (s : Scope ℝ V) (a : Assignment ℝ V) : Prop :=
  ∀ v i x, s.bounds v = .ok i → a v = .ok x → i.Contains x

/-- Ranges that contain the values of an assignment have ends that can be bounds. -/
theorem Admits.ranged {s : Scope ℝ V} {ω : V → ℝ} (h : s.Admits (.total ω)) : s.Ranged :=
  fun v i hi => (h v i _ hi rfl).ranged

/-- The ranges, which take no guards. -/
def ranges (s : Scope ℝ V) : V → Guarded (Interval ℝ) := fun v => OptionT.lift (s.bounds v)

end Scope

namespace Product

variable {u : Scope ℝ UncertaintyRef} {d : Scope ℝ DecisionRef}

/-- The ranges of products, with guards. -/
noncomputable def ranges (u : UncertaintyRef → Guarded (Interval ℝ))
    (d : DecisionRef → Guarded (Interval ℝ)) : Product → Guarded (Interval ℝ) := fun p => do
  let i ← u p.uncertainty
  let j ← d p.decision
  i.guardedProduct j

/-- Products have ranges with ends that can be bounds. -/
theorem scope_ranged (hu : u.Ranged) (hd : d.Ranged) : (scope u d).Ranged := by
  intro p i hi
  simp only [scope, bind_eq_ok_iff, pure_eq_ok_iff] at hi
  obtain ⟨j, hj, k, hk, rfl⟩ := hi
  exact (hu _ j hj).product (hd _ k hk)

/-- The products of admitted values are admitted. -/
theorem scope_admits {a : Assignment ℝ UncertaintyRef} {b : Assignment ℝ DecisionRef}
    (hu : u.Admits a) (hd : d.Admits b) : (scope u d).Admits (assignment a b) := by
  intro p i x hi hx
  simp only [scope, bind_eq_ok_iff, pure_eq_ok_iff] at hi
  simp only [assignment, bind_eq_ok_iff, pure_eq_ok_iff] at hx
  obtain ⟨j, hj, k, hk, rfl⟩ := hi
  obtain ⟨y, hy, z, hz, rfl⟩ := hx
  exact (hu _ j y hj hy).product (hd _ k z hk hz)

/-- Products of ranges come past all guards. -/
theorem ranges_eq_lift : ranges u.ranges d.ranges = (scope u d).ranges := by
  funext p
  refine Guarded.bind_eq_lift rfl fun i _ => Guarded.bind_eq_lift rfl fun j _ => ?_
  exact i.guardedProduct_eq j

end Product

/-! ## Linear expressions -/

namespace LinearExpr

variable {e : LinearExpr ℝ V} {s : Scope ℝ V} {a : Assignment ℝ V} {side : Side}
variable {b : Extended ℝ} {x y : ℝ}

/-- The bound at a side. -/
noncomputable def bound (e : LinearExpr ℝ V) (s : Scope ℝ V) :
    Side → Except (ModelError ℝ) (Extended ℝ)
  | .lower => e.lower s
  | .upper => e.upper s

/-- The bound at a side, with guards. -/
noncomputable def guarded (e : LinearExpr ℝ V) (ranges : V → Guarded (Interval ℝ)) (side : Side) :
    Guarded (Extended ℝ) :=
  e.terms.foldlM (fun total t => do
    let i ← ranges t.var
    let j ← i.guardedScale t.scale
    total.plus (j.endAt side)) 0

private theorem bound_eq_foldlM (e : LinearExpr ℝ V) (s : Scope ℝ V) (side : Side) :
    e.bound s side =
      e.terms.foldlM (fun total t => return total + (← t.bounds s).endAt side) 0 := by
  cases side <;> rfl

private theorem termBounds_eq_ok_iff {t : Term ℝ V} {j : Interval ℝ} :
    t.bounds s = .ok j ↔ ∃ i, s.bounds t.var = .ok i ∧ i.scale t.scale = j := by
  simp only [Term.bounds, bind_eq_ok_iff, pure_eq_ok_iff]

private theorem foldlM_bounds {ts : List (Term ℝ V)} {d : Extended ℝ} (h : s.Admits a)
    (hd : side.Bounds d y)
    (hb : ts.foldlM (fun total t => return total + (← t.bounds s).endAt side) d =
      (.ok b : Except (ModelError ℝ) _))
    (hx : ts.foldlM (fun total t => return total + (← t.value a)) y =
      (.ok x : Except (ModelError ℝ) _)) : side.Bounds b x := by
  induction ts generalizing d y with
  | nil =>
    rw [List.foldlM_nil, pure_eq_ok_iff] at hb hx
    exact hb ▸ hx ▸ hd
  | cons t ts ih =>
    simp only [List.foldlM_cons, bind_eq_ok_iff, pure_eq_ok_iff, termBounds_eq_ok_iff,
      Term.value] at hb hx
    obtain ⟨_, ⟨_, ⟨i, hi, rfl⟩, rfl⟩, hb⟩ := hb
    obtain ⟨_, ⟨_, ⟨z, hz, rfl⟩, rfl⟩, hx⟩ := hx
    have hterm := Interval.contains_iff.1 ((h _ i z hi hz).scale t.scale) side
    exact ih (hd.add hterm) hb hx

/-- A bound bounds the value. -/
theorem bounds_value (h : s.Admits a) (hb : e.bound s side = .ok b) (hx : e.value a = .ok x) :
    side.Bounds b x := by
  rw [bound_eq_foldlM] at hb
  exact foldlM_bounds h (side.bounds_self 0) hb hx

private theorem step_admits {d d' : Extended ℝ} {t : Term ℝ V} (h : s.Ranged) (hd : side.Admits d)
    (hrun : (do return d + (← t.bounds s).endAt side) = (.ok d' : Except (ModelError ℝ) _)) :
    side.Admits d' := by
  simp only [bind_eq_ok_iff, pure_eq_ok_iff, termBounds_eq_ok_iff] at hrun
  obtain ⟨_, ⟨i, hi, rfl⟩, rfl⟩ := hrun
  exact hd.add (Interval.ranged_iff.1 ((h _ i hi).scale t.scale) side)

/-- An infinite bound bounds nothing. -/
theorem bound_admits (h : s.Ranged) (hb : e.bound s side = .ok b) : side.Admits b := by
  rw [bound_eq_foldlM] at hb
  exact foldlM_invariant (fun _ _ _ _ hd hrun => step_admits h hd hrun) (side.admits_finite 0) hb

/-- The bounds come past all guards. -/
theorem guarded_eq_lift (e : LinearExpr ℝ V) (h : s.Ranged) (side : Side) :
    e.guarded s.ranges side = OptionT.lift (e.bound s side) := by
  rw [bound_eq_foldlM]
  refine Guarded.foldlM_eq_lift (I := side.Admits) (fun _ _ _ _ hd hrun => step_admits h hd hrun)
    (fun d hd t _ => ?_) (side.admits_finite 0)
  simp only [Term.bounds, bind_assoc, pure_bind]
  refine Guarded.bind_eq_lift rfl fun i hi => ?_
  rw [Interval.guardedScale_eq, pure_bind]
  exact Extended.plus_of_admits hd (Interval.ranged_iff.1 ((h _ i hi).scale t.scale) side)

private theorem foldlM_attains {ts : List (Term ℝ V)} {d : Extended ℝ} {ω₀ : V → ℝ}
    (h : s.Admits (.total ω₀)) (hts : (ts.map (·.var)).Nodup) (hd : side.Admits d)
    (hb : ts.foldlM (fun total t => return total + (← t.bounds s).endAt side) d =
      (.ok (.finite y) : Except (ModelError ℝ) _)) :
    ∃ z ω, d = .finite z ∧ s.Admits (.total ω) ∧
      z + (ts.map fun t => t.scale * ω t.var).sum = y := by
  classical
  induction ts generalizing d with
  | nil =>
    rw [List.foldlM_nil, pure_eq_ok_iff] at hb
    exact ⟨y, ω₀, hb, h, by simp⟩
  | cons t ts ih =>
    simp only [List.foldlM_cons, bind_eq_ok_iff, pure_eq_ok_iff, termBounds_eq_ok_iff] at hb
    obtain ⟨_, ⟨_, ⟨i, hi, rfl⟩, rfl⟩, hb⟩ := hb
    rw [List.map_cons, List.nodup_cons] at hts
    have hcontains : i.Contains (ω₀ t.var) := h _ i _ hi rfl
    have hend := Interval.contains_iff.1 (hcontains.scale t.scale) side
    obtain ⟨z', ω, hsum, hω, hy⟩ := ih hts.2 (hd.add hend.admits) hb
    obtain ⟨z, w, rfl, hw, rfl⟩ := Side.add_eq_finite hd hend.admits hsum
    obtain ⟨x, hx, rfl⟩ := hcontains.attains hw
    -- the variable does not occur again, so its value is free to choose
    refine ⟨z, Function.update ω t.var x, rfl, fun v j x' hj hx' => ?_, ?_⟩
    · obtain rfl := Except.ok.inj hx'
      by_cases hv : v = t.var
      · subst hv
        rw [Function.update_self]
        exact Except.ok.inj (hi.symm.trans hj) ▸ hx
      · rw [Function.update_of_ne hv]
        exact hω v j _ hj rfl
    · have hrest : (ts.map fun r => r.scale * Function.update ω t.var x r.var) =
          ts.map fun r => r.scale * ω r.var := by
        refine List.map_congr_left fun r hr => ?_
        have hne : r.var ≠ t.var := fun heq => hts.1 (heq ▸ List.mem_map_of_mem hr)
        rw [Function.update_of_ne hne]
      rw [List.map_cons, List.sum_cons, Function.update_self, hrest, ← hy, add_assoc]

/-- A bound that is a real is the value at some assignment, when no variable repeats. -/
theorem bound_attained {ω₀ : V → ℝ} (h : s.Admits (.total ω₀)) (he : e.vars.Nodup)
    (hb : e.bound s side = .ok (.finite y)) :
    ∃ ω, s.Admits (.total ω) ∧ e.value (.total ω) = .ok y := by
  rw [bound_eq_foldlM] at hb
  obtain ⟨z, ω, hz, hω, hy⟩ := foldlM_attains h he (side.admits_finite 0) hb
  obtain rfl : 0 = z := Extended.finite.inj hz
  refine ⟨ω, hω, (value_eq_ok_iff (Assignment.total_within ω)).2 ⟨fun _ _ => rfl, ?_⟩⟩
  rw [eval, ← hy, zero_add]

end LinearExpr

/-! ## Affine expressions -/

namespace AffineExpr

variable {e : AffineExpr ℝ V} {s : Scope ℝ V} {a : Assignment ℝ V} {side : Side}
variable {b : Extended ℝ} {x y : ℝ}

/-- The bound at a side. -/
noncomputable def bound (e : AffineExpr ℝ V) (s : Scope ℝ V) :
    Side → Except (ModelError ℝ) (Extended ℝ)
  | .lower => e.lower s
  | .upper => e.upper s

/-- The bound at a side, with guards. -/
noncomputable def guarded (e : AffineExpr ℝ V) (ranges : V → Guarded (Interval ℝ)) (side : Side) :
    Guarded (Extended ℝ) := do
  (Extended.ofScalar e.constant).plus (← e.linear.guarded ranges side)

private theorem bound_eq (e : AffineExpr ℝ V) (s : Scope ℝ V) (side : Side) :
    e.bound s side = (do return Extended.ofScalar e.constant + (← e.linear.bound s side)) := by
  cases side <;> rfl

private theorem bound_eq_ok_iff : e.bound s side = .ok b ↔
    ∃ c, e.linear.bound s side = .ok c ∧ .finite e.constant + c = b := by
  simp only [bound_eq, bind_eq_ok_iff, pure_eq_ok_iff, Extended.ofScalar_real]

/-- A bound bounds the value. -/
theorem bounds_value (h : s.Admits a) (hb : e.bound s side = .ok b) (hx : e.value a = .ok x) :
    side.Bounds b x := by
  obtain ⟨c, hc, rfl⟩ := bound_eq_ok_iff.1 hb
  simp only [value, bind_eq_ok_iff, pure_eq_ok_iff] at hx
  obtain ⟨y, hy, rfl⟩ := hx
  exact (side.bounds_self e.constant).add (LinearExpr.bounds_value h hc hy)

/-- An infinite bound bounds nothing. -/
theorem bound_admits (h : s.Ranged) (hb : e.bound s side = .ok b) : side.Admits b := by
  obtain ⟨c, hc, rfl⟩ := bound_eq_ok_iff.1 hb
  exact (side.admits_finite e.constant).add (LinearExpr.bound_admits h hc)

/-- The bounds come past all guards. -/
theorem guarded_eq_lift (e : AffineExpr ℝ V) (h : s.Ranged) (side : Side) :
    e.guarded s.ranges side = OptionT.lift (e.bound s side) := by
  rw [bound_eq]
  refine Guarded.bind_eq_lift (e.linear.guarded_eq_lift h side) fun c hc => ?_
  rw [Extended.ofScalar_real]
  exact Extended.plus_of_admits (side.admits_finite e.constant) (LinearExpr.bound_admits h hc)

/-- A bound that is a real is the value at some assignment, when no variable repeats. -/
theorem bound_attained {ω₀ : V → ℝ} (h : s.Admits (.total ω₀)) (he : e.vars.Nodup)
    (hb : e.bound s side = .ok (.finite y)) :
    ∃ ω, s.Admits (.total ω) ∧ e.value (.total ω) = .ok y := by
  obtain ⟨c, hc, hsum⟩ := bound_eq_ok_iff.1 hb
  obtain ⟨w, z, hw, rfl, rfl⟩ := Side.add_eq_finite (side.admits_finite e.constant)
    (LinearExpr.bound_admits h.ranged hc) hsum
  obtain ⟨ω, hω, hvalue⟩ := LinearExpr.bound_attained h he hc
  refine ⟨ω, hω, ?_⟩
  rw [value, hvalue, Extended.finite.inj hw]
  rfl

end AffineExpr

/-! ## Norms of affine vectors -/

namespace NormedVector

variable {n : NormedVector ℝ V} {s : Scope ℝ V} {a : Assignment ℝ V} {side : Side}
variable {b : Extended ℝ} {x : ℝ}

/-- The bound at a side. -/
noncomputable def bound (n : NormedVector ℝ V) (s : Scope ℝ V) :
    Side → Except (ModelError ℝ) (Extended ℝ)
  | .lower => n.lower s
  | .upper => n.upper s

/-- The bound at a side, with guards. -/
noncomputable def guarded (n : NormedVector ℝ V) (ranges : V → Guarded (Interval ℝ)) :
    Side → Guarded (Extended ℝ)
  | .lower => pure 0
  | .upper => do
    let magnitudes ← n.rows.mapM fun row => do
      let l ← row.guarded ranges .lower
      let u ← row.guarded ranges .upper
      return Scalar.max (Scalar.abs l) (Scalar.abs u)
    n.norm.guardedApply magnitudes

/-- The largest magnitude of a row. -/
private noncomputable def rowMagnitude (s : Scope ℝ V) (row : AffineExpr ℝ V) :
    Except (ModelError ℝ) (Extended ℝ) := do
  return (⟨← row.bound s .lower, ← row.bound s .upper⟩ : Interval ℝ).magnitude

private theorem upper_eq_ok_iff : n.upper s = .ok b ↔
    ∃ ms, n.rows.mapM (rowMagnitude s) = .ok ms ∧ n.norm.apply ms = b := by
  simp only [upper, bind_eq_ok_iff, pure_eq_ok_iff]
  rfl

private theorem rowMagnitude_eq_ok_iff {row : AffineExpr ℝ V} {m : Extended ℝ} :
    rowMagnitude s row = .ok m ↔ ∃ i : Interval ℝ,
      (∀ side, row.bound s side = .ok (i.endAt side)) ∧ i.magnitude = m := by
  simp only [rowMagnitude, bind_eq_ok_iff, pure_eq_ok_iff]
  constructor
  · rintro ⟨l, hl, u, hu, rfl⟩
    refine ⟨⟨l, u⟩, fun side => ?_, rfl⟩
    cases side with
    | lower => exact hl
    | upper => exact hu
  · rintro ⟨i, hi, rfl⟩
    exact ⟨i.lower, hi .lower, i.upper, hi .upper, rfl⟩

private theorem magnitudes_bound {rows : List (AffineExpr ℝ V)} {ms : List (Extended ℝ)}
    {xs : List ℝ} (h : s.Admits a) (hms : rows.mapM (rowMagnitude s) = .ok ms)
    (hxs : rows.mapM (·.value a) = .ok xs) :
    List.Forall₂ (fun x m => .finite |x| ≤ m) xs ms := by
  rw [mapM_eq_ok_iff] at hms hxs
  induction hms generalizing xs with
  | nil =>
    cases hxs
    exact .nil
  | cons hm _ ih =>
    obtain _ | ⟨hx, hxs⟩ := hxs
    obtain ⟨i, hi, rfl⟩ := rowMagnitude_eq_ok_iff.1 hm
    have hcontains := Interval.contains_iff.2 fun side => AffineExpr.bounds_value h (hi side) hx
    exact .cons hcontains.abs_le_magnitude (ih hxs)

private theorem magnitudes_nonneg {rows : List (AffineExpr ℝ V)} {ms : List (Extended ℝ)}
    (h : s.Ranged) (hms : rows.mapM (rowMagnitude s) = .ok ms) : ∀ m ∈ ms, .finite 0 ≤ m := by
  rw [mapM_eq_ok_iff] at hms
  induction hms with
  | nil => simp
  | cons hm _ ih =>
    obtain ⟨i, hi, rfl⟩ := rowMagnitude_eq_ok_iff.1 hm
    have hranged := Interval.ranged_iff.2 fun side => AffineExpr.bound_admits h (hi side)
    exact List.forall_mem_cons.2 ⟨hranged.magnitude_nonneg, ih⟩

/-- A bound bounds the value. -/
theorem bounds_value (h : s.Admits a) (hb : n.bound s side = .ok b) (hx : n.value a = .ok x) :
    side.Bounds b x := by
  simp only [value, bind_eq_ok_iff, pure_eq_ok_iff] at hx
  obtain ⟨xs, hxs, rfl⟩ := hx
  cases side with
  | lower =>
    obtain rfl : 0 = b := Except.ok.inj hb
    exact Extended.finite_le_finite.2 (n.norm.apply_nonneg xs)
  | upper =>
    obtain ⟨ms, hms, rfl⟩ := upper_eq_ok_iff.1 hb
    exact n.norm.apply_le_apply (magnitudes_bound h hms hxs)

/-- An infinite bound bounds nothing. -/
theorem bound_admits (h : s.Ranged) (hb : n.bound s side = .ok b) : side.Admits b := by
  cases side with
  | lower =>
    obtain rfl : 0 = b := Except.ok.inj hb
    exact Side.lower.admits_finite 0
  | upper =>
    obtain ⟨ms, hms, rfl⟩ := upper_eq_ok_iff.1 hb
    have hzero : List.Forall₂ (fun x m => .finite |x| ≤ m) (ms.map fun _ => (0 : ℝ)) ms := by
      rw [List.forall₂_map_left_iff, List.forall₂_same]
      simpa only [abs_zero] using magnitudes_nonneg h hms
    have hbounds : Side.upper.Bounds (n.norm.apply ms) _ := n.norm.apply_le_apply hzero
    exact hbounds.admits

/-- The bounds come past all guards. -/
theorem guarded_eq_lift (n : NormedVector ℝ V) (h : s.Ranged) (side : Side) :
    n.guarded s.ranges side = OptionT.lift (n.bound s side) := by
  cases side with
  | lower => rfl
  | upper =>
    have hrows : ∀ row ∈ n.rows, (do
        let l ← row.guarded s.ranges .lower
        let u ← row.guarded s.ranges .upper
        return Scalar.max (Scalar.abs l) (Scalar.abs u)) = OptionT.lift (rowMagnitude s row) :=
      fun row _ => Guarded.bind_eq_lift (row.guarded_eq_lift h .lower) fun l _ =>
        Guarded.bind_eq_lift (row.guarded_eq_lift h .upper) fun u _ => rfl
    refine Guarded.bind_eq_lift (Guarded.mapM_eq_lift hrows) fun ms hms => ?_
    exact n.norm.guardedApply_eq (magnitudes_nonneg h hms)

end NormedVector

/-! ## Conic expressions -/

namespace ConicExpr

variable {e : ConicExpr ℝ V} {s : Scope ℝ V} {a : Assignment ℝ V} {side : Side}
variable {b : Extended ℝ} {x y : ℝ}

/-- The bound at a side. -/
noncomputable def bound (e : ConicExpr ℝ V) (s : Scope ℝ V) :
    Side → Except (ModelError ℝ) (Extended ℝ)
  | .lower => e.lower s
  | .upper => e.upper s

/-- The bound at a side, with guards. -/
noncomputable def guarded (e : ConicExpr ℝ V) (ranges : V → Guarded (Interval ℝ)) (side : Side) :
    Guarded (Extended ℝ) := do
  let normed ← match e.normed? with
    | some n => n.guarded ranges side
    | none => pure 0
  normed.plus (← e.affine.guarded ranges side)

/-- The bound of the norm at a side; without a norm it is zero. -/
private noncomputable def normBound (normed? : Option (NormedVector ℝ V)) (s : Scope ℝ V)
    (side : Side) : Except (ModelError ℝ) (Extended ℝ) :=
  match normed? with
  | some n => n.bound s side
  | none => pure 0

private theorem bound_eq (e : ConicExpr ℝ V) (s : Scope ℝ V) (side : Side) :
    e.bound s side =
      (do return (← normBound e.normed? s side) + (← e.affine.bound s side)) := by
  obtain ⟨normed?, affine⟩ := e
  cases normed? <;> cases side <;> rfl

private theorem bound_eq_ok_iff : e.bound s side = .ok b ↔
    ∃ c, normBound e.normed? s side = .ok c ∧ ∃ d, e.affine.bound s side = .ok d ∧ c + d = b := by
  simp only [bound_eq, bind_eq_ok_iff, pure_eq_ok_iff]

private theorem normBound_admits {normed? : Option (NormedVector ℝ V)} (h : s.Ranged)
    (hb : normBound normed? s side = .ok b) : side.Admits b := by
  cases normed? with
  | none =>
    obtain rfl : 0 = b := Except.ok.inj hb
    exact side.admits_finite 0
  | some n => exact NormedVector.bound_admits h hb

/-- A bound bounds the value. -/
theorem bounds_value (h : s.Admits a) (hb : e.bound s side = .ok b) (hx : e.value a = .ok x) :
    side.Bounds b x := by
  obtain ⟨normed?, affine⟩ := e
  obtain ⟨c, hc, d, hd, rfl⟩ := bound_eq_ok_iff.1 hb
  cases normed? with
  | none =>
    simp only [value, bind_eq_ok_iff, pure_eq_ok_iff, exists_eq_left'] at hx
    obtain ⟨z, hz, rfl⟩ := hx
    obtain rfl : 0 = c := Except.ok.inj hc
    exact (side.bounds_self 0).add (AffineExpr.bounds_value h hd hz)
  | some n =>
    simp only [value, bind_eq_ok_iff, pure_eq_ok_iff] at hx
    obtain ⟨y, hy, z, hz, rfl⟩ := hx
    exact (NormedVector.bounds_value h hc hy).add (AffineExpr.bounds_value h hd hz)

/-- The bounds come past all guards. -/
theorem guarded_eq_lift (e : ConicExpr ℝ V) (h : s.Ranged) (side : Side) :
    e.guarded s.ranges side = OptionT.lift (e.bound s side) := by
  have hsum : ∀ {c : Extended ℝ}, side.Admits c →
      (do c.plus (← e.affine.guarded s.ranges side)) =
        OptionT.lift (do return c + (← e.affine.bound s side)) := fun hc =>
    Guarded.bind_eq_lift (e.affine.guarded_eq_lift h side) fun d hd =>
      Extended.plus_of_admits hc (AffineExpr.bound_admits h hd)
  rw [bound_eq]
  obtain ⟨normed?, affine⟩ := e
  cases normed? with
  | none => exact hsum (side.admits_finite 0)
  | some n =>
    exact Guarded.bind_eq_lift (n.guarded_eq_lift h side) fun c hc =>
      hsum (NormedVector.bound_admits h hc)

/-- A bound that is a real is the value at some assignment, when there is no norm and no variable
repeats. -/
theorem bound_attained {ω₀ : V → ℝ} (h : s.Admits (.total ω₀)) (haffine : e.isAffine = true)
    (he : e.vars.Nodup) (hb : e.bound s side = .ok (.finite y)) :
    ∃ ω, s.Admits (.total ω) ∧ e.value (.total ω) = .ok y := by
  obtain ⟨normed?, affine⟩ := e
  obtain rfl : normed? = none := Option.isNone_iff_eq_none.1 haffine
  obtain ⟨c, hc, d, hd, hsum⟩ := bound_eq_ok_iff.1 hb
  obtain ⟨w, z, rfl, rfl, rfl⟩ := Side.add_eq_finite (normBound_admits h.ranged hc)
    (AffineExpr.bound_admits h.ranged hd) hsum
  obtain rfl : 0 = w := Extended.finite.inj (Except.ok.inj hc)
  obtain ⟨ω, hω, hvalue⟩ := AffineExpr.bound_attained h he hd
  refine ⟨ω, hω, ?_⟩
  rw [value, hvalue]
  rfl

end ConicExpr

/-! ## Uncertain expressions -/

namespace UncertainExpr

variable {e : UncertainExpr ℝ} {u : Scope ℝ UncertaintyRef} {d : Scope ℝ DecisionRef}
variable {side : Side} {b : Extended ℝ} {x y : ℝ}

/-- The bound at a side. -/
noncomputable def bound (e : UncertainExpr ℝ) (u : Scope ℝ UncertaintyRef)
    (d : Scope ℝ DecisionRef) : Side → Except (ModelError ℝ) (Extended ℝ)
  | .lower => e.lower u d
  | .upper => e.upper u d

/-- The bound at a side, with guards. -/
noncomputable def guarded (e : UncertainExpr ℝ) (u : UncertaintyRef → Guarded (Interval ℝ))
    (d : DecisionRef → Guarded (Interval ℝ)) (side : Side) : Guarded (Extended ℝ) := do
  let total ← (Extended.ofScalar e.constant).plus (← e.decisions.guarded d side)
  let total ← total.plus (← e.uncertainties.guarded u side)
  total.plus (← e.products.guarded (Product.ranges u d) side)

private theorem bound_eq (e : UncertainExpr ℝ) (u : Scope ℝ UncertaintyRef)
    (d : Scope ℝ DecisionRef) (side : Side) :
    e.bound u d side = (do
      return Extended.ofScalar e.constant + (← e.decisions.bound d side)
        + (← e.uncertainties.bound u side) + (← e.products.bound (Product.scope u d) side)) := by
  cases side <;> rfl

private theorem bound_eq_ok_iff : e.bound u d side = .ok b ↔
    ∃ k, e.decisions.bound d side = .ok k ∧ ∃ l, e.uncertainties.bound u side = .ok l ∧
      ∃ m, e.products.bound (Product.scope u d) side = .ok m ∧
        .finite e.constant + k + l + m = b := by
  simp only [bound_eq, bind_eq_ok_iff, pure_eq_ok_iff, Extended.ofScalar_real]

/-- A bound bounds the value. -/
theorem bounds_value {a : Assignment ℝ UncertaintyRef} {r : Assignment ℝ DecisionRef}
    (hu : u.Admits a) (hd : d.Admits r) (hb : e.bound u d side = .ok b)
    (hx : e.value a r = .ok x) : side.Bounds b x := by
  obtain ⟨k, hk, l, hl, m, hm, rfl⟩ := bound_eq_ok_iff.1 hb
  simp only [value, bind_eq_ok_iff, pure_eq_ok_iff] at hx
  obtain ⟨y, hy, z, hz, w, hw, rfl⟩ := hx
  have hdecisions := (side.bounds_self e.constant).add (LinearExpr.bounds_value hd hk hy)
  have huncertainties := hdecisions.add (LinearExpr.bounds_value hu hl hz)
  exact huncertainties.add (LinearExpr.bounds_value (Product.scope_admits hu hd) hm hw)

/-- The bounds come past all guards. -/
theorem guarded_eq_lift (e : UncertainExpr ℝ) (hu : u.Ranged) (hd : d.Ranged) (side : Side) :
    e.guarded u.ranges d.ranges side = OptionT.lift (e.bound u d side) := by
  have hproducts := Product.scope_ranged hu hd
  rw [bound_eq, guarded, Product.ranges_eq_lift, Extended.ofScalar_real]
  refine Guarded.bind_eq_lift (e.decisions.guarded_eq_lift hd side) fun k hk => ?_
  have hfirst := side.admits_finite e.constant
  have hsecond := LinearExpr.bound_admits hd hk
  rw [Extended.plus_of_admits hfirst hsecond, pure_bind]
  refine Guarded.bind_eq_lift (e.uncertainties.guarded_eq_lift hu side) fun l hl => ?_
  have hthird := LinearExpr.bound_admits hu hl
  rw [Extended.plus_of_admits (hfirst.add hsecond) hthird, pure_bind]
  refine Guarded.bind_eq_lift (e.products.guarded_eq_lift hproducts side) fun m hm => ?_
  exact Extended.plus_of_admits ((hfirst.add hsecond).add hthird)
    (LinearExpr.bound_admits hproducts hm)

/-- A bound that is a real is the value at some assignments, when there are no products and no
variable repeats. -/
theorem bound_attained {μ₀ : UncertaintyRef → ℝ} {δ₀ : DecisionRef → ℝ}
    (hu : u.Admits (.total μ₀)) (hd : d.Admits (.total δ₀)) (hproducts : e.products = .zero)
    (huncertainties : e.uncertainties.vars.Nodup) (hdecisions : e.decisions.vars.Nodup)
    (hb : e.bound u d side = .ok (.finite y)) :
    ∃ μ δ, u.Admits (.total μ) ∧ d.Admits (.total δ) ∧
      e.value (.total μ) (.total δ) = .ok y := by
  obtain ⟨k, hk, l, hl, m, hm, hsum⟩ := bound_eq_ok_iff.1 hb
  have hfirst := side.admits_finite e.constant
  have hsecond := LinearExpr.bound_admits hd.ranged hk
  have hthird := LinearExpr.bound_admits hu.ranged hl
  have hfourth := LinearExpr.bound_admits (Product.scope_ranged hu.ranged hd.ranged) hm
  obtain ⟨s, w, hs, rfl, rfl⟩ :=
    Side.add_eq_finite ((hfirst.add hsecond).add hthird) hfourth hsum
  obtain ⟨t, z, ht, rfl, rfl⟩ := Side.add_eq_finite (hfirst.add hsecond) hthird hs
  obtain ⟨c, x, hc, rfl, rfl⟩ := Side.add_eq_finite hfirst hsecond ht
  obtain ⟨δ, hδ, hdvalue⟩ := LinearExpr.bound_attained hd hdecisions hk
  obtain ⟨μ, hμ, huvalue⟩ := LinearExpr.bound_attained hu huncertainties hl
  have hzero : w = 0 := by
    rw [hproducts] at hm
    cases side <;> exact (Extended.finite.inj (Except.ok.inj hm)).symm
  refine ⟨μ, δ, hμ, hδ, ?_⟩
  rw [value, hdvalue, huvalue, hproducts, Extended.finite.inj hc, hzero]
  rfl

end UncertainExpr

end AdjustableRobust
