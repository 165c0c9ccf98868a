import AdjustableRobust.Proofs.Expression.Bounds
import AdjustableRobust.Robust.Model

/-!
# Enclosures

The bounds of expressions of all kinds enclose the values at all assignments within the ranges of
the variables, which may be infinite. Computing them forms no sum of opposite infinities and no
product of zero and an infinity, whether or not the computation succeeds. The ranges that
uncertainty sets and models give qualify, and always admit an assignment.
-/

namespace AdjustableRobust

variable {V : Type}

/-! ## Scopes of sets and models -/

/-- Some value lies between bounds. -/
theorem Bounds.exists_contains (b : Bounds ℝ) : ∃ x, b.interval.Contains x := by
  obtain ⟨lower?, upper?, hordered⟩ := b
  cases lower? with
  | none =>
    cases upper? with
    | none => exact ⟨0, rfl, rfl⟩
    | some u => exact ⟨u, rfl, by simp [interval, Extended.ofUpper]⟩
  | some l =>
    refine ⟨l, by simp [interval, Extended.ofLower], ?_⟩
    cases upper? with
    | none => rfl
    | some u => simpa [interval, Extended.ofUpper] using hordered l u rfl rfl

namespace Scope

/-- The ranges run between bounds. -/
def FromBounds (s : Scope ℝ V) : Prop := ∀ v i, s.bounds v = .ok i → ∃ b : Bounds ℝ, b.interval = i

variable {s : Scope ℝ V}

/-- Ranges that stem from bounds have ends that can be bounds. -/
theorem FromBounds.ranged (h : s.FromBounds) : s.Ranged := by
  intro v i hi
  obtain ⟨b, rfl⟩ := h v i hi
  obtain ⟨x, hx⟩ := b.exists_contains
  exact hx.ranged

/-- Some assignment gives every variable a value within its bounds. -/
theorem FromBounds.exists_admits (h : s.FromBounds) : ∃ ω, s.Admits (.total ω) := by
  have hvalue : ∀ v, ∃ x, ∀ i, s.bounds v = .ok i → i.Contains x := by
    intro v
    cases hv : s.bounds v with
    | error e => exact ⟨0, fun i hi => by cases hi⟩
    | ok i =>
      obtain ⟨b, rfl⟩ := h v i hv
      obtain ⟨x, hx⟩ := b.exists_contains
      exact ⟨x, fun j hj => Except.ok.inj hj ▸ hx⟩
  choose ω hω using hvalue
  refine ⟨ω, fun v i x hi hx => ?_⟩
  obtain rfl := Except.ok.inj hx
  exact hω v i hi

end Scope

/-- The ranges of uncertainties stem from their bounds. -/
theorem UncertaintySet.scope_fromBounds (set : UncertaintySet ℝ) : set.scope.FromBounds := by
  intro h i hi
  simp only [scope, bind_eq_ok_iff, pure_eq_ok_iff] at hi
  obtain ⟨v, -, rfl⟩ := hi
  exact ⟨v.bounds, rfl⟩

/-- The ranges of decisions stem from their bounds. -/
theorem RobustModel.decisionScope_fromBounds (m : RobustModel ℝ) : m.decisionScope.FromBounds := by
  intro h i hi
  simp only [decisionScope, bind_eq_ok_iff, pure_eq_ok_iff] at hi
  obtain ⟨v, -, rfl⟩ := hi
  exact ⟨v.bounds, rfl⟩

/-- The ranges of variables of a conic model stem from their bounds. -/
theorem ConicModel.scope_fromBounds (m : ConicModel ℝ) : m.scope.FromBounds := by
  intro h i hi
  simp only [scope, bind_eq_ok_iff, pure_eq_ok_iff] at hi
  obtain ⟨v, -, rfl⟩ := hi
  exact ⟨v.bounds, rfl⟩

/-! ## Expressions of all kinds -/

/-- Computed bounds enclose the values, and computing them comes past all guards. -/
structure BoundsAreSound {A : Type} (lower upper : Except (ModelError ℝ) (Extended ℝ))
    (guarded : Side → Guarded (Extended ℝ)) (admitted : A → Prop)
    (value : A → Except (ModelError ℝ) ℝ) : Prop where
  encloses : ∀ a l u x, admitted a → lower = .ok l → upper = .ok u → value a = .ok x →
    l ≤ .finite x ∧ .finite x ≤ u
  /-- The lower bound takes no sum and no product without a value. -/
  lower_definite : guarded .lower = OptionT.lift lower
  upper_definite : guarded .upper = OptionT.lift upper

/-- A computed bound that is a real is the value at some admitted assignment. -/
def BoundsAreAttained {A : Type} (lower upper : Except (ModelError ℝ) (Extended ℝ))
    (admitted : A → Prop) (value : A → Except (ModelError ℝ) ℝ) : Prop :=
  ∀ y, lower = .ok (.finite y) ∨ upper = .ok (.finite y) → ∃ a, admitted a ∧ value a = .ok y

private theorem boundsAreSound {A : Type} (bound : Side → Except (ModelError ℝ) (Extended ℝ))
    {guarded : Side → Guarded (Extended ℝ)} {admitted : A → Prop}
    {value : A → Except (ModelError ℝ) ℝ}
    (hbounds : ∀ side a b x, admitted a → bound side = .ok b → value a = .ok x → side.Bounds b x)
    (hguarded : ∀ side, guarded side = OptionT.lift (bound side)) :
    BoundsAreSound (bound .lower) (bound .upper) guarded admitted value where
  encloses a l u x ha hl hu hx := ⟨hbounds .lower a l x ha hl hx, hbounds .upper a u x ha hu hx⟩
  lower_definite := hguarded .lower
  upper_definite := hguarded .upper

private theorem boundsAreAttained {A : Type} (bound : Side → Except (ModelError ℝ) (Extended ℝ))
    {admitted : A → Prop} {value : A → Except (ModelError ℝ) ℝ}
    (h : ∀ side y, bound side = .ok (.finite y) → ∃ a, admitted a ∧ value a = .ok y) :
    BoundsAreAttained (bound .lower) (bound .upper) admitted value :=
  fun y hy => hy.elim (h .lower y) (h .upper y)

/-- Bounds of expressions in the variables of a scope are sound. -/
structure Scope.Encloses (s : Scope ℝ V) : Prop where
  linear : ∀ e : LinearExpr ℝ V,
    BoundsAreSound (e.lower s) (e.upper s) (e.guarded s.ranges) s.Admits e.value
  affine : ∀ e : AffineExpr ℝ V,
    BoundsAreSound (e.lower s) (e.upper s) (e.guarded s.ranges) s.Admits e.value
  normed : ∀ n : NormedVector ℝ V,
    BoundsAreSound (n.lower s) (n.upper s) (n.guarded s.ranges) s.Admits n.value
  conic : ∀ e : ConicExpr ℝ V,
    BoundsAreSound (e.lower s) (e.upper s) (e.guarded s.ranges) s.Admits e.value

/-- Finite bounds of expressions that are affine are attained when no variable repeats. -/
structure Scope.Attains (s : Scope ℝ V) : Prop where
  linear : ∀ e : LinearExpr ℝ V, e.vars.Nodup → BoundsAreAttained (e.lower s) (e.upper s)
    (fun ω => s.Admits (.total ω)) fun ω => e.value (.total ω)
  affine : ∀ e : AffineExpr ℝ V, e.vars.Nodup → BoundsAreAttained (e.lower s) (e.upper s)
    (fun ω => s.Admits (.total ω)) fun ω => e.value (.total ω)
  conic : ∀ e : ConicExpr ℝ V, e.isAffine = true → e.vars.Nodup →
    BoundsAreAttained (e.lower s) (e.upper s) (fun ω => s.Admits (.total ω))
      fun ω => e.value (.total ω)

/-- Bounds of uncertain expressions are sound. -/
def UncertainExpr.Encloses (u : Scope ℝ UncertaintyRef) (d : Scope ℝ DecisionRef) : Prop :=
  ∀ e : UncertainExpr ℝ,
    BoundsAreSound (e.lower u d) (e.upper u d) (e.guarded u.ranges d.ranges)
      (fun p : Assignment ℝ UncertaintyRef × Assignment ℝ DecisionRef =>
        u.Admits p.1 ∧ d.Admits p.2) fun p => e.value p.1 p.2

/-- Finite bounds of uncertain expressions without products are attained when no variable
repeats. -/
def UncertainExpr.Attains (u : Scope ℝ UncertaintyRef) (d : Scope ℝ DecisionRef) : Prop :=
  ∀ e : UncertainExpr ℝ, e.products = .zero → e.uncertainties.vars.Nodup → e.decisions.vars.Nodup →
    BoundsAreAttained (e.lower u d) (e.upper u d)
      (fun p : (UncertaintyRef → ℝ) × (DecisionRef → ℝ) =>
        u.Admits (.total p.1) ∧ d.Admits (.total p.2)) fun p => e.value (.total p.1) (.total p.2)

/-- Bounds of expressions of every kind are sound where lower ends of ranges may be minus infinity
and upper ends infinity. Where some assignment is admitted, finite bounds of expressions that are
affine are attained when no variable repeats. Uncertainty sets and models have such ranges. -/
theorem bounds_sound :
    (∀ s : Scope ℝ V, s.Ranged → s.Encloses) ∧
    (∀ u d, u.Ranged → d.Ranged → UncertainExpr.Encloses u d) ∧
    (∀ s : Scope ℝ V, (∃ ω, s.Admits (.total ω)) → s.Attains) ∧
    (∀ u d, (∃ μ, u.Admits (.total μ)) → (∃ δ, d.Admits (.total δ)) →
      UncertainExpr.Attains u d) ∧
    (∀ set : UncertaintySet ℝ, set.scope.Ranged ∧ ∃ μ, set.scope.Admits (.total μ)) ∧
    (∀ m : RobustModel ℝ, m.decisionScope.Ranged ∧ ∃ δ, m.decisionScope.Admits (.total δ)) ∧
    ∀ m : ConicModel ℝ, m.scope.Ranged ∧ ∃ ω, m.scope.Admits (.total ω) := by
  refine ⟨fun s hs => ?_, fun u d hu hd e => ?_, fun s ⟨ω₀, hω₀⟩ => ?_,
    fun u d ⟨μ₀, hμ₀⟩ ⟨δ₀, hδ₀⟩ e hproducts huncertainties hdecisions => ?_,
    fun set => ⟨set.scope_fromBounds.ranged, set.scope_fromBounds.exists_admits⟩,
    fun m => ⟨m.decisionScope_fromBounds.ranged, m.decisionScope_fromBounds.exists_admits⟩,
    fun m => ⟨m.scope_fromBounds.ranged, m.scope_fromBounds.exists_admits⟩⟩
  · exact {
      linear := fun e => boundsAreSound (e.bound s)
        (fun _ _ _ _ ha hb hx => LinearExpr.bounds_value ha hb hx) (e.guarded_eq_lift hs)
      affine := fun e => boundsAreSound (e.bound s)
        (fun _ _ _ _ ha hb hx => AffineExpr.bounds_value ha hb hx) (e.guarded_eq_lift hs)
      normed := fun n => boundsAreSound (n.bound s)
        (fun _ _ _ _ ha hb hx => NormedVector.bounds_value ha hb hx) (n.guarded_eq_lift hs)
      conic := fun e => boundsAreSound (e.bound s)
        (fun _ _ _ _ ha hb hx => ConicExpr.bounds_value ha hb hx) (e.guarded_eq_lift hs) }
  · exact boundsAreSound (e.bound u d)
      (fun _ _ _ _ ha hb hx => UncertainExpr.bounds_value ha.1 ha.2 hb hx)
      (e.guarded_eq_lift hu hd)
  · exact {
      linear := fun e he => boundsAreAttained (e.bound s)
        fun _ _ hb => LinearExpr.bound_attained hω₀ he hb
      affine := fun e he => boundsAreAttained (e.bound s)
        fun _ _ hb => AffineExpr.bound_attained hω₀ he hb
      conic := fun e haffine he => boundsAreAttained (e.bound s)
        fun _ _ hb => ConicExpr.bound_attained hω₀ haffine he hb }
  · refine boundsAreAttained (e.bound u d) fun side y hb => ?_
    obtain ⟨μ, δ, hμ, hδ, hvalue⟩ :=
      UncertainExpr.bound_attained hμ₀ hδ₀ hproducts huncertainties hdecisions hb
    exact ⟨(μ, δ), ⟨hμ, hδ⟩, hvalue⟩

/-- The variable at the first position is at most one, and the others are not negative. -/
noncomputable def halfLines (position : V → ℕ) : Scope ℝ V where
  bounds v :=
    .ok (if position v = 0 then (Bounds.atMost 1).interval else (Bounds.atLeast 0).interval)
  label _ := .ok ""

private theorem halfLines_fromBounds (position : V → ℕ) : (halfLines position).FromBounds := by
  intro v i hi
  obtain rfl := Except.ok.inj hi
  split
  · exact ⟨_, rfl⟩
  · exact ⟨_, rfl⟩

private theorem halfLines_admits {position : V → ℕ} {ω : V → ℝ}
    (h : ∀ v, if position v = 0 then ω v ≤ 1 else 0 ≤ ω v) :
    (halfLines position).Admits (.total ω) := by
  intro v i x hi hx
  obtain rfl := Except.ok.inj hi
  obtain rfl := Except.ok.inj hx
  have hv := h v
  split at hv
  · next hposition =>
    rw [if_pos hposition]
    exact ⟨rfl, by simpa [Bounds.interval, Bounds.atMost, Extended.ofUpper] using hv⟩
  · next hposition =>
    rw [if_neg hposition]
    exact ⟨by simpa [Bounds.interval, Bounds.atLeast, Extended.ofLower] using hv, rfl⟩

/-- `1 - v₀ + 0 v₁`. -/
def sloped : AffineExpr ℝ ℕ := ⟨1, ⟨[⟨-1, 0⟩, ⟨0, 1⟩]⟩⟩

/-- `u₀ x₁`. -/
noncomputable def crossed : UncertainExpr ℝ := .product ⟨⟨0⟩, 0, 0⟩ ⟨⟨0⟩, 0, 1⟩

private theorem sloped_bounds : sloped.lower (halfLines id) = .ok (.finite 0) ∧
    sloped.upper (halfLines id) = .ok .posInf := by
  have hfirst : Interval.scale (-1) (Bounds.atMost 1 : Bounds ℝ).interval =
      ⟨.finite (-1), .posInf⟩ := by
    have hturn : (.finite (-1) * .negInf : Extended ℝ) = .posInf :=
      Side.upper.finite_mul_flip_infinity (by norm_num)
    simp [Interval.scale, Bounds.interval, Bounds.atMost, Extended.ofUpper, Extended.ofLower, hturn]
  have hsecond : Interval.scale 0 (Bounds.atLeast 0 : Bounds ℝ).interval =
      ⟨.finite 0, .finite 0⟩ := by
    simp [Interval.scale]
  have hzero : (0 : Extended ℝ) = .finite 0 := rfl
  constructor
  · rw [AffineExpr.lower, LinearExpr.lower]
    simp [sloped, Term.bounds, halfLines, hfirst, hsecond, hzero, Bind.bind, Except.bind, pure,
      Except.pure]
  · rw [AffineExpr.upper, LinearExpr.upper]
    simp [sloped, Term.bounds, halfLines, hfirst, hsecond, Bind.bind, Except.bind, pure,
      Except.pure]
    rfl

/-- A bounded and an unbounded end are computed past all guards, enclose a value, and the bounded
one is attained. The bounds of a product of unbounded variables enclose a product. -/
theorem bounds_sound_sloped :
    (.finite 0 ≤ (.finite 3 : Extended ℝ) ∧ (.finite 3 : Extended ℝ) ≤ .posInf) ∧
    sloped.guarded (halfLines id).ranges .upper = OptionT.lift (.ok .posInf) ∧
    (∃ ω, (halfLines id).Admits (.total ω) ∧ sloped.value (.total ω) = .ok 0) ∧
    ∃ l u, crossed.lower (halfLines (·.slot)) (halfLines (·.slot)) = .ok l ∧
      crossed.upper (halfLines (·.slot)) (halfLines (·.slot)) = .ok u ∧
        l ≤ .finite (-6) ∧ .finite (-6) ≤ u := by
  obtain ⟨hsound, huncertain, hattained, -⟩ := bounds_sound (V := ℕ)
  obtain ⟨hlower, hupper⟩ := sloped_bounds
  have hscope := halfLines_fromBounds (id : ℕ → ℕ)
  have hsloped := (hsound _ hscope.ranged).affine sloped
  refine ⟨?_, ?_, ?_, ?_⟩
  · refine hsloped.encloses (.total fun v => if v = 0 then -2 else 0) _ _ 3 ?_ hlower hupper ?_
    · refine halfLines_admits fun v => ?_
      by_cases hv : v = 0 <;> simp [hv]
      norm_num
    · simp [sloped, AffineExpr.value, LinearExpr.value, Term.value, Assignment.total, Bind.bind,
        Except.bind, pure, Except.pure]
      norm_num
  · rw [← hupper]
    exact hsloped.upper_definite
  · exact (hattained _ hscope.exists_admits).affine sloped (by decide) 0 (.inl hlower)
  · obtain ⟨l, hl⟩ : ∃ l, crossed.lower (halfLines (·.slot)) (halfLines (·.slot)) = .ok l :=
      ⟨_, rfl⟩
    obtain ⟨u, hu⟩ : ∃ u, crossed.upper (halfLines (·.slot)) (halfLines (·.slot)) = .ok u :=
      ⟨_, rfl⟩
    refine ⟨l, u, hl, hu, (huncertain _ _ (halfLines_fromBounds _).ranged
      (halfLines_fromBounds _).ranged crossed).encloses
        (.total fun v => if v.slot = 0 then -2 else 0, .total fun v => if v.slot = 0 then 0 else 3)
        l u (-6) ⟨?_, ?_⟩ hl hu ?_⟩
    · refine halfLines_admits fun v => ?_
      by_cases hv : v.slot = 0 <;> simp [hv]
      norm_num
    · refine halfLines_admits fun v => ?_
      by_cases hv : v.slot = 0 <;> simp [hv]
    · simp [crossed, UncertainExpr.product, UncertainExpr.zero, UncertainExpr.value,
        LinearExpr.zero, LinearExpr.var, LinearExpr.term, LinearExpr.value, Term.value,
        Product.assignment, Assignment.total, Bind.bind, Except.bind, pure, Except.pure]
      norm_num

end AdjustableRobust
