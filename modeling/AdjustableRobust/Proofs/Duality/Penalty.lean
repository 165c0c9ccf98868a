import AdjustableRobust.Proofs.Duality.Norm
import AdjustableRobust.Proofs.Uncertainty.Region

/-!
# Penalties

The minimum of an expression over a region is bounded from below by adding multiples of the
constraints: a dual of the right sign times the constraint is never positive on the region. A norm
is replaced by a combination of its rows whose duals the dual of the constraint bounds in the dual
norm. When an expression becomes constant by such a penalty, the constant certifies a lower bound.
-/

namespace AdjustableRobust

/-- Duals of a constraint: its own one and those of the rows of its norm. -/
@[ext] structure Dual where
  own : ℝ
  rows : List ℝ

/-- All duals of a constraint in a row. -/
def Dual.values (d : Dual) : List ℝ := d.own :: d.rows

/-! ## Signs of duals -/

namespace ConstraintSense

variable {s : ConstraintSense} {y y' : ℝ}

@[simp] theorem admits_dualBounds_leq :
    (leq.dualBounds : Bounds ℝ).admits y = true ↔ 0 ≤ y := Bounds.admits_atLeast 0 y

@[simp] theorem admits_dualBounds_geq :
    (geq.dualBounds : Bounds ℝ).admits y = true ↔ y ≤ 0 := Bounds.admits_atMost 0 y

@[simp] theorem admits_dualBounds_eq : (eq.dualBounds : Bounds ℝ).admits y = true :=
  Bounds.admits_free y

/-- Duals of the right sign add up. -/
theorem admits_dualBounds_add (hy : (s.dualBounds : Bounds ℝ).admits y = true)
    (hy' : (s.dualBounds : Bounds ℝ).admits y' = true) :
    (s.dualBounds : Bounds ℝ).admits (y + y') = true := by
  cases s with
  | leq =>
    rw [admits_dualBounds_leq] at hy hy' ⊢
    exact add_nonneg hy hy'
  | geq =>
    rw [admits_dualBounds_geq] at hy hy' ⊢
    exact add_nonpos hy hy'
  | eq => exact admits_dualBounds_eq

/-- A dual of the right sign may be scaled by a number that is not negative. -/
theorem admits_dualBounds_mul {r : ℝ} (hr : 0 ≤ r)
    (hy : (s.dualBounds : Bounds ℝ).admits y = true) :
    (s.dualBounds : Bounds ℝ).admits (r * y) = true := by
  cases s with
  | leq =>
    rw [admits_dualBounds_leq] at hy ⊢
    exact mul_nonneg hr hy
  | geq =>
    rw [admits_dualBounds_geq] at hy ⊢
    exact mul_nonpos_of_nonneg_of_nonpos hr hy
  | eq => exact admits_dualBounds_eq

end ConstraintSense

/-! ## Penalties of a constraint -/

namespace RawConstraint

variable {κ : EntityKind}

/-- The rows of the norm, none without a norm. -/
def rows (c : RawConstraint (ConicExpr ℝ (Handle κ))) : List (AffineExpr ℝ (Handle κ)) :=
  c.expression.normed?.elim [] (·.rows)

/-- Duals of the rows are bounded in the dual norm by the dual of the constraint. -/
def BoundsRowDuals (c : RawConstraint (ConicExpr ℝ (Handle κ))) (y : ℝ) (zs : List ℝ) : Prop :=
  ∀ n, c.expression.normed? = some n → n.norm.dual.apply zs ≤ y

/-- The affine part of the constraint times its dual plus the rows times theirs. -/
def weighted (c : RawConstraint (ConicExpr ℝ (Handle κ))) (y : ℝ) (zs : List ℝ)
    (u : ℕ → ℝ) : ℝ :=
  y * c.expression.affine.eval (bySlot u) + pairing zs (c.rows.map (·.eval (bySlot u)))

/-- A function of values by position that admissible duals of a constraint give rise to. -/
def IsPenalty (c : RawConstraint (ConicExpr ℝ (Handle κ))) (g : (ℕ → ℝ) → ℝ) : Prop :=
  ∃ y zs, (c.sense.dualBounds : Bounds ℝ).admits y = true ∧ zs.length = c.rows.length ∧
    c.BoundsRowDuals y zs ∧ g = c.weighted y zs

/-- A dual of the right sign times a number in relation to zero is not positive. -/
theorem dual_mul_nonpos {s : ConstraintSense} {x y : ℝ} (hx : s.Holds x)
    (hy : (s.dualBounds : Bounds ℝ).admits y = true) : y * x ≤ 0 := by
  cases s with
  | leq => exact mul_nonpos_of_nonneg_of_nonpos (ConstraintSense.admits_dualBounds_leq.1 hy) hx
  | geq => exact mul_nonpos_of_nonpos_of_nonneg (ConstraintSense.admits_dualBounds_geq.1 hy) hx
  | eq =>
    rw [show x = 0 from hx, mul_zero]

/-- Penalties are never positive where the constraint holds. -/
theorem IsPenalty.nonpos {c : RawConstraint (ConicExpr ℝ (Handle κ))} {g : (ℕ → ℝ) → ℝ}
    {u : ℕ → ℝ} (hg : c.IsPenalty g) (hc : c.Holds (bySlot u)) : g u ≤ 0 := by
  obtain ⟨y, zs, hy, -, hz, rfl⟩ := hg
  refine le_trans ?_ (dual_mul_nonpos hc hy)
  obtain ⟨sense, normed?, affine⟩ := c
  cases normed? with
  | none => simp [weighted, rows, ConicExpr.eval]
  | some n =>
    have hpair : pairing zs (n.rows.map (·.eval (bySlot u))) ≤ y * n.eval (bySlot u) := calc
      pairing zs (n.rows.map (·.eval (bySlot u)))
        ≤ n.norm.dual.apply zs * n.eval (bySlot u) := pairing_le_dual_mul _ _ _
      _ ≤ y * n.eval (bySlot u) :=
        mul_le_mul_of_nonneg_right (hz n rfl) (NormKind.apply_nonneg _ _)
    simp only [weighted, rows, ConicExpr.eval, Option.elim, mul_add]
    linarith

/-- The duals of a constraint are admissible: its own one has the right sign and bounds those of the
rows. -/
structure AdmitsDual (c : RawConstraint (ConicExpr ℝ (Handle κ))) (d : Dual) :
    Prop where
  sign : (c.sense.dualBounds : Bounds ℝ).admits d.own = true
  length : d.rows.length = c.rows.length
  bounded : c.BoundsRowDuals d.own d.rows

/-- Penalties come from admissible duals. -/
theorem isPenalty_iff {c : RawConstraint (ConicExpr ℝ (Handle κ))}
    {g : (ℕ → ℝ) → ℝ} :
    c.IsPenalty g ↔ ∃ d : Dual, c.AdmitsDual d ∧ g = c.weighted d.own d.rows := by
  constructor
  · rintro ⟨y, zs, hy, hlength, hzs, rfl⟩
    exact ⟨⟨y, zs⟩, ⟨hy, hlength, hzs⟩, rfl⟩
  · rintro ⟨d, hd, rfl⟩
    exact ⟨d.own, d.rows, hd.sign, hd.length, hd.bounded, rfl⟩

/-- Duals that are all zero. -/
def zeroDual (c : RawConstraint (ConicExpr ℝ (Handle κ))) : Dual :=
  ⟨0, List.replicate c.rows.length 0⟩

/-- Zero is admissible. -/
theorem admitsDual_zeroDual (c : RawConstraint (ConicExpr ℝ (Handle κ))) :
    c.AdmitsDual c.zeroDual where
  sign := by
    cases c.sense <;> simp [zeroDual]
  length := List.length_replicate
  bounded n _ := by simp [zeroDual]

/-- With zero duals nothing is added. -/
theorem weighted_zeroDual (c : RawConstraint (ConicExpr ℝ (Handle κ))) :
    c.weighted c.zeroDual.own c.zeroDual.rows = 0 := by
  funext u
  rw [Pi.zero_apply, weighted, zeroDual, zero_mul, zero_add, pairing_comm, pairing_replicate_zero]

/-- Without multiplying the constraint there is no penalty. -/
theorem IsPenalty.zero (c : RawConstraint (ConicExpr ℝ (Handle κ))) : c.IsPenalty 0 :=
  isPenalty_iff.2 ⟨c.zeroDual, c.admitsDual_zeroDual, c.weighted_zeroDual.symm⟩

/-- Without a norm, a penalty is a multiple of the constraint. -/
theorem isPenalty_affine_iff {s : ConstraintSense} {e : AffineExpr ℝ (Handle κ)}
    {g : (ℕ → ℝ) → ℝ} :
    (⟨s, .ofAffine e⟩ : RawConstraint (ConicExpr ℝ (Handle κ))).IsPenalty g ↔
      ∃ y, (s.dualBounds : Bounds ℝ).admits y = true ∧ g = fun u => y * e.eval (bySlot u) := by
  constructor
  · rintro ⟨y, zs, hy, hzs, -, rfl⟩
    obtain rfl : zs = [] := List.length_eq_zero_iff.1 hzs
    refine ⟨y, hy, funext fun u => ?_⟩
    simp [weighted, ConicExpr.ofAffine]
  · rintro ⟨y, hy, rfl⟩
    refine ⟨y, [], hy, rfl, fun n hn => by simp [ConicExpr.ofAffine] at hn, funext fun u => ?_⟩
    simp [weighted, ConicExpr.ofAffine]

end RawConstraint

variable {κ : EntityKind}

/-- A sum of penalties, one for each constraint of a list. -/
inductive Penalty : List (RawConstraint (ConicExpr ℝ (Handle κ))) → ((ℕ → ℝ) → ℝ) → Prop where
  | nil : Penalty [] 0
  | cons {c cs g h} : c.IsPenalty g → Penalty cs h → Penalty (c :: cs) (g + h)

namespace Penalty

variable {cs : List (RawConstraint (ConicExpr ℝ (Handle κ)))} {g : (ℕ → ℝ) → ℝ}

/-- Only the empty sum has no constraint. -/
theorem nil_iff : Penalty ([] : List (RawConstraint (ConicExpr ℝ (Handle κ)))) g ↔ g = 0 := by
  constructor
  · rintro ⟨⟩
    rfl
  · rintro rfl
    exact .nil

/-- A sum splits off the penalty of the first constraint. -/
theorem cons_iff {c : RawConstraint (ConicExpr ℝ (Handle κ))} :
    Penalty (c :: cs) g ↔ ∃ g₁ g₂, c.IsPenalty g₁ ∧ Penalty cs g₂ ∧ g = g₁ + g₂ := by
  constructor
  · rintro (_ | ⟨h₁, h₂⟩)
    exact ⟨_, _, h₁, h₂, rfl⟩
  · rintro ⟨g₁, g₂, h₁, h₂, rfl⟩
    exact .cons h₁ h₂

/-- Without multiplying any constraint there is no penalty. -/
theorem zero (cs : List (RawConstraint (ConicExpr ℝ (Handle κ)))) : Penalty cs 0 := by
  induction cs with
  | nil => exact .nil
  | cons c cs ih =>
    rw [← add_zero (0 : (ℕ → ℝ) → ℝ)]
    exact .cons (.zero c) ih

/-- A penalty of one of the constraints. -/
theorem of_mem {c : RawConstraint (ConicExpr ℝ (Handle κ))} (hc : c ∈ cs)
    (hg : c.IsPenalty g) : Penalty cs g := by
  induction hc with
  | head cs =>
    rw [← add_zero g]
    exact .cons hg (zero cs)
  | tail d _ ih =>
    rw [← zero_add g]
    exact .cons (.zero d) ih

/-- Sums of penalties are never positive where all constraints hold. -/
theorem nonpos {u : ℕ → ℝ} (hg : Penalty cs g) (hcs : ∀ c ∈ cs, c.Holds (bySlot u)) : g u ≤ 0 := by
  induction hg with
  | nil => exact le_rfl
  | cons h₁ _ ih =>
    rw [List.forall_mem_cons] at hcs
    exact add_nonpos (h₁.nonpos hcs.1) (ih hcs.2)

end Penalty

/-! ## Duals -/

/-- The duals of all constraints are admissible. -/
def AdmitsDuals (cs : List (RawConstraint (ConicExpr ℝ (Handle κ)))) (ds : List Dual) : Prop :=
  List.Forall₂ (fun c d => c.AdmitsDual d) cs ds

/-- The sum of all constraints weighted by their duals. -/
noncomputable def weightedSum (cs : List (RawConstraint (ConicExpr ℝ (Handle κ))))
    (ds : List Dual) (u : ℕ → ℝ) : ℝ :=
  (List.zipWith (fun c d => c.weighted d.own d.rows u) cs ds).sum

/-- No constraint, no sum. -/
@[simp] theorem weightedSum_nil (ds : List Dual) :
    weightedSum ([] : List (RawConstraint (ConicExpr ℝ (Handle κ)))) ds = 0 := rfl

/-- A sum begins with the first constraint. -/
@[simp] theorem weightedSum_cons (c : RawConstraint (ConicExpr ℝ (Handle κ)))
    (cs : List (RawConstraint (ConicExpr ℝ (Handle κ)))) (d : Dual) (ds : List Dual) :
    weightedSum (c :: cs) (d :: ds) = c.weighted d.own d.rows + weightedSum cs ds := by
  funext u
  rw [weightedSum, List.zipWith_cons_cons, List.sum_cons]
  rfl

section Duals

variable {cs cs' : List (RawConstraint (ConicExpr ℝ (Handle κ)))} {ds ds' : List Dual}

/-- A sum over two lists is a sum of sums. -/
theorem weightedSum_append (h : cs.length = ds.length) :
    weightedSum (cs ++ cs') (ds ++ ds') = weightedSum cs ds + weightedSum cs' ds' := by
  funext u
  rw [Pi.add_apply, weightedSum, List.zipWith_append h, List.sum_append, weightedSum, weightedSum]

/-- Admissible duals of two lists are those of the first one and those of the second one. -/
theorem admitsDuals_append_iff {xs : List Dual} :
    AdmitsDuals (cs ++ cs') xs ↔
      ∃ ds ds', AdmitsDuals cs ds ∧ AdmitsDuals cs' ds' ∧ xs = ds ++ ds' := by
  constructor
  · intro h
    induction cs generalizing xs with
    | nil => exact ⟨[], xs, .nil, h, rfl⟩
    | cons c cs ih =>
      obtain ⟨d, rest, hd, hrest, rfl⟩ := List.forall₂_cons_left_iff.1 h
      obtain ⟨ds, ds', hds, hds', rfl⟩ := ih hrest
      exact ⟨d :: ds, ds', .cons hd hds, hds', rfl⟩
  · rintro ⟨ds, ds', hds, hds', rfl⟩
    exact List.rel_append hds hds'

/-- Zero is admissible for all constraints. -/
theorem admitsDuals_map_zeroDual (cs : List (RawConstraint (ConicExpr ℝ (Handle κ)))) :
    AdmitsDuals cs (cs.map (·.zeroDual)) := by
  rw [AdmitsDuals, List.forall₂_map_right_iff, List.forall₂_same]
  exact fun c _ => c.admitsDual_zeroDual

/-- With zero duals no constraint adds anything. -/
theorem weightedSum_map_zeroDual (cs : List (RawConstraint (ConicExpr ℝ (Handle κ)))) :
    weightedSum cs (cs.map (·.zeroDual)) = 0 := by
  induction cs with
  | nil => rfl
  | cons c cs ih => rw [List.map_cons, weightedSum_cons, c.weighted_zeroDual, ih, add_zero]

/-- Sums of penalties come from admissible duals. -/
theorem penalty_iff {g : (ℕ → ℝ) → ℝ} :
    Penalty cs g ↔ ∃ ds, AdmitsDuals cs ds ∧ g = weightedSum cs ds := by
  induction cs generalizing g with
  | nil => simp [Penalty.nil_iff, AdmitsDuals]
  | cons c cs ih =>
    simp only [Penalty.cons_iff, ih, RawConstraint.isPenalty_iff]
    constructor
    · rintro ⟨_, _, ⟨d, hd, rfl⟩, ⟨ds, hds, rfl⟩, rfl⟩
      exact ⟨d :: ds, .cons hd hds, (weightedSum_cons ..).symm⟩
    · rintro ⟨_, _ | ⟨hd, hds⟩, rfl⟩
      exact ⟨_, _, ⟨_, hd, rfl⟩, ⟨_, hds, rfl⟩, weightedSum_cons ..⟩

end Duals

/-- A penalty turns the function into a constant. -/
def Certifies (cs : List (RawConstraint (ConicExpr ℝ (Handle κ)))) (f : (ℕ → ℝ) → ℝ)
    (v : ℝ) : Prop :=
  ∃ g, Penalty cs g ∧ ∀ u, f u + g u = v

/-- Duals of the constraints of a region with the value that they certify. -/
structure Certificate where
  duals : List Dual
  value : ℝ

/-- All duals of a certificate in a row. -/
def Certificate.values (k : Certificate) : List ℝ := k.duals.flatMap (·.values)

/-- A certificate is valid for a function on a region: with its admissible duals the constraints
turn the function into the certified value. -/
structure Certificate.Valid (k : Certificate)
    (cs : List (RawConstraint (ConicExpr ℝ (Handle κ)))) (f : (ℕ → ℝ) → ℝ) : Prop where
  admits : AdmitsDuals cs k.duals
  /-- The function becomes constant. -/
  constant : ∀ u, f u + weightedSum cs k.duals u = k.value

/-- Certified values are those of valid certificates. -/
theorem certifies_iff {cs : List (RawConstraint (ConicExpr ℝ (Handle κ)))}
    {f : (ℕ → ℝ) → ℝ} {v : ℝ} :
    Certifies cs f v ↔ ∃ k : Certificate, k.Valid cs f ∧ k.value = v := by
  simp only [Certifies, penalty_iff]
  constructor
  · rintro ⟨_, ⟨ds, hds, rfl⟩, hv⟩
    exact ⟨⟨ds, v⟩, ⟨hds, hv⟩, rfl⟩
  · rintro ⟨k, hk, rfl⟩
    exact ⟨_, ⟨k.duals, hk.admits, rfl⟩, hk.constant⟩

/-- Weak duality: what is certified is a lower bound wherever all constraints hold. -/
theorem Certifies.le {cs : List (RawConstraint (ConicExpr ℝ (Handle κ)))} {f : (ℕ → ℝ) → ℝ}
    {u : ℕ → ℝ} {v : ℝ} (h : Certifies cs f v) (hcs : ∀ c ∈ cs, c.Holds (bySlot u)) : v ≤ f u := by
  obtain ⟨g, hg, hv⟩ := h
  rw [← hv u]
  linarith [hg.nonpos hcs]

end AdjustableRobust
