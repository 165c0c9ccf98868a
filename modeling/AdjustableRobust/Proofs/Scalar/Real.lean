import AdjustableRobust.Expression.Norm
import AdjustableRobust.Scalar.Extended
import Mathlib.Analysis.SpecialFunctions.Pow.Real
import Mathlib.Tactic

/-!
# Real numbers as scalars

The exact instance of `Scalar`, in which the library is reasoned about. Every real number is
defined and finite, so the scalar operations become the usual ones: the lemmas below rewrite them
into those of the ordered field, and a zero tolerance into an exact comparison.
-/

namespace AdjustableRobust

/-- Exact arithmetic. -/
noncomputable instance : Scalar ℝ where
  natCast := Nat.cast
  beq x y := decide (x = y)
  decLt := inferInstance
  decLe := inferInstance
  abs x := |x|
  sqrt := Real.sqrt
  root n x := x ^ (1 / (n : ℝ))
  floor x := ⌊x⌋₊
  precedes x y := decide (x ≤ y)

/-- Division of reals is the one of the field. It is found before the one of `Scalar`, in whatever
order modules are imported. -/
noncomputable instance divReal : Div ℝ := DivInvMonoid.toDiv

namespace Scalar

/-- Equality of reals decides equality. -/
@[simp] theorem beq_real (x y : ℝ) : (x == y) = decide (x = y) := rfl

/-- Natural numbers are those of the reals. -/
@[simp] theorem natCast_real (n : ℕ) : @Nat.cast ℝ Scalar.toNatCast n = (n : ℝ) := rfl

/-- The magnitude is the absolute value. -/
@[simp] theorem abs_real (x : ℝ) : abs x = |x| := rfl

/-- The square root is the one of the reals. -/
@[simp] theorem sqrt_real (x : ℝ) : sqrt x = Real.sqrt x := rfl

/-- Every real is defined. -/
@[simp] theorem isDefined_real (x : ℝ) : isDefined x = true := by simp [isDefined]

/-- Every real is finite. -/
@[simp] theorem isFinite_real (x : ℝ) : isFinite x = true := by simp [isFinite]

/-- The larger of two reals is their maximum. -/
@[simp] theorem max_real (x y : ℝ) : max x y = Max.max x y := by
  simp only [max, isDefined_real, ite_true]
  split
  · next h => exact (max_eq_right h.le).symm
  · next h => exact (max_eq_left (not_lt.1 h)).symm

/-- The smaller of two reals is their minimum. -/
@[simp] theorem min_real (x y : ℝ) : min x y = Min.min x y := by
  simp only [min, isDefined_real, ite_true]
  split
  · next h => exact (min_eq_right h.le).symm
  · next h => exact (min_eq_left (not_lt.1 h)).symm

/-- The sum from left to right is the sum. -/
@[simp] theorem sum_real (xs : List ℝ) : sum xs = xs.sum := by
  rw [sum, List.sum_eq_foldl]

end Scalar

namespace Extended

/-- Every real is a finite extended scalar. -/
@[simp] theorem ofScalar_real (x : ℝ) : ofScalar x = .finite x := by simp [ofScalar]

/-- Finite reals add up. -/
@[simp] theorem finite_add_finite (x y : ℝ) :
    (Extended.finite x + Extended.finite y : Extended ℝ) = .finite (x + y) :=
  ofScalar_real (x + y)

/-- Finite reals multiply. -/
@[simp] theorem finite_mul_finite (x y : ℝ) :
    (Extended.finite x * Extended.finite y : Extended ℝ) = .finite (x * y) :=
  ofScalar_real (x * y)

end Extended

namespace NormKind

/-- The sum of magnitudes. -/
theorem apply_one (xs : List ℝ) : NormKind.one.apply xs = (xs.map fun x => |x|).sum := by
  rw [apply, Scalar.sum_real]
  rfl

/-- The Euclidean length. -/
theorem apply_two (xs : List ℝ) :
    NormKind.two.apply xs = Real.sqrt (xs.map fun x => x * x).sum := by
  simp [apply]

private theorem le_foldl_max (xs : List ℝ) (m : ℝ) :
    m ≤ xs.foldl (fun m x => Scalar.max m (Scalar.abs x)) m := by
  induction xs generalizing m with
  | nil => exact le_rfl
  | cons x xs ih =>
    rw [List.foldl_cons]
    refine le_trans ?_ (ih _)
    rw [Scalar.max_real]
    exact le_max_left _ _

private theorem foldl_max_le_iff (xs : List ℝ) (m b : ℝ) :
    xs.foldl (fun m x => Scalar.max m (Scalar.abs x)) m ≤ b ↔ m ≤ b ∧ ∀ x ∈ xs, |x| ≤ b := by
  induction xs generalizing m with
  | nil => simp
  | cons x xs ih =>
    rw [List.foldl_cons, ih, Scalar.max_real, Scalar.abs_real, max_le_iff]
    simp only [List.mem_cons, forall_eq_or_imp, and_assoc]

/-- The largest magnitude is at most a number exactly when zero and all magnitudes are. -/
theorem apply_infinity_le_iff (xs : List ℝ) (b : ℝ) :
    NormKind.infinity.apply xs ≤ b ↔ 0 ≤ b ∧ ∀ x ∈ xs, |x| ≤ b :=
  foldl_max_le_iff xs 0 b

/-- Each magnitude is at most the largest one. -/
theorem abs_le_apply_infinity {xs : List ℝ} {x : ℝ} (hx : x ∈ xs) :
    |x| ≤ NormKind.infinity.apply xs :=
  ((apply_infinity_le_iff xs _).1 le_rfl).2 x hx

/-- The largest magnitude is that of the first entry or of the others. -/
theorem apply_infinity_cons (x : ℝ) (xs : List ℝ) :
    NormKind.infinity.apply (x :: xs) = Max.max |x| (NormKind.infinity.apply xs) := by
  refine eq_of_forall_ge_iff fun b => ?_
  simp only [apply_infinity_le_iff, max_le_iff, List.forall_mem_cons]
  exact and_left_comm

/-- Turning all signs does not matter. -/
@[simp] theorem apply_map_neg (n : NormKind) (xs : List ℝ) :
    n.apply (xs.map fun x => -x) = n.apply xs := by
  cases n with
  | one => simp [apply_one, Function.comp_def]
  | two => simp [apply_two, Function.comp_def]
  | infinity =>
    refine eq_of_forall_ge_iff fun b => ?_
    simp only [apply_infinity_le_iff, List.forall_mem_map, abs_neg]

/-- A common factor of all coordinates is one of the norm. -/
theorem apply_map_mul (n : NormKind) (xs : List ℝ) (c : ℝ) :
    n.apply (xs.map fun x => x * c) = n.apply xs * |c| := by
  cases n with
  | one =>
    rw [apply_one, apply_one, List.map_map, ← List.sum_map_mul_right]
    simp only [Function.comp_def, abs_mul]
  | two =>
    rw [apply_two, apply_two, List.map_map, ← Real.sqrt_mul_self_eq_abs c,
      ← Real.sqrt_mul' _ (mul_self_nonneg c), ← List.sum_map_mul_right]
    simp only [Function.comp_def, mul_mul_mul_comm]
  | infinity =>
    induction xs with
    | nil => simp [apply]
    | cons x xs ih =>
      rw [List.map_cons, apply_infinity_cons, apply_infinity_cons, ih, abs_mul,
        max_mul_of_nonneg _ _ (abs_nonneg c)]

/-- The order of the coordinates does not matter. -/
theorem apply_perm (n : NormKind) {xs ys : List ℝ} (h : xs.Perm ys) : n.apply xs = n.apply ys := by
  cases n with
  | one => rw [apply_one, apply_one, (h.map _).sum_eq]
  | two => rw [apply_two, apply_two, (h.map _).sum_eq]
  | infinity =>
    refine eq_of_forall_ge_iff fun b => ?_
    simp only [apply_infinity_le_iff, h.mem_iff]

/-- The norm of the zero vector. -/
@[simp] theorem apply_replicate_zero (n : NormKind) (k : ℕ) :
    n.apply (List.replicate k (0 : ℝ)) = 0 := by
  cases n with
  | one => simp [apply_one]
  | two => simp [apply_two]
  | infinity =>
    refine le_antisymm ?_ (le_foldl_max _ 0)
    rw [apply_infinity_le_iff]
    simp

/-- No norm is negative. -/
theorem apply_nonneg (n : NormKind) (xs : List ℝ) : 0 ≤ n.apply xs := by
  cases n with
  | one =>
    rw [apply_one]
    apply List.sum_nonneg
    intro y hy
    obtain ⟨x, _, rfl⟩ := List.mem_map.1 hy
    exact abs_nonneg x
  | two =>
    rw [apply_two]
    exact Real.sqrt_nonneg _
  | infinity => exact le_foldl_max xs 0

end NormKind

end AdjustableRobust
