import AdjustableRobust.Proofs.Scalar.Real

/-!
# Dual norms

The pairing of two vectors is at most the product of the norm of one and the dual norm of the
other, for each of the three norms, and in every ball there is a vector where the product is
reached.
-/

namespace AdjustableRobust

/-- Sum of the products of entries at the same position. -/
def pairing (xs ys : List ℝ) : ℝ := (List.zipWith (· * ·) xs ys).sum

@[simp] theorem pairing_nil (ys : List ℝ) : pairing [] ys = 0 := rfl

@[simp] theorem pairing_nil_right (xs : List ℝ) : pairing xs [] = 0 := by
  simp [pairing]

@[simp] theorem pairing_cons_cons (x y : ℝ) (xs ys : List ℝ) :
    pairing (x :: xs) (y :: ys) = x * y + pairing xs ys := by
  simp [pairing]

/-- Parts of the same length are paired with each other. -/
theorem pairing_append {xs ys : List ℝ} (h : xs.length = ys.length) (xs' ys' : List ℝ) :
    pairing (xs ++ xs') (ys ++ ys') = pairing xs ys + pairing xs' ys' := by
  rw [pairing, List.zipWith_append h, List.sum_append, pairing, pairing]

/-- The order of the factors does not matter. -/
theorem pairing_comm (xs ys : List ℝ) : pairing xs ys = pairing ys xs := by
  rw [pairing, pairing, List.zipWith_comm]
  simp only [mul_comm]

private theorem pairing_le_sum_abs_mul (xs ys : List ℝ) (b : ℝ) (hb : 0 ≤ b)
    (h : ∀ y ∈ ys, |y| ≤ b) : pairing xs ys ≤ (xs.map fun x => |x|).sum * b := by
  induction xs generalizing ys with
  | nil => simp
  | cons x xs ih =>
    cases ys with
    | nil =>
      rw [pairing_nil_right]
      refine mul_nonneg (List.sum_nonneg fun y hy => ?_) hb
      obtain ⟨z, _, rfl⟩ := List.mem_map.1 hy
      exact abs_nonneg z
    | cons y ys =>
      rw [List.forall_mem_cons] at h
      have hxy : x * y ≤ |x| * b := calc
        x * y ≤ |x * y| := le_abs_self _
        _ = |x| * |y| := abs_mul x y
        _ ≤ |x| * b := mul_le_mul_of_nonneg_left h.1 (abs_nonneg x)
      rw [pairing_cons_cons, List.map_cons, List.sum_cons, add_mul]
      exact add_le_add hxy (ih ys h.2)

private theorem pairing_le_one_mul_infinity (xs ys : List ℝ) :
    pairing xs ys ≤ NormKind.one.apply xs * NormKind.infinity.apply ys := by
  rw [NormKind.apply_one]
  exact pairing_le_sum_abs_mul xs ys _ (NormKind.apply_nonneg _ _)
    fun _ hy => NormKind.abs_le_apply_infinity hy

private theorem sum_sq_nonneg (xs : List ℝ) : 0 ≤ (xs.map fun x => x * x).sum := by
  refine List.sum_nonneg fun y hy => ?_
  obtain ⟨x, _, rfl⟩ := List.mem_map.1 hy
  exact mul_self_nonneg x

private theorem pairing_sq_le (xs ys : List ℝ) :
    pairing xs ys ^ 2 ≤ (xs.map fun x => x * x).sum * (ys.map fun y => y * y).sum := by
  induction xs generalizing ys with
  | nil => simp
  | cons x xs ih =>
    cases ys with
    | nil => simp
    | cons y ys =>
      have hS := ih ys
      have hA := sum_sq_nonneg xs
      have hB := sum_sq_nonneg ys
      simp only [pairing_cons_cons, List.map_cons, List.sum_cons]
      set S := pairing xs ys
      set A := (xs.map fun x => x * x).sum
      set B := (ys.map fun y => y * y).sum
      -- With `S² ≤ A B` the mixed term `2 x y S` is at most `x² B + y² A`.
      have hmixed : 2 * (x * y) * S ≤ x * x * B + y * y * A := by
        have hnonneg : 0 ≤ x * x * B + y * y * A :=
          add_nonneg (mul_nonneg (mul_self_nonneg x) hB) (mul_nonneg (mul_self_nonneg y) hA)
        refine le_of_abs_le (abs_le_of_sq_le_sq ?_ hnonneg)
        nlinarith [sq_nonneg (x * x * B - y * y * A),
          mul_le_mul_of_nonneg_left hS (sq_nonneg (x * y))]
      nlinarith

private theorem pairing_le_two_mul_two (xs ys : List ℝ) :
    pairing xs ys ≤ NormKind.two.apply xs * NormKind.two.apply ys := by
  rw [NormKind.apply_two, NormKind.apply_two, ← Real.sqrt_mul (sum_sq_nonneg xs)]
  exact Real.le_sqrt_of_sq_le (pairing_sq_le xs ys)

/-- The pairing is at most the product of the dual norm and the norm. -/
theorem pairing_le_dual_mul (n : NormKind) (xs ys : List ℝ) :
    pairing xs ys ≤ n.dual.apply xs * n.apply ys := by
  cases n with
  | one =>
    rw [pairing_comm, mul_comm]
    exact pairing_le_one_mul_infinity ys xs
  | two => exact pairing_le_two_mul_two xs ys
  | infinity => exact pairing_le_one_mul_infinity xs ys

/-- The pairing with zeros. -/
theorem pairing_replicate_zero (xs : List ℝ) (n : ℕ) :
    pairing xs (List.replicate n 0) = 0 := by
  induction xs generalizing n with
  | nil => rfl
  | cons x xs ih => cases n <;> simp [List.replicate_succ, ih]

private theorem pairing_map_mul (xs : List ℝ) (k : ℝ) :
    pairing xs (xs.map fun x => k * x) = k * (xs.map fun x => x * x).sum := by
  induction xs with
  | nil => simp
  | cons x xs ih =>
    rw [List.map_cons, pairing_cons_cons, ih, List.map_cons, List.sum_cons]
    ring

private theorem exists_pairing_eq_infinity (xs : List ℝ) {b : ℝ} (hb : 0 ≤ b) :
    ∃ ys, ys.length = xs.length ∧ NormKind.one.apply ys ≤ b ∧
      pairing xs ys = -(b * NormKind.infinity.apply xs) := by
  induction xs with
  | nil => exact ⟨[], rfl, by simpa [NormKind.apply_one], by simp [NormKind.apply]⟩
  | cons x xs ih =>
    rw [NormKind.apply_infinity_cons]
    rcases le_total (NormKind.infinity.apply xs) |x| with hle | hle
    · -- the worst vector has a single entry, where the coefficient is largest
      refine ⟨-(b * SignType.sign x) :: List.replicate xs.length 0, by simp, ?_, ?_⟩
      · have hsign : |(SignType.sign x : ℝ)| ≤ 1 := by
          cases SignType.sign x <;> simp
        simpa [NormKind.apply_one, abs_mul, abs_of_nonneg hb] using mul_le_of_le_one_right hb hsign
      · rw [pairing_cons_cons, pairing_replicate_zero, max_eq_left hle, ← sign_mul_self x]
        ring
    · obtain ⟨ys, hlen, hnorm, hpair⟩ := ih
      refine ⟨0 :: ys, by simp [hlen], ?_, ?_⟩
      · simpa [NormKind.apply_one] using hnorm
      · rw [pairing_cons_cons, hpair, max_eq_right hle]
        ring

private theorem exists_pairing_eq_two (xs : List ℝ) {b : ℝ} (hb : 0 ≤ b) :
    ∃ ys, ys.length = xs.length ∧ NormKind.two.apply ys ≤ b ∧
      pairing xs ys = -(b * NormKind.two.apply xs) := by
  have hsq : NormKind.two.apply xs * NormKind.two.apply xs = (xs.map fun x => x * x).sum := by
    rw [NormKind.apply_two, Real.mul_self_sqrt (sum_sq_nonneg xs)]
  have hnonneg : 0 ≤ NormKind.two.apply xs := NormKind.apply_nonneg _ _
  set norm := NormKind.two.apply xs with hnorm
  by_cases hzero : norm = 0
  · exact ⟨List.replicate xs.length 0, by simp, by simpa, by
      rw [pairing_replicate_zero, hzero, mul_zero, neg_zero]⟩
  · -- the worst vector points against the coefficients
    refine ⟨xs.map fun x => -(b / norm) * x, by simp, ?_, ?_⟩
    · have hsum : ((xs.map fun x => -(b / norm) * x).map fun x => x * x).sum = b ^ 2 := by
        have hmap : ((xs.map fun x => -(b / norm) * x).map fun x => x * x) =
            (xs.map fun x => (b / norm) ^ 2 * (x * x)) := by
          rw [List.map_map]
          exact List.map_congr_left fun x _ => by
            simp only [Function.comp_apply]
            ring
        rw [hmap, List.sum_map_mul_left, ← hsq]
        field_simp
      rw [NormKind.apply_two, hsum, Real.sqrt_sq hb]
    · rw [pairing_map_mul, ← hsq]
      field_simp

private theorem exists_pairing_eq_one (xs : List ℝ) {b : ℝ} (hb : 0 ≤ b) :
    ∃ ys, ys.length = xs.length ∧ NormKind.infinity.apply ys ≤ b ∧
      pairing xs ys = -(b * NormKind.one.apply xs) := by
  simp only [NormKind.apply_one]
  induction xs with
  | nil => exact ⟨[], rfl, by simpa [NormKind.apply], by simp⟩
  | cons x xs ih =>
    obtain ⟨ys, hlen, hnorm, hpair⟩ := ih
    -- the worst vector has the opposite signs of the coefficients
    refine ⟨-(b * SignType.sign x) :: ys, by simp [hlen], ?_, ?_⟩
    · have hsign : |(SignType.sign x : ℝ)| ≤ 1 := by
        cases SignType.sign x <;> simp
      rw [NormKind.apply_infinity_cons, abs_neg, abs_mul, abs_of_nonneg hb]
      exact max_le (mul_le_of_le_one_right hb hsign) hnorm
    · rw [pairing_cons_cons, hpair, List.map_cons, List.sum_cons, ← sign_mul_self x]
      ring

/-- In every ball there is a vector where the product of radius and dual norm is reached. -/
theorem exists_pairing_eq_neg_mul_dual (n : NormKind) (xs : List ℝ) {b : ℝ} (hb : 0 ≤ b) :
    ∃ ys, ys.length = xs.length ∧ n.apply ys ≤ b ∧ pairing xs ys = -(b * n.dual.apply xs) := by
  cases n with
  | one => exact exists_pairing_eq_infinity xs hb
  | two => exact exists_pairing_eq_two xs hb
  | infinity => exact exists_pairing_eq_one xs hb

end AdjustableRobust
