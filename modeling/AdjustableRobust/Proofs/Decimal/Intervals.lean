import AdjustableRobust.Decimal.Shortest
import Mathlib

/-!
# Shortest decimals lie in rounding intervals

The shortest decimal of a double is one of the numbers that round to the double: every grid that is
tried gives a decimal of the interval or none, and one of the grids that are tried is finer than the
interval is wide.
-/

namespace AdjustableRobust.Decimal

/-- Value of a decimal. -/
def value (d : Decimal) : ℚ := d.digits * 10 ^ d.exponent

/-! ## Intervals -/

/-- The numbers that round to a binary number; the ends belong to a closed interval. -/
def Rounding.interval (r : Rounding) : Set ℚ :=
  if r.closed then Set.Icc (r.low * 2 ^ r.unit) (r.high * 2 ^ r.unit)
  else Set.Ioo (r.low * 2 ^ r.unit) (r.high * 2 ^ r.unit)

/-- The open interval is part of it. -/
theorem Rounding.mem_interval_of_lt {r : Rounding} {v : ℚ} (hlow : r.low * 2 ^ r.unit < v)
    (hhigh : v < r.high * 2 ^ r.unit) : v ∈ r.interval := by
  rw [interval]
  split
  · exact ⟨hlow.le, hhigh.le⟩
  · exact ⟨hlow, hhigh⟩

/-- The closed interval contains it. -/
theorem Rounding.interval_subset (r : Rounding) :
    r.interval ⊆ Set.Icc (r.low * 2 ^ r.unit) (r.high * 2 ^ r.unit) := by
  rw [interval]
  split
  · exact subset_rfl
  · exact Set.Ioo_subset_Icc_self

/-- Significand and exponent of a positive double: 53 binary digits, unless the exponent is the
least one. -/
structure IsDouble (m : ℕ) (q : ℤ) : Prop where
  pos : 0 < m
  lt : m < 2 ^ 53
  /-- It has no fewer, unless the exponent is the least one. -/
  normal : 2 ^ 52 ≤ m ∨ q = -1074
  le_exponent : -1074 ≤ q
  exponent_le : q ≤ 971

variable {m : ℕ} {q : ℤ}

/-- A positive number lies inside its interval. -/
theorem ofBinary_low_lt (hm : 0 < m) (q : ℤ) :
    0 < (Rounding.ofBinary m q).low ∧ (Rounding.ofBinary m q).low < (Rounding.ofBinary m q).value ∧
      (Rounding.ofBinary m q).value < (Rounding.ofBinary m q).high := by
  simp only [Rounding.ofBinary]
  split <;> omega

/-- A number in units of its interval. -/
theorem mul_zpow_eq_unit (y : ℚ) (m : ℕ) (q : ℤ) :
    y * 2 ^ q = 4 * y * 2 ^ (Rounding.ofBinary m q).unit := by
  change y * 2 ^ q = 4 * y * 2 ^ (q - 2)
  rw [zpow_sub₀ two_ne_zero]
  norm_num
  ring

/-- A number rounds to itself. -/
theorem mem_interval_self (hm : 0 < m) (q : ℤ) :
    (m * 2 ^ q : ℚ) ∈ (Rounding.ofBinary m q).interval := by
  obtain ⟨-, hlow, hhigh⟩ := ofBinary_low_lt hm q
  have hvalue : (4 * m : ℚ) = (Rounding.ofBinary m q).value := by simp [Rounding.ofBinary]
  have hpos : (0 : ℚ) < 2 ^ (Rounding.ofBinary m q).unit := zpow_pos two_pos _
  rw [mul_zpow_eq_unit _ m, hvalue]
  exact Rounding.mem_interval_of_lt (mul_lt_mul_of_pos_right (Nat.cast_lt.2 hlow) hpos)
    (mul_lt_mul_of_pos_right (Nat.cast_lt.2 hhigh) hpos)

/-- The lower end is half a unit below the number, or less. -/
theorem le_low_ofBinary (hm : 0 < m) : (4 * m - 2 : ℚ) ≤ (Rounding.ofBinary m q).low := by
  have hlow : 4 * m ≤ (Rounding.ofBinary m q).low + 2 := by
    simp only [Rounding.ofBinary]
    split <;> omega
  have hlow : (4 * m : ℚ) ≤ (Rounding.ofBinary m q).low + 2 := by exact_mod_cast hlow
  linarith

/-- The upper end is half a unit above the number. -/
theorem high_ofBinary : ((Rounding.ofBinary m q).high : ℚ) = 4 * m + 2 := by
  simp [Rounding.ofBinary]

/-- Numbers in the interval of a double, in units of the double. -/
theorem bounds_of_mem_interval (hm : 0 < m) {y : ℚ}
    (hv : y * 2 ^ q ∈ (Rounding.ofBinary m q).interval) :
    (Rounding.ofBinary m q).low ≤ 4 * y ∧ 4 * y ≤ 4 * m + 2 ∧
      (m % 2 = 1 → 4 * (m : ℚ) - 2 < 4 * y ∧ 4 * y < 4 * m + 2) := by
  have hpos : (0 : ℚ) < 2 ^ (q - 2) := zpow_pos two_pos _
  have hle := le_low_ofBinary (q := q) hm
  rw [mul_zpow_eq_unit y m] at hv
  refine ⟨?_, ?_, fun hodd => ?_⟩
  · exact le_of_mul_le_mul_right (Rounding.interval_subset _ hv).1 hpos
  · rw [← high_ofBinary (q := q)]
    exact le_of_mul_le_mul_right (Rounding.interval_subset _ hv).2 hpos
  · rw [Rounding.interval, if_neg (by simp [Rounding.ofBinary, hodd])] at hv
    rw [← high_ofBinary (q := q)]
    exact ⟨hle.trans_lt (lt_of_mul_lt_mul_right hv.1 hpos.le),
      lt_of_mul_lt_mul_right hv.2 hpos.le⟩

/-! ## Grids -/

/-- A power is the quotient of its parts. -/
theorem powerParts_eq {b : ℕ} (hb : b ≠ 0) (e : ℤ) :
    ((powerParts b e).1 : ℚ) = b ^ e * (powerParts b e).2 := by
  have hb : (b : ℚ) ≠ 0 := Nat.cast_ne_zero.2 hb
  rw [powerParts, Nat.pow_eq, Nat.pow_eq, Nat.cast_pow, Nat.cast_pow, ← zpow_natCast,
    ← zpow_natCast, ← zpow_add₀ hb]
  congr 1
  omega

/-- Both parts of a power are positive. -/
theorem powerParts_pos {b : ℕ} (hb : 0 < b) (e : ℤ) :
    0 < (powerParts b e).1 ∧ 0 < (powerParts b e).2 :=
  ⟨Nat.pow_pos hb, Nat.pow_pos hb⟩

/-- A common unit in which the points of a grid and the ends of an interval are whole. -/
theorem exists_unit (u k : ℤ) : ∃ d : ℚ, 0 < d ∧
    ((powerParts 2 u).1 * (powerParts 10 k).2 : ℕ) = 2 ^ u * d ∧
    ((powerParts 2 u).2 * (powerParts 10 k).1 : ℕ) = 10 ^ k * d := by
  have htwo := powerParts_eq two_ne_zero u
  have hten := powerParts_eq (show 10 ≠ 0 by decide) k
  refine ⟨(powerParts 2 u).2 * (powerParts 10 k).2, ?_, ?_, ?_⟩
  · exact_mod_cast Nat.mul_pos (powerParts_pos two_pos u).2 (powerParts_pos (by decide) k).2
  · push_cast
    rw [htwo]
    push_cast
    ring
  · push_cast
    rw [hten]
    push_cast
    ring

/-- Points of a grid are compared with the ends of an interval in the common unit. -/
theorem mem_interval_iff {r : Rounding} {k : ℤ} {factor scale : ℕ} {unit : ℚ} (hunit : 0 < unit)
    (hfactor : (factor : ℚ) = 2 ^ r.unit * unit) (hscale : (scale : ℚ) = 10 ^ k * unit) (c : ℕ) :
    (c * 10 ^ k : ℚ) ∈ r.interval ↔
      (if r.closed then r.low * factor ≤ c * scale && c * scale ≤ r.high * factor
        else r.low * factor < c * scale && c * scale < r.high * factor) = true := by
  have hpoint : ((c * scale : ℕ) : ℚ) = c * 10 ^ k * unit := by
    rw [Nat.cast_mul, hscale, mul_assoc]
  have hend (n : ℕ) : ((n * factor : ℕ) : ℚ) = n * 2 ^ r.unit * unit := by
    rw [Nat.cast_mul, hfactor, mul_assoc]
  rw [Rounding.interval]
  split
  · simp only [Bool.and_eq_true, decide_eq_true_eq, ← Nat.cast_le (α := ℚ), hpoint, hend,
      mul_le_mul_iff_left₀ hunit, Set.mem_Icc]
  · simp only [Bool.and_eq_true, decide_eq_true_eq, ← Nat.cast_lt (α := ℚ), hpoint, hend,
      mul_lt_mul_iff_left₀ hunit, Set.mem_Ioo]

/-- A decimal that a grid gives lies in the interval. -/
theorem value_mem_of_onGrid? {tie : TieRule} {r : Rounding} {k : ℤ} {d : Decimal}
    (hlow : r.low < r.value) (hhigh : r.value < r.high) (h : onGrid? tie r k = some d) :
    d.value ∈ r.interval := by
  obtain ⟨unit, hunit, hfactor, hscale⟩ := exists_unit r.unit k
  simp -zeta only [onGrid?] at h
  extract_lets factor scale number below above inside at h
  have hinside : ∀ c, inside c = true → (c * 10 ^ k : ℚ) ∈ r.interval := fun c hc =>
    (mem_interval_iff hunit hfactor hscale c).2 hc
  split at h
  · next hexact =>
    -- the number is a point of the grid
    obtain rfl := Option.some.inj h
    have hnumber : below * scale = r.value * factor :=
      Nat.div_mul_cancel (Nat.dvd_of_mod_eq_zero hexact)
    have hnumber : (below * 10 ^ k : ℚ) = r.value * 2 ^ r.unit := by
      rw [← mul_left_inj' hunit.ne', mul_assoc, mul_assoc, ← hscale, ← hfactor]
      exact_mod_cast hnumber
    have hpos : (0 : ℚ) < 2 ^ r.unit := zpow_pos two_pos _
    rw [value, hnumber]
    exact Rounding.mem_interval_of_lt (mul_lt_mul_of_pos_right (Nat.cast_lt.2 hlow) hpos)
      (mul_lt_mul_of_pos_right (Nat.cast_lt.2 hhigh) hpos)
  · split at h
    · exact absurd h (by simp)
    · next hbelow _ =>
      obtain rfl := Option.some.inj h
      exact hinside _ hbelow
    · next habove =>
      obtain rfl := Option.some.inj h
      exact hinside _ habove
    · next hbelow habove =>
      obtain rfl := Option.some.inj h
      dsimp only [Decimal.value]
      split
      · exact hinside _ hbelow
      · exact hinside _ habove

/-- A grid whose step is not wider than a unit of the interval gives a decimal. -/
theorem exists_of_onGrid? (tie : TieRule) {r : Rounding} {k : ℤ} (hlow : r.low < r.value)
    (hhigh : r.value < r.high) (hk : (10 : ℚ) ^ k ≤ 2 ^ r.unit) :
    ∃ d, onGrid? tie r k = some d := by
  obtain ⟨unit, hunit, hfactor, hscale⟩ := exists_unit r.unit k
  simp -zeta only [onGrid?]
  extract_lets factor scale number below above inside
  change (factor : ℚ) = _ at hfactor
  change (scale : ℚ) = _ at hscale
  have hle : scale ≤ factor := by
    rw [← Nat.cast_le (α := ℚ), hfactor, hscale]
    exact mul_le_mul_of_nonneg_right hk hunit.le
  have hpos : 0 < scale := by
    rw [← Nat.cast_pos (α := ℚ), hscale]
    exact mul_pos (zpow_pos (by norm_num) k) hunit
  -- the point below the number is less than a step away from it
  have hbelow : inside below = true := by
    have hpoint : below * scale ≤ number := Nat.div_mul_le_self number scale
    have hnext : number < below * scale + scale := Nat.lt_div_mul_add hpos
    have hleft : r.low * factor + factor ≤ number := by
      rw [← Nat.succ_mul]
      exact Nat.mul_le_mul_right _ hlow
    have hright : number < r.high * factor :=
      Nat.mul_lt_mul_of_pos_right hhigh (hpos.trans_le hle)
    have hlow : r.low * factor < below * scale := by omega
    have hhigh : below * scale < r.high * factor := by omega
    simp only [inside]
    split <;> simp [hlow, hlow.le, hhigh, hhigh.le]
  rw [hbelow]
  split
  · exact ⟨_, rfl⟩
  · cases inside above <;> exact ⟨_, rfl⟩

/-- What is found is a decimal of one of the grids. -/
theorem exists_grid_of_firstGrid {tie : TieRule} {r : Rounding} {fuel : ℕ} {k : ℤ} {d : Decimal}
    (h : firstGrid tie r fuel k = some d) : ∃ k, onGrid? tie r k = some d := by
  induction fuel generalizing k with
  | zero => exact absurd h (by simp [firstGrid])
  | succ fuel ih =>
    rw [firstGrid] at h
    cases hgrid : onGrid? tie r k with
    | some d' => exact ⟨k, by rw [hgrid] at h ⊢; exact h⟩
    | none => exact ih (by rwa [hgrid] at h)

/-- A grid with a decimal is found, if it is among those that are tried. -/
theorem exists_of_firstGrid {tie : TieRule} {r : Rounding} {fuel : ℕ} {k : ℤ} {i : ℕ}
    (hi : i < fuel) (h : ∃ d, onGrid? tie r (k - i) = some d) :
    ∃ d, firstGrid tie r fuel k = some d := by
  induction fuel generalizing k i with
  | zero => omega
  | succ fuel ih =>
    rw [firstGrid]
    cases hgrid : onGrid? tie r k with
    | some d => exact ⟨d, rfl⟩
    | none =>
      cases i with
      | zero => simp [hgrid] at h
      | succ i =>
        refine ih (Nat.lt_of_succ_lt_succ hi) ?_
        rwa [Nat.cast_succ, add_comm, ← sub_sub] at h

/-! ## Powers of two and ten -/

/-- Powers of ten below powers of two: `log₁₀ 2` lies between 3 / 10 and 28 / 93. -/
theorem zpow_ten_le_zpow_two {j p : ℤ} (hpos : 10 * j ≤ 3 * p) (hneg : 93 * j ≤ 28 * p) :
    (10 : ℚ) ^ j ≤ 2 ^ p := by
  have hten : (1 : ℚ) ≤ 10 := by norm_num
  have hj : (0 : ℚ) ≤ 10 ^ j := zpow_nonneg (by norm_num) j
  have hp : (0 : ℚ) ≤ 2 ^ p := zpow_nonneg two_pos.le p
  rcases le_total 0 p with hsign | hsign
  · refine (pow_le_pow_iff_left₀ hj hp (show 10 ≠ 0 by decide)).1 ?_
    calc ((10 : ℚ) ^ j) ^ 10 = 10 ^ (10 * j) := by
          rw [← zpow_natCast, ← zpow_mul, mul_comm]; rfl
      _ ≤ 10 ^ (3 * p) := zpow_le_zpow_right₀ hten hpos
      _ = (10 ^ (3 : ℤ)) ^ p := by rw [zpow_mul]
      _ ≤ (2 ^ (10 : ℤ)) ^ p := zpow_le_zpow_left₀ hsign (by norm_num) (by norm_num)
      _ = (2 ^ p) ^ 10 := by rw [← zpow_natCast, ← zpow_mul, ← zpow_mul, mul_comm]; rfl
  · refine (pow_le_pow_iff_left₀ hj hp (show 93 ≠ 0 by decide)).1 ?_
    calc ((10 : ℚ) ^ j) ^ 93 = 10 ^ (93 * j) := by
          rw [← zpow_natCast, ← zpow_mul, mul_comm]; rfl
      _ ≤ 10 ^ (28 * p) := zpow_le_zpow_right₀ hten hneg
      _ = (10 ^ (28 : ℤ)) ^ p := by rw [zpow_mul]
      _ ≤ (2 ^ (93 : ℤ)) ^ p := by
        obtain ⟨n, rfl⟩ := Int.exists_eq_neg_ofNat hsign
        rw [zpow_neg, zpow_neg, zpow_natCast, zpow_natCast]
        exact inv_anti₀ (by positivity) (pow_le_pow_left₀ (by positivity) (by norm_num) n)
      _ = (2 ^ p) ^ 93 := by rw [← zpow_natCast, ← zpow_mul, ← zpow_mul, mul_comm]; rfl

/-- One of the first grids has steps that are not wider than a unit of the interval. -/
theorem zpow_coarsestGrid_le (hd : IsDouble m q) :
    (10 : ℚ) ^ (coarsestGrid (Rounding.ofBinary m q) - 22) ≤ 2 ^ (q - 2) := by
  have hlog : (4 * m).log2 < 55 := by
    have hpos := hd.pos
    have hlt := hd.lt
    exact (Nat.log2_lt (by omega)).2 (by omega)
  have hgrid : coarsestGrid (Rounding.ofBinary m q) =
      (((4 * m).log2 + 1 : ℤ) + (q - 2)) * 30103 / 100000 + 1 := rfl
  have hleast := hd.le_exponent
  have hgreatest := hd.exponent_le
  rw [hgrid]
  apply zpow_ten_le_zpow_two <;> omega

/-- The shortest decimal of a double rounds to it. -/
theorem value_shortest_mem (tie : TieRule) (hd : IsDouble m q) :
    (shortest tie m q).value ∈ (Rounding.ofBinary m q).interval := by
  obtain ⟨-, hlow, hhigh⟩ := ofBinary_low_lt hd.pos q
  have hlate : 22 < 24 := by decide
  obtain ⟨d, hfirst⟩ := exists_of_firstGrid hlate
    (exists_of_onGrid? tie hlow hhigh (zpow_coarsestGrid_le hd))
  obtain ⟨k, hgrid⟩ := exists_grid_of_firstGrid hfirst
  rw [shortest, hfirst, Option.getD_some]
  exact value_mem_of_onGrid? hlow hhigh hgrid

/-- The shortest decimal of a double is positive. -/
theorem digits_shortest_pos (tie : TieRule) (hd : IsDouble m q) :
    0 < (shortest tie m q).digits := by
  refine Nat.pos_of_ne_zero fun hzero => ?_
  have hlow := ((Rounding.ofBinary m q).interval_subset (value_shortest_mem tie hd)).1
  have hpos : (0 : ℚ) < (Rounding.ofBinary m q).low := Nat.cast_pos.2 (ofBinary_low_lt hd.pos q).1
  rw [value, hzero, Nat.cast_zero, zero_mul] at hlow
  exact hlow.not_gt (mul_pos hpos (zpow_pos two_pos _))

end AdjustableRobust.Decimal
