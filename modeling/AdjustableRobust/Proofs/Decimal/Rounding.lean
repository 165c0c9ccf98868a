import AdjustableRobust.Proofs.Decimal.Intervals
import Mathlib

/-!
# Rounding to doubles

A number that is given by a mantissa, two residual bits and an exponent is rounded to the double
that it lies around. The residual bits keep what rounding needs of the digits that are shifted out,
so the rounded mantissa is the nearest whole number, where halves go to even ones; and in the unit
of the double the nearest whole number is its significand. Only below a power of two the unit is
half that of the double, and the mantissa carries.
-/

namespace AdjustableRobust.Decimal

open Float.Model Float.Model.UnpackedFloat

/-! ## Residual bits -/

/-- What a round bit contributes to a number. -/
def half (round : Bool) : ℚ := if round then 1 / 2 else 0

@[simp]
private theorem half_false : half false = 0 := rfl

@[simp]
private theorem half_true : half true = 1 / 2 := rfl

private theorem half_nonneg (round : Bool) : 0 ≤ half round := by cases round <;> simp

private theorem half_le (round : Bool) : half round ≤ 1 / 2 := by cases round <;> simp

/-- A mantissa with its residual bits stands for a number: the round bit is the first binary digit
that was cut off, and the sticky bit tells whether any later one is set. -/
def StandsFor (em : ExtendedMantissa) (x : ℚ) : Prop :=
  ∃ rest : ℚ, 0 ≤ rest ∧ rest < 1 / 2 ∧ (em.stickyBit = true ↔ rest ≠ 0) ∧
    x = em.mantissa + half em.roundBit + rest

variable {em : ExtendedMantissa} {x : ℚ}

/-- A mantissa on its own. -/
theorem standsFor_exact (m : ℕ) : StandsFor (.ofMantissaAndAccuracy m .exact) m :=
  ⟨0, by norm_num, by norm_num, by simp [ExtendedMantissa.ofMantissaAndAccuracy],
    by simp [ExtendedMantissa.ofMantissaAndAccuracy]⟩

/-- The number lies less than one above its mantissa. -/
theorem StandsFor.mem_Ico (h : StandsFor em x) :
    x ∈ Set.Ico (em.mantissa : ℚ) (em.mantissa + 1) := by
  obtain ⟨rest, hnonneg, hlt, -, rfl⟩ := h
  have := half_nonneg em.roundBit
  have := half_le em.roundBit
  constructor <;> linarith

/-- The digit that is shifted out becomes the round bit. -/
theorem StandsFor.shiftRightOne (h : StandsFor em x) : StandsFor em.shiftRightOne (x / 2) := by
  obtain ⟨m, round, sticky⟩ := em
  obtain ⟨rest, hnonneg, hlt, hsticky, rfl⟩ := h
  have hround := half_nonneg round
  have hround' := half_le round
  have hdigit : ((m % 2 : ℕ) : ℚ) = 2 * half (m % 2 != 0) := by
    rcases Nat.mod_two_eq_zero_or_one m with hdigit | hdigit <;> simp [hdigit]
  have hsplit : (m : ℚ) = 2 * (m / 2 : ℕ) + (m % 2 : ℕ) := by
    exact_mod_cast (Nat.div_add_mod m 2).symm
  refine ⟨(half round + rest) / 2, by linarith, by linarith, ?_, ?_⟩
  · cases round with
    | false => simpa [ExtendedMantissa.shiftRightOne] using hsticky
    | true =>
      have hne : (1 / 2 + rest) / 2 ≠ 0 := by linarith
      simpa [ExtendedMantissa.shiftRightOne] using hne
  · change (m + half round + rest) / 2 =
      ((m / 2 : ℕ) : ℚ) + half (m % 2 != 0) + (half round + rest) / 2
    rw [hsplit, hdigit]
    ring

/-- Any number of digits can be shifted out. -/
theorem StandsFor.shiftRight (h : StandsFor em x) (n : ℕ) : StandsFor (em >>> n) (x / 2 ^ n) := by
  change StandsFor (n.repeat ExtendedMantissa.shiftRightOne em) _
  induction n with
  | zero => simpa [Nat.repeat] using h
  | succ n ih =>
    rw [pow_succ, ← div_div]
    exact ih.shiftRightOne

/-- A whole number is nearest to a number; of two that are equally near, the even one is. -/
def IsNearest (n : ℕ) (x : ℚ) : Prop := |x - n| ≤ 1 / 2 ∧ (|x - n| = 1 / 2 → n % 2 = 0)

/-- The rounded mantissa is the nearest whole number. -/
theorem StandsFor.roundedMantissa_eq (h : StandsFor em x) {n : ℕ} (hn : IsNearest n x) :
    em.roundedMantissa = n := by
  obtain ⟨m, round, sticky⟩ := em
  obtain ⟨rest, hnonneg, hlt, hsticky, rfl⟩ := h
  obtain ⟨hnear, htie⟩ := hn
  dsimp only at hsticky hnear htie
  have habs := abs_le.1 hnear
  -- the nearest whole number is next to the number on one side
  have hnext : n = m ∨ n = m + 1 := by
    have hround := half_nonneg round
    have hround' := half_le round
    have hlow : (m : ℚ) < n + 1 := by linarith
    have hhigh : (n : ℚ) < m + 2 := by linarith
    norm_cast at hlow hhigh
    omega
  cases round with
  | false =>
    have hbelow : n = m := hnext.resolve_right fun habove => by
      rw [habove] at habs
      push_cast [half_false] at habs
      linarith
    cases sticky <;> exact hbelow.symm
  | true =>
    cases sticky with
    | false =>
      have hrest : rest = 0 := by simpa using hsticky
      have heven : n % 2 = 0 := by
        refine htie ?_
        rcases hnext with rfl | rfl
        · rw [hrest, half_true, add_zero, add_sub_cancel_left, abs_of_pos one_half_pos]
        · rw [hrest, half_true, Nat.cast_succ, abs_of_neg] <;> linarith
      change m + m % 2 = n
      omega
    | true =>
      have hpos : 0 < rest := lt_of_le_of_ne hnonneg (Ne.symm (by simpa using hsticky))
      have habove : n = m + 1 := hnext.resolve_left fun hbelow => by
        rw [hbelow, half_true] at habs
        linarith
      exact habove.symm

/-! ## Rounding -/

variable {m : ℕ} {q : ℤ}

/-- Exponent after rounding. -/
theorem targetExponent_eq (t : ℤ) : Format.binary64.targetExponent t = max (t - 53) (-1074) := rfl

/-- Shifting to the exponent of the format keeps what the mantissa stands for, in the new unit. -/
theorem shiftToTargetExponent_eq {acc : Accuracy} {n : ℕ} {e t : ℤ}
    (hx : StandsFor (.ofMantissaAndAccuracy n acc) x)
    (ht : Format.binary64.targetExponent (totalExponent n e) = t) (he : e ≤ t) :
    ∃ em y, shiftToTargetExponent .binary64 n e acc = (em, t) ∧ StandsFor em y ∧
      y * 2 ^ t = x * 2 ^ e := by
  have hshift : (((t - e).toNat : ℕ) : ℤ) = t - e := Int.toNat_of_nonneg (by omega)
  refine ⟨_, _, ?_, hx.shiftRight (t - e).toNat, ?_⟩
  · rw [shiftToTargetExponent, ht, shiftToExponent, hshift, add_sub_cancel]
  · rw [← zpow_natCast, hshift, div_mul_eq_mul_div, mul_div_assoc, ← zpow_sub₀ two_ne_zero,
      sub_sub_cancel]

/-- Exponent of the format for the significand of a double. -/
theorem IsDouble.targetExponent_eq (hd : IsDouble m q) :
    Format.binary64.targetExponent (totalExponent m q) = q := by
  have hlog : m.log2 < 53 := (Nat.log2_lt hd.pos.ne').2 hd.lt
  have hleast := hd.le_exponent
  rw [Decimal.targetExponent_eq, totalExponent]
  rcases hd.normal with hnormal | rfl
  · have := (Nat.le_log2 hd.pos.ne').2 hnormal
    omega
  · omega

/-- A mantissa that stands for a whole number is that number. -/
theorem StandsFor.mantissa_eq {n : ℕ} (h : StandsFor em n) : em.mantissa = n := by
  obtain ⟨hlow, hhigh⟩ := h.mem_Ico
  norm_cast at hlow hhigh
  omega

/-- Rounding ends with a double, if the rounded mantissa makes up the double in its unit. -/
theorem roundWithAccuracy_of_first (hd : IsDouble m q) {s : Sign} {acc : Accuracy} {n : ℕ} {e t : ℤ}
    (hfirst : shiftToTargetExponent .binary64 n e acc = (em, t))
    (ht : Format.binary64.targetExponent (totalExponent em.roundedMantissa t) = q) (hle : t ≤ q)
    (hvalue : (em.roundedMantissa : ℚ) * 2 ^ t = m * 2 ^ q) :
    roundWithAccuracy .binary64 s n e acc = .finite s m q hd.pos := by
  obtain ⟨em', y, hsecond, hy, heq⟩ := shiftToTargetExponent_eq (standsFor_exact _) ht hle
  obtain rfl : y = m := by
    rw [hvalue] at heq
    exact mul_right_cancel₀ (zpow_ne_zero q two_ne_zero) heq
  have hmantissa := hy.mantissa_eq
  rw [roundWithAccuracy, hfirst]
  dsimp only
  rw [hsecond]
  dsimp only
  rw [dif_neg (by rw [hmantissa]; exact hd.pos.ne')]
  simp only [hmantissa]

/-- Numbers around a double have it as the nearest multiple of its unit. -/
theorem isNearest_of_mem_interval (hm : 0 < m) {y : ℚ}
    (hv : y * 2 ^ q ∈ (Rounding.ofBinary m q).interval) : IsNearest m y := by
  obtain ⟨hlow, hhigh, hends⟩ := bounds_of_mem_interval hm hv
  have hle := le_low_ofBinary (q := q) hm
  constructor
  · rw [abs_le]
    constructor <;> linarith
  · intro htie
    by_contra hodd
    obtain ⟨hlow, hhigh⟩ := hends (by omega)
    have hlt : |y - m| < 1 / 2 := abs_lt.2 ⟨by linarith, by linarith⟩
    exact hlt.ne htie

/-- Only the interval of a power of two reaches below the power, by a quarter of a unit. -/
theorem eq_of_low_lt (hd : IsDouble m q) (hq : q ≠ -1074)
    (h : (Rounding.ofBinary m q).low < 2 ^ 54) :
    m = 2 ^ 52 ∧ (Rounding.ofBinary m q).low = 2 ^ 54 - 1 := by
  have hnormal := hd.normal.resolve_right hq
  obtain rfl : m = 2 ^ 52 := by
    by_contra hne
    have hlow : (Rounding.ofBinary m q).low = 4 * m - 2 := if_neg fun hm => hne hm.1
    omega
  exact ⟨rfl, if_pos ⟨rfl, hq⟩⟩

/-- The format leaves 53 digits in front of the point. -/
theorem lt_of_shifted {n : ℕ} {e t : ℤ} {y : ℚ} (hx : x < n + 1)
    (ht : Format.binary64.targetExponent (totalExponent n e) = t) (hy : y * 2 ^ t = x * 2 ^ e) :
    y < 2 ^ 53 := by
  have hn : n + 1 ≤ 2 ^ (n.log2 + 1) := Nat.lt_log2_self
  have hn : ((n + 1 : ℕ) : ℚ) ≤ (2 ^ (n.log2 + 1) : ℕ) := Nat.cast_le.2 hn
  push_cast at hn
  rw [targetExponent_eq, totalExponent] at ht
  have hpos : (0 : ℚ) < 2 ^ t := zpow_pos two_pos t
  refine lt_of_mul_lt_mul_right ?_ hpos.le
  calc y * 2 ^ t = x * 2 ^ e := hy
    _ < 2 ^ (n.log2 + 1) * 2 ^ e :=
      mul_lt_mul_of_pos_right (hx.trans_le hn) (zpow_pos two_pos e)
    _ = 2 ^ ((n.log2 + 1 : ℕ) + e : ℤ) := by rw [zpow_add₀ two_ne_zero, zpow_natCast]
    _ ≤ 2 ^ (53 + t) := zpow_le_zpow_right₀ one_le_two (by push_cast; omega)
    _ = 2 ^ 53 * 2 ^ t := by rw [zpow_add₀ two_ne_zero]; norm_num

/-- And no fewer, unless the exponent is the least one. -/
theorem le_of_shifted {n : ℕ} {e t : ℤ} {y : ℚ} (hx : n ≤ x)
    (ht : Format.binary64.targetExponent (totalExponent n e) = t) (he : e ≤ t) (hleast : t ≠ -1074)
    (hy : y * 2 ^ t = x * 2 ^ e) : 2 ^ 52 ≤ y := by
  rw [targetExponent_eq, totalExponent] at ht
  have hlog : 52 ≤ n.log2 := by omega
  have hn : 2 ^ n.log2 ≤ n := Nat.log2_self_le (by rintro rfl; simp at hlog)
  have hn : ((2 ^ n.log2 : ℕ) : ℚ) ≤ n := Nat.cast_le.2 hn
  push_cast at hn
  have hpos : (0 : ℚ) < 2 ^ t := zpow_pos two_pos t
  refine le_of_mul_le_mul_right ?_ hpos
  calc (2 : ℚ) ^ 52 * 2 ^ t = 2 ^ (n.log2 + e : ℤ) := by
        rw [show (n.log2 + e : ℤ) = 52 + t by omega, zpow_add₀ two_ne_zero]; norm_num
    _ = 2 ^ n.log2 * 2 ^ e := by rw [zpow_add₀ two_ne_zero, zpow_natCast]
    _ ≤ x * 2 ^ e := mul_le_mul_of_nonneg_right (hn.trans hx) (zpow_nonneg two_pos.le e)
    _ = y * 2 ^ t := hy.symm

/-- A number in units of a power of two, in units of another one. -/
theorem mul_zpow_rescale (y : ℚ) (t q : ℤ) : y * 2 ^ t = y * 2 ^ (t - q) * 2 ^ q := by
  rw [mul_assoc, ← zpow_add₀ two_ne_zero, sub_add_cancel]

/-- A number around a double that has 53 digits in a smaller unit lies right below a power of two,
to which it is rounded. -/
theorem carry_of_lt (hd : IsDouble m q) {t : ℤ} {y : ℚ}
    (hv : y * 2 ^ t ∈ (Rounding.ofBinary m q).interval) (hnonneg : 0 ≤ y) (hy : y < 2 ^ 53)
    (hleast : -1074 ≤ t) (hlt : t < q) : m = 2 ^ 52 ∧ t = q - 1 ∧ IsNearest (2 ^ 53) y := by
  rw [mul_zpow_rescale y t q] at hv
  obtain ⟨hlow, -, -⟩ := bounds_of_mem_interval hd.pos hv
  have hhalf : y * 2 ^ (t - q) ≤ y * 2 ^ (-1 : ℤ) :=
    mul_le_mul_of_nonneg_left (zpow_le_zpow_right₀ one_le_two (by omega)) hnonneg
  norm_num at hhalf hy
  have hlt54 : ((Rounding.ofBinary m q).low : ℚ) < 2 ^ 54 := by linarith
  obtain ⟨rfl, hends⟩ := eq_of_low_lt hd (by omega) (by exact_mod_cast hlt54)
  rw [hends] at hlow
  norm_num at hlow
  obtain rfl : t = q - 1 := by
    by_contra hne
    have hquarter : y * 2 ^ (t - q) ≤ y * 2 ^ (-2 : ℤ) :=
      mul_le_mul_of_nonneg_left (zpow_le_zpow_right₀ one_le_two (by omega)) hnonneg
    norm_num at hquarter
    linarith
  refine ⟨rfl, rfl, ?_, fun _ => by decide⟩
  push_cast
  rw [abs_le]
  constructor <;> linarith

/-- A number around a double does not have 53 digits in a larger unit. -/
theorem le_of_mem_interval (hd : IsDouble m q) {t : ℤ} {y : ℚ}
    (hv : y * 2 ^ t ∈ (Rounding.ofBinary m q).interval) (hy : t ≠ -1074 → 2 ^ 52 ≤ y) : t ≤ q := by
  by_contra hgt
  have hy := hy (by have := hd.le_exponent; omega)
  rw [mul_zpow_rescale y t q] at hv
  obtain ⟨-, hhigh, -⟩ := bounds_of_mem_interval hd.pos hv
  have hdouble : y * 2 ^ (1 : ℤ) ≤ y * 2 ^ (t - q) :=
    mul_le_mul_of_nonneg_left (zpow_le_zpow_right₀ one_le_two (by omega)) (by linarith)
  have hm : (m : ℚ) + 1 ≤ 2 ^ 53 := by exact_mod_cast hd.lt
  norm_num at hdouble hy hm
  linarith

/-- A number is rounded to the double that it lies around. The format has to leave at least as many
digits as it rounds to. -/
theorem roundWithAccuracy_eq (hd : IsDouble m q) {acc : Accuracy} {n : ℕ} {e : ℤ}
    (hx : StandsFor (.ofMantissaAndAccuracy n acc) x)
    (he : e ≤ Format.binary64.targetExponent (totalExponent n e))
    (hv : x * 2 ^ e ∈ (Rounding.ofBinary m q).interval) (s : Sign) :
    roundWithAccuracy .binary64 s n e acc = .finite s m q hd.pos := by
  obtain ⟨t, ht⟩ : ∃ t, Format.binary64.targetExponent (totalExponent n e) = t := ⟨_, rfl⟩
  rw [ht] at he
  obtain ⟨em, y, hfirst, hy, hvalue⟩ := shiftToTargetExponent_eq hx ht he
  have hn : (ExtendedMantissa.ofMantissaAndAccuracy n acc).mantissa = n := by
    rcases acc with _ | (_ | _ | _) <;> rfl
  obtain ⟨hfloor, hceil⟩ := hn ▸ hx.mem_Ico
  have hleast : -1074 ≤ t := by rw [← ht, targetExponent_eq]; omega
  rw [← hvalue] at hv
  have hle : t ≤ q :=
    le_of_mem_interval hd hv fun hleast => le_of_shifted hfloor ht he hleast hvalue
  obtain rfl | hlt := hle.eq_or_lt
  -- in the unit of the double the significand is nearest
  · have hround := hy.roundedMantissa_eq (isNearest_of_mem_interval hd.pos hv)
    exact roundWithAccuracy_of_first hd hfirst (by rw [hround, hd.targetExponent_eq]) le_rfl
      (by rw [hround])
  -- in half the unit the mantissa carries, and the second shift drops a zero
  · obtain ⟨rfl, rfl, hnear⟩ := carry_of_lt hd hv ((Nat.cast_nonneg _).trans hy.mem_Ico.1)
      (lt_of_shifted hceil ht hvalue) hleast hlt
    have hround := hy.roundedMantissa_eq hnear
    refine roundWithAccuracy_of_first hd hfirst ?_ hle ?_
    · rw [hround, targetExponent_eq, totalExponent, Nat.log2_two_pow]
      omega
    · rw [hround, zpow_sub₀ two_ne_zero]
      norm_num
      ring

end AdjustableRobust.Decimal
