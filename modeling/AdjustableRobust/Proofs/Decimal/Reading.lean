import AdjustableRobust.Proofs.Decimal.Binary64

/-!
# Reading decimals

A decimal is read as the double that it lies around. It is multiplied or divided by a power of ten
with enough digits to round once: small decimals by a table of exact powers, all others by the power
as a whole number. The bounds that keep the powers small exclude no decimal around a finite double.
-/

namespace AdjustableRobust.Decimal

open Float.Model
open Float.Model.UnpackedFloat (Sign ExtendedMantissa accuracyOfFraction divCore)

variable {m : ℕ} {q : ℤ}

/-! ## Products and quotients -/

/-- A product is rounded to the double that it lies around. -/
theorem mul_eq (hd : IsDouble m q) {m₁ m₂ : ℕ} {e₁ e₂ : ℤ} (h₁ : 0 < m₁) (h₂ : 0 < m₂)
    (hdigits : 2 ^ 52 ≤ m₁ * m₂)
    (hv : (m₁ * 2 ^ e₁ * (m₂ * 2 ^ e₂) : ℚ) ∈ (Rounding.ofBinary m q).interval) (s₁ s₂ : Sign) :
    UnpackedFloat.mul .binary64 (.finite s₁ m₁ e₁ h₁) (.finite s₂ m₂ e₂ h₂) =
      .finite (s₁ * s₂) m q hd.pos := by
  have hlog : 52 ≤ (m₁ * m₂).log2 := (Nat.le_log2 (Nat.mul_pos h₁ h₂).ne').2 hdigits
  refine roundWithAccuracy_eq hd (standsFor_exact _) ?_ ?_ _
  · rw [targetExponent_eq, totalExponent]
    omega
  · rwa [Nat.cast_mul, zpow_add₀ two_ne_zero, mul_mul_mul_comm]

/-- What follows the mantissa, compared to a half. -/
theorem standsFor_inexact (n : ℕ) {rest : ℚ} (hpos : 0 < rest) (hlt : rest < 1) {order : Ordering}
    (horder : compare rest (1 / 2) = order) :
    StandsFor (.ofMantissaAndAccuracy n (.inexact order)) (n + rest) := by
  cases order with
  | lt =>
    have hbelow := compare_lt_iff_lt.1 horder
    exact ⟨rest, hpos.le, hbelow, iff_of_true rfl hpos.ne', by
      simp [ExtendedMantissa.ofMantissaAndAccuracy]⟩
  | eq =>
    obtain rfl := compare_eq_iff_eq.1 horder
    exact ⟨0, le_rfl, by norm_num, by simp [ExtendedMantissa.ofMantissaAndAccuracy], by
      simp [ExtendedMantissa.ofMantissaAndAccuracy]⟩
  | gt =>
    have habove := compare_gt_iff_gt.1 horder
    exact ⟨rest - 1 / 2, by linarith, by linarith, iff_of_true rfl (by linarith), by
      simp [ExtendedMantissa.ofMantissaAndAccuracy]⟩

/-- A quotient stands for the fraction, with the accuracy of its remainder. -/
theorem standsFor_div (n : ℕ) {d : ℕ} (hd : 0 < d) :
    StandsFor (.ofMantissaAndAccuracy (n / d) (accuracyOfFraction (n % d) d)) (n / d : ℚ) := by
  have hpos : (0 : ℚ) < d := Nat.cast_pos.2 hd
  have hdivide : (n : ℚ) = d * (n / d : ℕ) + (n % d : ℕ) := by
    exact_mod_cast (Nat.div_add_mod n d).symm
  have hsplit : (n / d : ℚ) = (n / d : ℕ) + (n % d : ℕ) / d := by
    rw [hdivide, add_div, mul_div_cancel_left₀ _ hpos.ne']
  rw [hsplit, accuracyOfFraction]
  split
  · next hzero =>
    rw [hzero, Nat.cast_zero, zero_div, add_zero]
    exact standsFor_exact _
  · next hne =>
    refine standsFor_inexact _ (div_pos (Nat.cast_pos.2 (Nat.pos_of_ne_zero hne)) hpos)
      ((div_lt_one hpos).2 (Nat.cast_lt.2 (Nat.mod_lt n hd))) ?_
    rw [compare_iff]
    cases horder : compare (2 * (n % d)) d with
    | lt =>
      have hlt : (2 * (n % d : ℕ) : ℚ) < d := by exact_mod_cast compare_lt_iff_lt.1 horder
      exact (div_lt_div_iff₀ hpos two_pos).2 (by linarith)
    | eq =>
      have heq : (2 * (n % d : ℕ) : ℚ) = d := by exact_mod_cast compare_eq_iff_eq.1 horder
      exact (div_eq_div_iff hpos.ne' two_ne_zero).2 (by linarith)
    | gt =>
      have hgt : (d : ℚ) < 2 * (n % d : ℕ) := by exact_mod_cast compare_gt_iff_gt.1 horder
      exact (div_lt_div_iff₀ two_pos hpos).2 (by linarith)

/-- A dividend with enough more digits than the divisor leaves a quotient of 53 digits. -/
theorem le_div_of_log2 {m₁ m₂ n : ℕ} (h₁ : 0 < m₁) (h₂ : 0 < m₂)
    (hdigits : m₂.log2 + 53 ≤ m₁.log2 + n) : 2 ^ 52 ≤ m₁ * 2 ^ n / m₂ := by
  rw [Nat.le_div_iff_mul_le h₂]
  calc 2 ^ 52 * m₂ ≤ 2 ^ 52 * 2 ^ (m₂.log2 + 1) := Nat.mul_le_mul_left _ Nat.lt_log2_self.le
    _ = 2 ^ (m₂.log2 + 53) := by rw [← pow_add, Nat.add_comm, Nat.add_assoc]
    _ ≤ 2 ^ (m₁.log2 + n) := Nat.pow_le_pow_right two_pos hdigits
    _ = 2 ^ m₁.log2 * 2 ^ n := pow_add _ _ _
    _ ≤ m₁ * 2 ^ n := Nat.mul_le_mul_right _ (Nat.log2_self_le h₁.ne')

/-- A quotient is rounded to the double that it lies around. -/
theorem div_eq (hd : IsDouble m q) {m₁ m₂ : ℕ} {e₁ e₂ : ℤ} (h₁ : 0 < m₁) (h₂ : 0 < m₂)
    (hv : (m₁ * 2 ^ e₁ / (m₂ * 2 ^ e₂) : ℚ) ∈ (Rounding.ofBinary m q).interval) (s₁ s₂ : Sign) :
    UnpackedFloat.div .binary64 (.finite s₁ m₁ e₁ h₁) (.finite s₂ m₂ e₂ h₂) =
      .finite (s₁ / s₂) m q hd.pos := by
  obtain ⟨e, he⟩ : ∃ e, min (e₁ - e₂) (Format.binary64.targetExponent
    (totalExponent m₁ e₁ - totalExponent m₂ e₂)) = e := ⟨_, rfl⟩
  obtain ⟨n, hn⟩ : ∃ n : ℕ, e₁ - e₂ - e = n := Int.eq_ofNat_of_zero_le (by omega)
  rw [UnpackedFloat.div]
  simp only [divCore, he, hn, Int.toNat_natCast, Nat.shiftLeft_eq]
  refine roundWithAccuracy_eq hd (standsFor_div _ h₂) ?_ ?_ _
  · simp only [targetExponent_eq, totalExponent] at he ⊢
    by_cases hleast : e ≤ -1074
    · omega
    · have hquotient : 2 ^ 52 ≤ m₁ * 2 ^ n / m₂ := le_div_of_log2 h₁ h₂ (by omega)
      have hlog : 52 ≤ (m₁ * 2 ^ n / m₂).log2 := (Nat.le_log2 (by omega)).2 hquotient
      omega
  · obtain rfl : e = e₁ - e₂ - n := by omega
    convert hv using 1
    rw [zpow_sub₀ two_ne_zero, zpow_sub₀ two_ne_zero, zpow_natCast]
    push_cast
    have h₂ : (m₂ : ℚ) ≠ 0 := Nat.cast_ne_zero.2 h₂.ne'
    field_simp

/-! ## Decimals -/

/-- The numbers that round to a double lie between the least and the greatest ones. -/
theorem bounds_of_isDouble (hd : IsDouble m q) {v : ℚ}
    (hv : v ∈ (Rounding.ofBinary m q).interval) : 2 ^ (-1075 : ℤ) ≤ v ∧ v < 2 ^ (1024 : ℤ) := by
  obtain ⟨hlow, hhigh⟩ := Rounding.interval_subset _ hv
  have hpos : (0 : ℚ) < 2 ^ (q - 2) := zpow_pos two_pos _
  have hleast := hd.le_exponent
  have hgreatest := hd.exponent_le
  have hm : (m : ℚ) + 1 ≤ 2 ^ 53 := by exact_mod_cast hd.lt
  have hm' : (1 : ℚ) ≤ m := by exact_mod_cast hd.pos
  constructor
  · calc (2 : ℚ) ^ (-1075 : ℤ) ≤ 2 ^ (1 + (q - 2)) := zpow_le_zpow_right₀ one_le_two (by omega)
      _ = 2 * 2 ^ (q - 2) := by rw [zpow_add₀ two_ne_zero, zpow_one]
      _ ≤ (Rounding.ofBinary m q).low * 2 ^ (q - 2) :=
        mul_le_mul_of_nonneg_right (by have := le_low_ofBinary (q := q) hd.pos; linarith) hpos.le
      _ ≤ v := hlow
  · calc v ≤ (Rounding.ofBinary m q).high * 2 ^ (q - 2) := hhigh
      _ < 2 ^ (55 : ℤ) * 2 ^ (q - 2) :=
        mul_lt_mul_of_pos_right (by rw [high_ofBinary]; norm_num at hm ⊢; linarith) hpos
      _ = 2 ^ (55 + (q - 2)) := by rw [zpow_add₀ two_ne_zero]
      _ ≤ 2 ^ (1024 : ℤ) := zpow_le_zpow_right₀ one_le_two (by omega)

/-- The exponent of a decimal around a double is not out of range. -/
theorem exponent_of_mem_interval (hd : IsDouble m q) {n : ℕ} (hn : 0 < n) {e : ℤ}
    (hv : (n * 10 ^ e : ℚ) ∈ (Rounding.ofBinary m q).interval) :
    ¬ e > 2 ^ 11 ∧ ¬ e < -(2 ^ 11 + n.log2) := by
  obtain ⟨hlow, hhigh⟩ := bounds_of_isDouble hd hv
  have hn' : (1 : ℚ) ≤ n := by exact_mod_cast hn
  have hpos : (0 : ℚ) < 10 ^ e := zpow_pos (by norm_num) e
  constructor
  · intro hlarge
    refine hhigh.not_ge ?_
    calc (2 : ℚ) ^ (1024 : ℤ) ≤ 2 ^ e := zpow_le_zpow_right₀ one_le_two (by omega)
      _ ≤ 10 ^ e := zpow_le_zpow_left₀ (by omega) two_pos.le (by norm_num)
      _ ≤ n * 10 ^ e := le_mul_of_one_le_left hpos.le hn'
  · intro hsmall
    refine hlow.not_gt ?_
    have hlog : (n : ℚ) < 2 ^ (n.log2 + 1) := by exact_mod_cast Nat.lt_log2_self
    calc (n * 10 ^ e : ℚ) < 2 ^ (n.log2 + 1) * 10 ^ e := mul_lt_mul_of_pos_right hlog hpos
      _ ≤ 2 ^ (n.log2 + 1) * 2 ^ e :=
        mul_le_mul_of_nonneg_left (zpow_ten_le_zpow_two (by omega) (by omega)) (by positivity)
      _ = 2 ^ ((n.log2 + 1 : ℕ) + e) := by rw [zpow_add₀ two_ne_zero, zpow_natCast]
      _ ≤ 2 ^ (-1075 : ℤ) := zpow_le_zpow_right₀ one_le_two (by push_cast; omega)

/-- A decimal is converted to the double that it lies around. -/
theorem ofScientific_model_eq (hd : IsDouble m q) {n : ℕ} (hn : 0 < n) {e : ℤ}
    (hv : (n * 10 ^ e : ℚ) ∈ (Rounding.ofBinary m q).interval) :
    UnpackedFloat.ofScientific .binary64 n e = .finite .positive m q hd.pos := by
  obtain ⟨hlarge, hsmall⟩ := exponent_of_mem_interval hd hn hv
  rw [UnpackedFloat.ofScientific, dif_neg hn.ne', if_neg hlarge, if_neg hsmall]
  split
  · next hwhole =>
    obtain ⟨k, rfl⟩ := Int.eq_ofNat_of_zero_le hwhole
    have hshift : n <<< Format.binary64.mantissaBits = n * 2 ^ 53 := Nat.shiftLeft_eq n 53
    refine mul_eq hd _ _ ?_ ?_ _ _
    · rw [hshift, Int.toNat_natCast]
      calc 2 ^ 52 ≤ 1 * 2 ^ 53 * 1 := by norm_num
        _ ≤ n * 2 ^ 53 * 10 ^ k :=
          Nat.mul_le_mul (Nat.mul_le_mul_right _ hn) (Nat.pow_pos (by decide))
    · convert hv using 1
      rw [hshift, Int.toNat_natCast, zpow_natCast]
      have hbits : (-(Format.binary64.mantissaBits : ℤ)) = -53 := rfl
      rw [hbits]
      push_cast
      norm_num
      ring
  · next hfraction =>
    obtain ⟨k, rfl⟩ := Int.exists_eq_neg_ofNat (not_le.1 hfraction).le
    refine div_eq hd _ _ ?_ _ _
    convert hv using 1
    rw [neg_neg, Int.toNat_natCast, zpow_neg, zpow_natCast]
    push_cast
    rw [mul_one, mul_one, div_eq_mul_inv]

/-! ## Whole numbers and powers of ten -/

/-- Digits are moved to a significand until it has 53 of them. -/
theorem le_shiftLeft {n : ℕ} (hn : 0 < n) (hlog : n.log2 ≤ 52) : 2 ^ 52 ≤ n * 2 ^ (52 - n.log2) :=
  calc 2 ^ 52 = 2 ^ n.log2 * 2 ^ (52 - n.log2) := by rw [← pow_add, Nat.add_sub_cancel' hlog]
    _ ≤ n * 2 ^ (52 - n.log2) := Nat.mul_le_mul_right _ (Nat.log2_self_le hn.ne')

/-- Significand and exponent of a number below `2 ^ 53` times a power of two. -/
theorem isDouble_shiftLeft {n : ℕ} (hn : 0 < n) (hlog : n.log2 ≤ 52) {k : ℤ} (hk : 0 ≤ k)
    (hk' : k ≤ 22) : IsDouble (n * 2 ^ (52 - n.log2)) (k + n.log2 - 52) := by
  refine ⟨by positivity, ?_, .inl (le_shiftLeft hn hlog), by omega, by omega⟩
  calc n * 2 ^ (52 - n.log2) < 2 ^ (n.log2 + 1) * 2 ^ (52 - n.log2) :=
        Nat.mul_lt_mul_of_pos_right Nat.lt_log2_self (by positivity)
    _ = 2 ^ 53 := by rw [← pow_add]; congr 1; omega

/-- Moving digits from the exponent to the significand keeps the number. -/
theorem mul_zpow_shiftLeft (n : ℕ) {l : ℕ} (hl : l ≤ 52) (k : ℤ) :
    ((n * 2 ^ (52 - l) : ℕ) * 2 ^ (k + l - 52) : ℚ) = n * 2 ^ k := by
  rw [Nat.cast_mul, Nat.cast_pow, ← zpow_natCast, mul_assoc, Nat.cast_ofNat,
    ← zpow_add₀ two_ne_zero]
  congr 2
  omega

/-- A whole number below `2 ^ 53` is converted without rounding. -/
theorem toFloat_eq {n : ℕ} (hn : 0 < n) (hlt : n < 2 ^ 53) :
    ∃ m q, ∃ hd : IsDouble m q, 2 ^ 52 ≤ m ∧ n.toUInt64.toFloat = hd.toFloat false ∧
      (m * 2 ^ q : ℚ) = n := by
  have hlog : n.log2 ≤ 52 := Nat.le_of_lt_succ ((Nat.log2_lt hn.ne').2 hlt)
  have hd := isDouble_shiftLeft hn hlog le_rfl (by norm_num)
  refine ⟨_, _, hd, le_shiftLeft hn hlog, ?_, by simpa using mul_zpow_shiftLeft n hlog 0⟩
  have hconvert : UnpackedFloat.ofUInt64 .binary64 n.toUInt64 =
      .finite .positive (n * 2 ^ (52 - n.log2)) (0 + n.log2 - 52) hd.pos := by
    have hnat : n.toUInt64.toNat = n := by
      rw [Nat.toUInt64, UInt64.toNat_ofNat', Nat.mod_eq_of_lt (by omega)]
    have hcompare : compare (n : ℤ) 0 = .gt := compare_gt_iff_gt.2 (by omega)
    have hshift : (0 - Format.binary64.targetExponent (totalExponent n 0)).toNat = 52 - n.log2 := by
      rw [targetExponent_eq, totalExponent]
      omega
    rw [UnpackedFloat.ofUInt64, hnat, UnpackedFloat.ofNat, UnpackedFloat.ofInt,
      UnpackedFloat.normalize, hcompare]
    have hexponent : 0 - ((52 - n.log2 : ℕ) : ℤ) = 0 + n.log2 - 52 := by omega
    simp only [UnpackedFloat.round, UnpackedFloat.decreaseExponent, Int.toNat_natCast, hshift,
      Nat.shiftLeft_eq, hexponent]
    exact roundWithAccuracy_eq hd (standsFor_exact _) hd.targetExponent_eq.ge
      (mem_interval_self hd.pos _) _
  rw [UInt64.toFloat, Float.Model.ofUInt64, hconvert]
  rfl

private theorem exactlyRepresentablePowersOfTen_eq :
    ∀ e (_ : e < Float.exactlyRepresentablePowersOfTen.size),
      Float.exactlyRepresentablePowersOfTen[e] =
        .ofModel (.pack (.finite .positive (5 ^ e * 2 ^ (52 - (5 ^ e).log2))
          (e + (5 ^ e).log2 - 52)
          (Nat.mul_pos (Nat.pow_pos (by decide)) (Nat.two_pow_pos _)))) := by
  decide +kernel

/-- Every entry of the table of powers of ten is a power of ten. -/
theorem powerOfTen_eq {e : ℕ} (he : e < Float.exactlyRepresentablePowersOfTen.size) :
    ∃ m q, ∃ hd : IsDouble m q, Float.exactlyRepresentablePowersOfTen[e] = hd.toFloat false ∧
      (m * 2 ^ q : ℚ) = 10 ^ e := by
  have he' : e < 23 := he
  have hpos : 0 < 5 ^ e := Nat.pow_pos (by decide)
  have hlog : (5 ^ e).log2 ≤ 52 := by
    have hle : 5 ^ e ≤ 5 ^ 22 := Nat.pow_le_pow_right (by decide) (Nat.le_of_lt_succ he')
    exact Nat.le_of_lt_succ ((Nat.log2_lt hpos.ne').2 (hle.trans_lt (by decide)))
  refine ⟨_, _, isDouble_shiftLeft hpos hlog (Int.natCast_nonneg e) (by omega),
    exactlyRepresentablePowersOfTen_eq e he, ?_⟩
  rw [mul_zpow_shiftLeft _ hlog]
  push_cast
  rw [zpow_natCast, ← mul_pow]
  norm_num

/-! ## Operations on doubles -/

/-- Parts of a double. -/
theorem IsDouble.unpack_toFloat (hd : IsDouble m q) (negative : Bool) :
    (hd.toFloat negative).toModel.unpack = .finite (signOf negative) m q hd.pos :=
  unpack_pack hd _

/-- A negated double has the other sign. -/
theorem IsDouble.neg_toFloat (hd : IsDouble m q) : -hd.toFloat false = hd.toFloat true := by
  change Float.ofModel (.pack (UnpackedFloat.neg _)) = _
  rw [hd.unpack_toFloat]
  rfl

/-- The product of two doubles is the double that it lies around. -/
theorem IsDouble.toFloat_mul (hd : IsDouble m q) {m₁ m₂ : ℕ} {q₁ q₂ : ℤ} (hd₁ : IsDouble m₁ q₁)
    (hd₂ : IsDouble m₂ q₂) (hdigits : 2 ^ 52 ≤ m₁)
    (hv : (m₁ * 2 ^ q₁ * (m₂ * 2 ^ q₂) : ℚ) ∈ (Rounding.ofBinary m q).interval) :
    hd₁.toFloat false * hd₂.toFloat false = hd.toFloat false := by
  change Float.ofModel (.pack (UnpackedFloat.mul .binary64 _ _)) = _
  rw [hd₁.unpack_toFloat, hd₂.unpack_toFloat, mul_eq hd hd₁.pos hd₂.pos
    (hdigits.trans (Nat.le_mul_of_pos_right m₁ hd₂.pos)) hv]
  rfl

/-- The quotient of two doubles is the double that it lies around. -/
theorem IsDouble.toFloat_div (hd : IsDouble m q) {m₁ m₂ : ℕ} {q₁ q₂ : ℤ} (hd₁ : IsDouble m₁ q₁)
    (hd₂ : IsDouble m₂ q₂)
    (hv : (m₁ * 2 ^ q₁ / (m₂ * 2 ^ q₂) : ℚ) ∈ (Rounding.ofBinary m q).interval) :
    hd₁.toFloat false / hd₂.toFloat false = hd.toFloat false := by
  change Float.ofModel (.pack (UnpackedFloat.div .binary64 _ _)) = _
  rw [hd₁.unpack_toFloat, hd₂.unpack_toFloat, div_eq hd hd₁.pos hd₂.pos hv]
  rfl

/-- A decimal is converted to the double that it lies around, by either way. -/
theorem ofScientific_eq (hd : IsDouble m q) {n e : ℕ} (hn : 0 < n) (s : Bool)
    (hv : (n * 10 ^ (if s then -(e : ℤ) else e) : ℚ) ∈ (Rounding.ofBinary m q).interval) :
    Float.ofScientific n s e = hd.toFloat false := by
  rw [Float.ofScientific]
  split
  · next hfast =>
    have he : e < Float.exactlyRepresentablePowersOfTen.size := Nat.lt_succ_of_le hfast.2
    obtain ⟨m₁, q₁, hd₁, hnormal, heq₁, hvalue₁⟩ := toFloat_eq hn hfast.1
    obtain ⟨m₂, q₂, hd₂, heq₂, hvalue₂⟩ := powerOfTen_eq he
    dsimp only
    rw [heq₁, heq₂]
    cases s with
    | true =>
      rw [if_pos rfl, zpow_neg, zpow_natCast, ← hvalue₁, ← hvalue₂, ← div_eq_mul_inv] at hv
      exact (if_pos rfl).trans (hd.toFloat_div hd₁ hd₂ hv)
    | false =>
      rw [if_neg (by decide), zpow_natCast, ← hvalue₁, ← hvalue₂] at hv
      exact (if_neg (by decide)).trans (hd.toFloat_mul hd₁ hd₂ hnormal hv)
  · next hslow =>
    have hexponent : (if s then Int.negOfNat e else Int.ofNat e) = if s then -(e : ℤ) else e := by
      cases s with
      | true => exact Int.negOfNat_eq
      | false => rfl
    dsimp only
    rw [hexponent, Float.Model.ofScientific, ofScientific_model_eq hd hn hv]
    rfl

/-! ## Scalars -/

/-- The digits of a number are counted by powers of ten. -/
theorem bounds_length_toDigits {n : ℕ} (hn : 0 < n) :
    10 ^ ((Nat.toDigits 10 n).length - 1) ≤ n ∧ n < 10 ^ (Nat.toDigits 10 n).length := by
  have hlength : 0 < (Nat.toDigits 10 n).length := Nat.length_toDigits_pos
  refine ⟨?_, (Nat.length_toDigits_le_iff (by decide) hlength).1 le_rfl⟩
  obtain hone | hmore := Nat.eq_or_lt_of_le (Nat.succ_le_of_lt hlength)
  · rw [← hone]
    exact hn
  · refine not_lt.1 fun hlt => ?_
    have := (Nat.length_toDigits_le_iff (by decide) (by omega)).2 hlt
    omega

/-- The first digit of a decimal around a double is not out of range. -/
theorem first_of_mem_interval (hd : IsDouble m q) {n : ℕ} (hn : 0 < n) {e : ℤ}
    (hv : (n * 10 ^ e : ℚ) ∈ (Rounding.ofBinary m q).interval) :
    ¬ 400 < (Nat.toDigits 10 n).length + e ∧ ¬ (Nat.toDigits 10 n).length + e < -400 := by
  obtain ⟨hlow, hhigh⟩ := bounds_of_isDouble hd hv
  obtain ⟨hleast, hgreatest⟩ := bounds_length_toDigits hn
  have hlength : 0 < (Nat.toDigits 10 n).length := Nat.length_toDigits_pos
  generalize (Nat.toDigits 10 n).length = l at *
  have hten : (10 : ℚ) ≠ 0 := by norm_num
  have hpos : (0 : ℚ) < 10 ^ e := zpow_pos (by norm_num) e
  constructor
  · intro hlarge
    refine hhigh.not_ge ?_
    calc (2 : ℚ) ^ (1024 : ℤ) ≤ 2 ^ (3 * 400 : ℤ) := zpow_le_zpow_right₀ one_le_two (by norm_num)
      _ = (2 ^ (3 : ℤ)) ^ (400 : ℤ) := by rw [zpow_mul]
      _ ≤ 10 ^ (400 : ℤ) := zpow_le_zpow_left₀ (by norm_num) (by norm_num) (by norm_num)
      _ ≤ 10 ^ ((l - 1 : ℕ) + e) := zpow_le_zpow_right₀ (by norm_num) (by omega)
      _ = (10 ^ (l - 1) : ℕ) * 10 ^ e := by rw [zpow_add₀ hten, zpow_natCast]; push_cast; rfl
      _ ≤ n * 10 ^ e := mul_le_mul_of_nonneg_right (Nat.cast_le.2 hleast) hpos.le
  · intro hsmall
    refine hlow.not_gt ?_
    calc (n * 10 ^ e : ℚ) < (10 ^ l : ℕ) * 10 ^ e :=
          mul_lt_mul_of_pos_right (Nat.cast_lt.2 hgreatest) hpos
      _ = 10 ^ (l + e : ℤ) := by rw [zpow_add₀ hten, zpow_natCast]; push_cast; rfl
      _ ≤ 2 ^ (-1075 : ℤ) := zpow_ten_le_zpow_two (by omega) (by omega)

/-- A decimal is read as the double that it lies around. -/
theorem toFloat_of_mem_interval (hd : IsDouble m q) {n : ℕ} {e : ℤ}
    (hv : (n * 10 ^ e : ℚ) ∈ (Rounding.ofBinary m q).interval) (negative : Bool) :
    toFloat negative n e = hd.toFloat negative := by
  have hn : 0 < n := by
    refine Nat.pos_of_ne_zero fun hzero => ?_
    have hlow := (bounds_of_isDouble hd hv).1
    rw [hzero, Nat.cast_zero, zero_mul] at hlow
    exact hlow.not_gt (zpow_pos two_pos _)
  obtain ⟨hlarge, hsmall⟩ := first_of_mem_interval hd hn hv
  have hexponent : (if decide (e < 0) then -(e.natAbs : ℤ) else e.natAbs) = e := by
    split
    · next h =>
      have := of_decide_eq_true h
      omega
    · next h =>
      have := of_decide_eq_false (Bool.eq_false_iff.2 h)
      omega
  have hread : Float.ofScientific n (e < 0) e.natAbs = hd.toFloat false :=
    ofScientific_eq hd hn _ (by rwa [hexponent])
  simp only [toFloat]
  rw [if_neg hn.ne', if_neg hlarge, if_neg hsmall, hread]
  cases negative with
  | false => rfl
  | true => exact hd.neg_toFloat

/-- Zero is read with its sign. -/
theorem toFloat_zero (negative : Bool) (e : ℤ) : toFloat negative 0 e = signedZero negative := by
  simp only [toFloat, if_pos]
  cases negative with
  | false => decide +kernel
  | true => decide +kernel

end AdjustableRobust.Decimal
