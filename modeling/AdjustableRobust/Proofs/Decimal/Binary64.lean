import AdjustableRobust.Decimal.Format
import AdjustableRobust.Proofs.Decimal.Rounding

/-!
# Doubles as numbers

A finite double is a signed zero, or a sign with a significand and an exponent. Its bits hold them,
packing and unpacking undo each other, and the content that is printed is read off the same bits.
-/

namespace AdjustableRobust.Decimal

open Float.Model
open Float.Model.UnpackedFloat (Sign packComponents unpackSign unpackMantissa unpackExponent
  unpackMantissa_packComponents unpackExponent_packComponents)

variable {m : ℕ} {q : ℤ}

/-! ## Fields -/

/-- The sign is read from the place where it is put. -/
theorem ofBitVec_unpackSign_packComponents {spec : Format} (s : Sign) (e : BitVec spec.exponentBits)
    (f : BitVec spec.mantissaBitsWithoutImplicit) :
    Sign.ofBitVec (unpackSign (packComponents spec s e f)) = s := by
  have hsign : unpackSign (packComponents spec s e f) = s.toBitVec := by
    ext i hi
    obtain rfl : i = 0 := by omega
    simp [unpackSign, packComponents, BitVec.getLsbD_append, BitVec.getElem_append]
  rw [hsign]
  cases s <;> rfl

/-- The fields follow each other in a double. -/
theorem toNat_packComponents (s : Sign) (e : BitVec 11) (f : BitVec 52) :
    (packComponents .binary64 s e f).toNat =
      s.toBitVec.toNat * 2 ^ 63 + e.toNat * 2 ^ 52 + f.toNat := by
  rw [packComponents, BitVec.toNat_append, BitVec.toNat_append,
    ← Nat.shiftLeft_add_eq_or_of_lt f.isLt, ← Nat.shiftLeft_add_eq_or_of_lt e.isLt,
    Nat.shiftLeft_eq, Nat.shiftLeft_eq]
  ring

/-- A significand with 53 digits is stored without its first digit. -/
theorem pack_normal (hd : IsDouble m q) (hm : 2 ^ 52 ≤ m) (s : Sign) :
    UnpackedFloat.pack .binary64 (.finite s m q hd.pos) =
      packComponents .binary64 s (.ofNat 11 (q + 1075).toNat) (.ofNat 52 m) := by
  have hlog : m.log2 = 52 := (Nat.log2_eq_iff hd.pos.ne').2 ⟨hm, hd.lt⟩
  have hleast := hd.le_exponent
  have hgreatest := hd.exponent_le
  have hbias : (Format.binary64.exponentBias : ℤ) = 1023 := rfl
  have hexponent : (q + Format.binary64.exponentBias +
      Format.binary64.mantissaBitsWithoutImplicit).toNat = (q + 1075).toNat := by
    rw [hbias]
    simp
    omega
  simp only [UnpackedFloat.pack, hexponent, hlog]
  rw [if_neg (by simp; omega), if_pos (by rfl)]

/-- A significand with fewer digits is stored as it stands. -/
theorem pack_subnormal (hd : IsDouble m q) (hm : m < 2 ^ 52) (s : Sign) :
    UnpackedFloat.pack .binary64 (.finite s m q hd.pos) =
      packComponents .binary64 s 0#11 (.ofNat 52 m) := by
  obtain rfl : q = -1074 := hd.normal.resolve_left (by omega)
  have hlog : m.log2 < 52 := (Nat.log2_lt hd.pos.ne').2 hm
  simp only [UnpackedFloat.pack]
  rw [if_neg (by decide), if_neg (by simp [Format.mantissaBits]; omega)]

/-- A double is unpacked as it was packed. -/
theorem unpack_pack (hd : IsDouble m q) (s : Sign) :
    UnpackedFloat.unpack .binary64 (UnpackedFloat.pack .binary64 (.finite s m q hd.pos)) =
      .finite s m q hd.pos := by
  have hpos := hd.pos
  have hlt := hd.lt
  have hleast := hd.le_exponent
  have hgreatest := hd.exponent_le
  rcases lt_or_ge m (2 ^ 52) with hm | hm
  · obtain rfl : q = -1074 := hd.normal.resolve_left (by omega)
    have hfield : (BitVec.ofNat 52 m).toNat = m := by
      rw [BitVec.toNat_ofNat, Nat.mod_eq_of_lt hm]
    have hne : BitVec.ofNat 52 m ≠ 0#52 := by
      rw [← BitVec.toNat_inj.ne, hfield]
      exact hpos.ne'
    rw [pack_subnormal hd hm, UnpackedFloat.unpack]
    simp only [unpackMantissa_packComponents, unpackExponent_packComponents,
      ofBitVec_unpackSign_packComponents, hfield]
    rw [if_neg (by decide), if_pos trivial, dif_neg hne]
    rfl
  · have hfield : (BitVec.ofNat 11 (q + 1075).toNat).toNat = (q + 1075).toNat := by
      rw [BitVec.toNat_ofNat, Nat.mod_eq_of_lt (by omega)]
    have hones : BitVec.ofNat 11 (q + 1075).toNat ≠ -1#11 := by
      rw [← BitVec.toNat_inj.ne, hfield]
      simp
      omega
    have hzero : BitVec.ofNat 11 (q + 1075).toNat ≠ 0#11 := by
      rw [← BitVec.toNat_inj.ne, hfield]
      simp
      omega
    have hsignificand : (1#1 ++ BitVec.ofNat 52 m).toNat = m := by
      rw [BitVec.toNat_append, ← Nat.shiftLeft_add_eq_or_of_lt (BitVec.isLt _),
        BitVec.toNat_ofNat]
      simp [Nat.shiftLeft_eq]
      omega
    rw [pack_normal hd hm, UnpackedFloat.unpack]
    simp only [unpackMantissa_packComponents, unpackExponent_packComponents,
      ofBitVec_unpackSign_packComponents, hfield]
    rw [if_neg hones, if_neg hzero]
    have hbias : (Format.binary64.exponentBias : ℤ) = 1023 := rfl
    congr 1
    rw [hbias]
    simp
    omega

/-! ## Doubles -/

/-- Sign of a number. -/
def signOf (negative : Bool) : Sign := if negative then .negative else .positive

/-- The zero with a sign. -/
def signedZero (negative : Bool) : Float := .ofModel (.pack (.zero (signOf negative)))

/-- The double with a sign, a significand and an exponent. -/
def IsDouble.toFloat (hd : IsDouble m q) (negative : Bool) : Float :=
  .ofModel (.pack (.finite (signOf negative) m q hd.pos))

/-- Doubles with the same bits are equal. -/
theorem eq_of_toNat_toBits {x y : Float} (h : x.toBits.toNat = y.toBits.toNat) : x = y := by
  obtain ⟨⟨bits, hvalid⟩⟩ := x
  obtain ⟨⟨bits', hvalid'⟩⟩ := y
  obtain rfl : bits = bits' := UInt64.toNat_inj.1 h
  rfl

private theorem toNat_signOf (negative : Bool) :
    (signOf negative).toBitVec.toNat = negative.toNat := by
  cases negative <;> rfl

private theorem toNat_toBits_signedZero (negative : Bool) :
    (signedZero negative).toBits.toNat = negative.toNat * 2 ^ 63 := by
  cases negative <;> decide

private theorem IsDouble.toNat_toBits (hd : IsDouble m q) (negative : Bool) :
    (hd.toFloat negative).toBits.toNat = negative.toNat * 2 ^ 63 +
      if m < 2 ^ 52 then m else (q + 1075).toNat * 2 ^ 52 + (m - 2 ^ 52) := by
  have hlt := hd.lt
  have hleast := hd.le_exponent
  have hgreatest := hd.exponent_le
  change (UnpackedFloat.pack .binary64 (.finite (signOf negative) m q hd.pos)).toNat = _
  split
  · next hm =>
    rw [pack_subnormal hd hm, toNat_packComponents, toNat_signOf]
    simp only [BitVec.toNat_ofNat]
    omega
  · next hm =>
    rw [pack_normal hd (not_lt.1 hm), toNat_packComponents, toNat_signOf]
    simp only [BitVec.toNat_ofNat]
    omega

private theorem toNat_unpackExponent (x : Float) :
    (@unpackExponent .binary64 x.toModel.toBits.toBitVec).toNat =
      x.toBits.toNat / 2 ^ 52 % 2 ^ 11 := by
  simp [unpackExponent, Float.toBits, Nat.shiftRight_eq_div_pow]

/-- A double is finite unless all its exponent bits are set. -/
theorem isFinite_iff (x : Float) :
    x.isFinite = true ↔ x.toBits.toNat / 2 ^ 52 % 2 ^ 11 ≠ 2047 := by
  rw [← toNat_unpackExponent, Float.isFinite, Float.Model.isFinite, Float.Model.unpack,
    UnpackedFloat.unpack]
  generalize @unpackExponent .binary64 x.toModel.toBits.toBitVec = v
  have hones : v = -1#_ ↔ v.toNat = 2047 := by
    rw [← BitVec.toNat_inj]
    simp
  split_ifs <;> simp_all [UnpackedFloat.isFinite]

/-- A finite double is a zero, or the number of its content. -/
theorem finite_cases {x : Float} (hx : x.isFinite = true) :
    (∃ negative, x = signedZero negative ∧ Content.ofFloat x = .zero negative) ∨
      ∃ negative m q, ∃ hd : IsDouble m q,
        x = hd.toFloat negative ∧ Content.ofFloat x = .number negative m q := by
  have hfinite := (isFinite_iff x).1 hx
  have hlt : x.toBits.toNat < 2 ^ 64 := x.toBits.toNat_lt
  simp -zeta only [Content.ofFloat]
  extract_lets bits negative exponent fraction
  have hsign : negative.toNat = bits / 2 ^ 63 := by
    have hdigit : bits / 2 ^ 63 = 0 ∨ bits / 2 ^ 63 = 1 := by omega
    have hnegative : negative = (bits / 2 ^ 63 == 1) := rfl
    rcases hdigit with hdigit | hdigit <;> rw [hnegative, hdigit] <;> rfl
  have hexponent : exponent = bits / 2 ^ 52 % 2 ^ 11 := rfl
  have hfraction : fraction = bits % 2 ^ 52 := rfl
  have hbits : x.toBits.toNat = bits := rfl
  have hfinite : ¬ (exponent == 2047) = true := by simpa using hfinite
  clear_value bits negative exponent fraction
  rw [if_neg hfinite]
  split_ifs with hleast hzero
  · refine .inl ⟨negative, eq_of_toNat_toBits ?_, rfl⟩
    rw [beq_iff_eq] at hleast hzero
    rw [toNat_toBits_signedZero]
    omega
  · rw [beq_iff_eq] at hleast hzero
    have hd : IsDouble fraction (-1074) :=
      ⟨by omega, by omega, .inr rfl, le_rfl, by norm_num⟩
    refine .inr ⟨negative, fraction, -1074, hd, eq_of_toNat_toBits ?_, rfl⟩
    rw [hd.toNat_toBits, if_pos (by omega)]
    omega
  · rw [beq_iff_eq] at hleast hfinite
    have hd : IsDouble (2 ^ 52 + fraction) (exponent - 1075) :=
      ⟨by omega, by omega, .inl (by omega), by omega, by omega⟩
    refine .inr ⟨negative, _, _, hd, eq_of_toNat_toBits ?_, rfl⟩
    rw [hd.toNat_toBits, if_neg (by omega)]
    omega

end AdjustableRobust.Decimal
