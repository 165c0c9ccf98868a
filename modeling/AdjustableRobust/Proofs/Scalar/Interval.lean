import AdjustableRobust.Proofs.Scalar.Real
import Mathlib.Data.EReal.Inv

/-!
# Ranges of reals

A range contains the reals between its ends, which may be infinite. A multiple of a range contains
the multiples of what the range contains, a product of ranges contains the products, and the norm of
the largest magnitudes bounds the norm. Sums, multiples and signs are treated for both ends at once.
-/

namespace AdjustableRobust

/-! ## Order -/

namespace Extended

@[simp] theorem finite_le_finite {x y : ℝ} : Extended.finite x ≤ .finite y ↔ x ≤ y := by
  change (decide (x < y) || decide (x = y)) = true ↔ _
  rw [Bool.or_eq_true, decide_eq_true_eq, decide_eq_true_eq, le_iff_lt_or_eq]

@[simp] theorem negInf_le_finite (x : ℝ) : Extended.negInf ≤ .finite x := rfl

@[simp] theorem finite_le_posInf (x : ℝ) : Extended.finite x ≤ .posInf := rfl

/-- What is at most a real is a real or minus infinity. -/
theorem le_finite_iff {e : Extended ℝ} {x : ℝ} :
    e ≤ .finite x ↔ e = .negInf ∨ ∃ y, e = .finite y ∧ y ≤ x := by
  cases e with
  | finite y => simp
  | negInf => simp
  | posInf => exact iff_of_false Bool.false_ne_true (by simp)
  | undefined => exact iff_of_false Bool.false_ne_true (by simp)

/-- What is at least a real is a real or infinity. -/
theorem finite_le_iff {e : Extended ℝ} {x : ℝ} :
    .finite x ≤ e ↔ e = .posInf ∨ ∃ y, e = .finite y ∧ x ≤ y := by
  cases e with
  | finite y => simp
  | posInf => simp
  | negInf => exact iff_of_false Bool.false_ne_true (by simp)
  | undefined => exact iff_of_false Bool.false_ne_true (by simp)

/-- What is at most a real is at most a larger one. -/
theorem le_finite_trans {e : Extended ℝ} {x y : ℝ} (he : e ≤ .finite x) (hxy : x ≤ y) :
    e ≤ .finite y := by
  obtain rfl | ⟨z, rfl, hz⟩ := le_finite_iff.1 he
  · exact negInf_le_finite y
  · exact finite_le_finite.2 (hz.trans hxy)

/-- What is at least a real is at least a smaller one. -/
theorem finite_le_trans {e : Extended ℝ} {x y : ℝ} (hyx : y ≤ x) (he : .finite x ≤ e) :
    .finite y ≤ e := by
  obtain rfl | ⟨z, rfl, hz⟩ := finite_le_iff.1 he
  · exact finite_le_posInf y
  · exact finite_le_finite.2 (hyx.trans hz)

/-- What is below infinity is a real or minus infinity. -/
theorem lt_posInf_iff {e : Extended ℝ} : e < .posInf ↔ e = .negInf ∨ ∃ y, e = .finite y := by
  cases e with
  | finite y => exact iff_of_true rfl (.inr ⟨y, rfl⟩)
  | negInf => exact iff_of_true rfl (.inl rfl)
  | posInf => exact iff_of_false Bool.false_ne_true (by simp)
  | undefined => exact iff_of_false Bool.false_ne_true (by simp)

/-- What is above minus infinity is a real or infinity. -/
theorem negInf_lt_iff {e : Extended ℝ} : .negInf < e ↔ e = .posInf ∨ ∃ y, e = .finite y := by
  cases e with
  | finite y => exact iff_of_true rfl (.inr ⟨y, rfl⟩)
  | posInf => exact iff_of_true rfl (.inl rfl)
  | negInf => exact iff_of_false Bool.false_ne_true (by simp)
  | undefined => exact iff_of_false Bool.false_ne_true (by simp)

end Extended

/-! ## Sides -/

/-- A side from which a value is bounded. -/
inductive Side where
  | lower
  | upper

namespace Side

/-- The opposite side. -/
def flip : Side → Side
  | .lower => .upper
  | .upper => .lower

/-- What bounds nothing. -/
def infinity : Side → Extended ℝ
  | .lower => .negInf
  | .upper => .posInf

/-- A real bounds another one. -/
def Limits : Side → ℝ → ℝ → Prop
  | .lower, y, x => y ≤ x
  | .upper, y, x => x ≤ y

/-- An extended real bounds a real. -/
def Bounds : Side → Extended ℝ → ℝ → Prop
  | .lower, e, x => e ≤ .finite x
  | .upper, e, x => .finite x ≤ e

/-- An extended real can be a bound: if it is infinite, then it bounds nothing. -/
def Admits : Side → Extended ℝ → Prop
  | .lower, e => e < .posInf
  | .upper, e => .negInf < e

variable {side : Side} {e e' : Extended ℝ} {c x x' y y' : ℝ}

private theorem bounds_iff :
    side.Bounds e x ↔ e = side.infinity ∨ ∃ y, e = .finite y ∧ side.Limits y x :=
  match side with
  | .lower => Extended.le_finite_iff
  | .upper => Extended.finite_le_iff

/-- An end can be a bound when the infinity on the other side is excluded. -/
theorem admits_iff : side.Admits e ↔ e = side.infinity ∨ ∃ y, e = .finite y :=
  match side with
  | .lower => Extended.lt_posInf_iff
  | .upper => Extended.negInf_lt_iff

/-- What bounds a value can be a bound. -/
theorem Bounds.admits (h : side.Bounds e x) : side.Admits e := by
  obtain h | ⟨y, h, -⟩ := bounds_iff.1 h
  · exact admits_iff.2 (.inl h)
  · exact admits_iff.2 (.inr ⟨y, h⟩)

/-- A real can be a bound. -/
theorem admits_finite (side : Side) (x : ℝ) : side.Admits (.finite x) :=
  admits_iff.2 (.inr ⟨x, rfl⟩)

/-- A real bounds itself. -/
theorem bounds_self (side : Side) (x : ℝ) : side.Bounds (.finite x) x := by
  cases side <;> exact Extended.finite_le_finite.2 le_rfl

/-- A finite end bounds in the order of the reals. -/
theorem bounds_finite_iff : side.Bounds (.finite y) x ↔ side.Limits y x := by
  cases side <;> exact Extended.finite_le_finite

private theorem infinity_ne_finite (side : Side) (x : ℝ) : side.infinity ≠ .finite x := by
  cases side <;> simp [infinity]

/-! ### Sums -/

private theorem infinity_add_infinity (side : Side) :
    (side.infinity + side.infinity : Extended ℝ) = side.infinity := by
  cases side <;> rfl

private theorem infinity_add_finite (side : Side) (x : ℝ) :
    (side.infinity + .finite x : Extended ℝ) = side.infinity := by
  cases side <;> rfl

private theorem finite_add_infinity (side : Side) (x : ℝ) :
    (.finite x + side.infinity : Extended ℝ) = side.infinity := by
  cases side <;> rfl

/-- The sum of limits is a limit of the sum. -/
theorem Limits.add (h : side.Limits y x) (h' : side.Limits y' x') :
    side.Limits (y + y') (x + x') := by
  cases side <;> exact add_le_add h h'

/-- The sum of bounds bounds the sum. -/
theorem Bounds.add (h : side.Bounds e x) (h' : side.Bounds e' x') :
    side.Bounds (e + e') (x + x') := by
  obtain rfl | ⟨y, rfl, hy⟩ := bounds_iff.1 h <;> obtain rfl | ⟨y', rfl, hy'⟩ := bounds_iff.1 h'
  · exact bounds_iff.2 (.inl side.infinity_add_infinity)
  · exact bounds_iff.2 (.inl (side.infinity_add_finite y'))
  · exact bounds_iff.2 (.inl (side.finite_add_infinity y))
  · exact bounds_iff.2 (.inr ⟨y + y', Extended.finite_add_finite y y', hy.add hy'⟩)

/-- The sum of two bounds can be a bound. -/
theorem Admits.add (h : side.Admits e) (h' : side.Admits e') : side.Admits (e + e') := by
  obtain rfl | ⟨y, rfl⟩ := admits_iff.1 h <;> obtain rfl | ⟨y', rfl⟩ := admits_iff.1 h'
  · exact admits_iff.2 (.inl side.infinity_add_infinity)
  · exact admits_iff.2 (.inl (side.infinity_add_finite y'))
  · exact admits_iff.2 (.inl (side.finite_add_infinity y))
  · exact admits_iff.2 (.inr ⟨y + y', Extended.finite_add_finite y y'⟩)

/-- A sum is a real only when both summands are. -/
theorem add_eq_finite (h : side.Admits e) (h' : side.Admits e') (hsum : e + e' = .finite x) :
    ∃ y y', e = .finite y ∧ e' = .finite y' ∧ y + y' = x := by
  obtain rfl | ⟨y, rfl⟩ := admits_iff.1 h <;> obtain rfl | ⟨y', rfl⟩ := admits_iff.1 h'
  · exact absurd (side.infinity_add_infinity.symm.trans hsum) (side.infinity_ne_finite x)
  · exact absurd ((side.infinity_add_finite y').symm.trans hsum) (side.infinity_ne_finite x)
  · exact absurd ((side.finite_add_infinity y).symm.trans hsum) (side.infinity_ne_finite x)
  · rw [Extended.finite_add_finite] at hsum
    exact ⟨y, y', rfl, rfl, Extended.finite.inj hsum⟩

/-! ### Multiples -/

private theorem infinityLike_of_pos (hc : 0 < c) : Extended.infinityLike c = .posInf := if_pos hc

private theorem infinityLike_of_neg (hc : c < 0) : Extended.infinityLike c = .negInf := by
  rw [Extended.infinityLike, if_neg hc.not_gt, if_pos hc]

/-- A positive factor keeps an infinity. -/
theorem finite_mul_infinity (side : Side) (hc : 0 < c) :
    (.finite c * side.infinity : Extended ℝ) = side.infinity := by
  cases side
  · exact infinityLike_of_neg (neg_lt_zero.2 hc)
  · exact infinityLike_of_pos hc

/-- A negative factor turns an infinity. -/
theorem finite_mul_flip_infinity (side : Side) (hc : c < 0) :
    (.finite c * side.flip.infinity : Extended ℝ) = side.infinity := by
  cases side
  · exact infinityLike_of_neg hc
  · exact infinityLike_of_pos (neg_pos.2 hc)

private theorem Limits.mul_of_pos (h : side.Limits y x) (hc : 0 < c) :
    side.Limits (c * y) (c * x) := by
  cases side <;> exact mul_le_mul_of_nonneg_left h hc.le

private theorem Limits.mul_of_neg (h : side.flip.Limits y x) (hc : c < 0) :
    side.Limits (c * y) (c * x) := by
  cases side <;> exact mul_le_mul_of_nonpos_left h hc.le

end Side

/-! ## Ranges -/

namespace Interval

/-- The end at a side. -/
def endAt (i : Interval ℝ) : Side → Extended ℝ
  | .lower => i.lower
  | .upper => i.upper

/-- A real lies between the ends. -/
def Contains (i : Interval ℝ) (x : ℝ) : Prop := i.lower ≤ .finite x ∧ .finite x ≤ i.upper

/-- The lower end may be minus infinity and the upper end infinity; else the ends are reals. -/
def Ranged (i : Interval ℝ) : Prop := i.lower < .posInf ∧ .negInf < i.upper

variable {i j : Interval ℝ} {side : Side} {c w x y : ℝ}

/-- A range contains what both ends bound. -/
theorem contains_iff : i.Contains x ↔ ∀ s : Side, s.Bounds (i.endAt s) x := by
  refine ⟨fun h s => ?_, fun h => ⟨h .lower, h .upper⟩⟩
  cases s with
  | lower => exact h.1
  | upper => exact h.2

/-- A range has ends that can be bounds. -/
theorem ranged_iff : i.Ranged ↔ ∀ s : Side, s.Admits (i.endAt s) := by
  refine ⟨fun h s => ?_, fun h => ⟨h .lower, h .upper⟩⟩
  cases s with
  | lower => exact h.1
  | upper => exact h.2

/-- The ends of a range that contains something can be bounds. -/
theorem Contains.ranged (h : i.Contains x) : i.Ranged :=
  ranged_iff.2 fun s => (contains_iff.1 h s).admits

/-- An end that is a real is contained when anything is. -/
theorem Contains.of_endAt (h : i.Contains x) (hend : i.endAt side = .finite y) :
    i.Contains y := by
  have hlimits : side.Limits y x := by
    rw [← Side.bounds_finite_iff, ← hend]
    exact contains_iff.1 h side
  have hself : side.Bounds (i.endAt side) y := hend ▸ side.bounds_self y
  cases side with
  | lower => exact ⟨hself, Extended.finite_le_trans hlimits h.2⟩
  | upper => exact ⟨Extended.le_finite_trans h.1 hlimits, hself⟩

/-! ### Multiples -/

private theorem endAt_scale_zero (i : Interval ℝ) (side : Side) :
    (i.scale 0).endAt side = .finite 0 := by
  cases side <;> simp [scale, endAt]

private theorem endAt_scale_of_pos (i : Interval ℝ) (side : Side) (hc : 0 < c) :
    (i.scale c).endAt side = .finite c * i.endAt side := by
  cases side <;> simp [scale, endAt, hc, hc.ne']

private theorem endAt_scale_of_neg (i : Interval ℝ) (side : Side) (hc : c < 0) :
    (i.scale c).endAt side = .finite c * i.endAt side.flip := by
  cases side <;> simp [scale, endAt, Side.flip, hc.not_gt, hc.ne]

/-- An end of a multiple is zero for the factor zero. Else it bounds nothing, or is the multiple of
an end that is a real: of the same one, or of the other one when the factor is negative. -/
theorem Ranged.endAt_scale (h : i.Ranged) (c : ℝ) (side : Side) :
    c = 0 ∧ (i.scale c).endAt side = .finite 0 ∨ (i.scale c).endAt side = side.infinity ∨
      ∃ (s : Side) (y : ℝ), i.endAt s = .finite y ∧ (i.scale c).endAt side = .finite (c * y) ∧
        ∀ x, s.Limits y x → side.Limits (c * y) (c * x) := by
  rw [ranged_iff] at h
  rcases lt_trichotomy c 0 with hc | rfl | hc
  · rw [endAt_scale_of_neg i side hc]
    obtain hend | ⟨y, hend⟩ := Side.admits_iff.1 (h side.flip)
    · rw [hend]
      exact .inr (.inl (side.finite_mul_flip_infinity hc))
    · refine .inr (.inr ⟨side.flip, y, hend, ?_, fun x hx => hx.mul_of_neg hc⟩)
      rw [hend, Extended.finite_mul_finite]
  · exact .inl ⟨rfl, endAt_scale_zero i side⟩
  · rw [endAt_scale_of_pos i side hc]
    obtain hend | ⟨y, hend⟩ := Side.admits_iff.1 (h side)
    · rw [hend]
      exact .inr (.inl (side.finite_mul_infinity hc))
    · refine .inr (.inr ⟨side, y, hend, ?_, fun x hx => hx.mul_of_pos hc⟩)
      rw [hend, Extended.finite_mul_finite]

/-- A multiple of a range contains the multiples of what the range contains. -/
theorem Contains.scale (h : i.Contains x) (c : ℝ) : (i.scale c).Contains (c * x) := by
  rw [contains_iff]
  intro side
  obtain ⟨rfl, hend⟩ | hend | ⟨s, y, hs, hend, hlimits⟩ := h.ranged.endAt_scale c side
  · rw [hend, zero_mul]
    exact side.bounds_self 0
  · exact Side.bounds_iff.2 (.inl hend)
  · have hy := contains_iff.1 h s
    rw [hs, Side.bounds_finite_iff] at hy
    exact Side.bounds_iff.2 (.inr ⟨c * y, hend, hlimits x hy⟩)

/-- A multiple of a range has ends that can be bounds. -/
theorem Ranged.scale (h : i.Ranged) (c : ℝ) : (i.scale c).Ranged := by
  rw [ranged_iff]
  intro side
  obtain ⟨-, hend⟩ | hend | ⟨s, y, -, hend, -⟩ := h.endAt_scale c side
  · exact Side.admits_iff.2 (.inr ⟨0, hend⟩)
  · exact Side.admits_iff.2 (.inl hend)
  · exact Side.admits_iff.2 (.inr ⟨c * y, hend⟩)

/-- An end of a multiple that is a real is a multiple of what the range contains. -/
theorem Contains.attains (h : i.Contains x) (hend : (i.scale c).endAt side = .finite w) :
    ∃ y, i.Contains y ∧ c * y = w := by
  obtain ⟨rfl, hzero⟩ | hinf | ⟨s, y, hs, hy, -⟩ := h.ranged.endAt_scale c side
  · exact ⟨x, h, (zero_mul x).trans (Extended.finite.inj (hzero.symm.trans hend))⟩
  · exact absurd (hinf.symm.trans hend) (side.infinity_ne_finite w)
  · exact ⟨y, h.of_endAt hs, Extended.finite.inj (hy.symm.trans hend)⟩

end Interval

/-! ## Products -/

namespace Extended

/-- The extended reals other than the undefined value. -/
def ofEReal : EReal → Extended ℝ
  | ⊥ => .negInf
  | ⊤ => .posInf
  | (x : ℝ) => .finite x

private theorem ofEReal_le_finite_iff {a : EReal} {x : ℝ} :
    ofEReal a ≤ .finite x ↔ a ≤ (x : EReal) := by
  induction a using EReal.rec with
  | bot => exact iff_of_true rfl bot_le
  | coe y => exact finite_le_finite.trans EReal.coe_le_coe_iff.symm
  | top => exact iff_of_false Bool.false_ne_true (by simp)

private theorem finite_le_ofEReal_iff {a : EReal} {x : ℝ} :
    .finite x ≤ ofEReal a ↔ (x : EReal) ≤ a := by
  induction a using EReal.rec with
  | bot => exact iff_of_false Bool.false_ne_true (by simp)
  | coe y => exact finite_le_finite.trans EReal.coe_le_coe_iff.symm
  | top => exact iff_of_true rfl le_top

private theorem ofEReal_lt_posInf_iff {a : EReal} : ofEReal a < .posInf ↔ a < ⊤ := by
  induction a using EReal.rec with
  | bot => exact iff_of_true rfl bot_lt_top
  | coe y => exact iff_of_true rfl (EReal.coe_lt_top y)
  | top => exact iff_of_false Bool.false_ne_true (lt_irrefl ⊤)

private theorem negInf_lt_ofEReal_iff {a : EReal} : .negInf < ofEReal a ↔ ⊥ < a := by
  induction a using EReal.rec with
  | bot => exact iff_of_false Bool.false_ne_true (lt_irrefl ⊥)
  | coe y => exact iff_of_true rfl (EReal.bot_lt_coe y)
  | top => exact iff_of_true rfl bot_lt_top

private theorem ofEReal_lt_ofEReal_iff {a b : EReal} : ofEReal a < ofEReal b ↔ a < b := by
  induction a using EReal.rec with
  | bot => exact negInf_lt_ofEReal_iff
  | coe x =>
    induction b using EReal.rec with
    | bot => exact iff_of_false Bool.false_ne_true not_lt_bot
    | coe y => exact decide_eq_true_iff.trans EReal.coe_lt_coe_iff.symm
    | top => exact ofEReal_lt_posInf_iff
  | top =>
    refine iff_of_false ?_ not_top_lt
    induction b using EReal.rec <;> exact Bool.false_ne_true

private theorem isDefined_ofEReal (a : EReal) : Scalar.isDefined (ofEReal a) = true := by
  induction a using EReal.rec with
  | bot => rfl
  | coe x => exact decide_eq_true rfl
  | top => rfl

/-- The smaller of two extended reals. -/
theorem min_ofEReal (a b : EReal) : Scalar.min (ofEReal a) (ofEReal b) = ofEReal (min a b) := by
  simp only [Scalar.min, isDefined_ofEReal, if_true, ofEReal_lt_ofEReal_iff]
  split
  · next h => rw [min_eq_right h.le]
  · next h => rw [min_eq_left (not_lt.1 h)]

/-- The larger of two extended reals. -/
theorem max_ofEReal (a b : EReal) : Scalar.max (ofEReal a) (ofEReal b) = ofEReal (max a b) := by
  simp only [Scalar.max, isDefined_ofEReal, if_true, ofEReal_lt_ofEReal_iff]
  split
  · next h => rw [max_eq_right h.le]
  · next h => rw [max_eq_left (not_lt.1 h)]

private theorem ofEReal_beq_zero (a : EReal) : (ofEReal a == 0) = decide (a = 0) := by
  induction a using EReal.rec with
  | bot => exact (decide_eq_false EReal.bot_ne_zero).symm
  | coe x =>
    change decide (x = 0) = decide ((x : EReal) = 0)
    simp only [EReal.coe_eq_zero]
  | top => exact (decide_eq_false EReal.top_ne_zero).symm

private theorem infinite_mul_finite (side : Side) (x : ℝ) :
    (side.infinity * .finite x : Extended ℝ) = .finite x * side.infinity := by
  cases side <;> rfl

private theorem finite_mul_infinite {x : ℝ} (hx : x ≠ 0) :
    (.finite x * .negInf : Extended ℝ) = ofEReal (x * ⊥) ∧
      (.finite x * .posInf : Extended ℝ) = ofEReal (x * ⊤) := by
  rcases lt_or_gt_of_ne hx with h | h
  · rw [EReal.coe_mul_bot_of_neg h, EReal.coe_mul_top_of_neg h]
    exact ⟨Side.upper.finite_mul_flip_infinity h, Side.lower.finite_mul_flip_infinity h⟩
  · rw [EReal.coe_mul_bot_of_pos h, EReal.coe_mul_top_of_pos h]
    exact ⟨Side.lower.finite_mul_infinity h, Side.upper.finite_mul_infinity h⟩

private theorem ofEReal_mul {a b : EReal} (ha : a ≠ 0) (hb : b ≠ 0) :
    ofEReal a * ofEReal b = ofEReal (a * b) := by
  induction a using EReal.rec with
  | coe x =>
    have hx := finite_mul_infinite (EReal.coe_ne_zero.1 ha)
    induction b using EReal.rec with
    | bot => exact hx.1
    | coe y => exact finite_mul_finite x y
    | top => exact hx.2
  | bot =>
    induction b using EReal.rec with
    | bot => rfl
    | coe y =>
      rw [mul_comm]
      exact (infinite_mul_finite .lower y).trans (finite_mul_infinite (EReal.coe_ne_zero.1 hb)).1
    | top => rfl
  | top =>
    induction b using EReal.rec with
    | bot => rfl
    | coe y =>
      rw [mul_comm]
      exact (infinite_mul_finite .upper y).trans (finite_mul_infinite (EReal.coe_ne_zero.1 hb)).2
    | top => rfl

/-- The product of two ends is that of the extended reals, where zero absorbs infinities. -/
theorem endProduct_ofEReal (a b : EReal) :
    Interval.endProduct (ofEReal a) (ofEReal b) = ofEReal (a * b) := by
  rw [Interval.endProduct, ofEReal_beq_zero, ofEReal_beq_zero, ← Bool.decide_or]
  by_cases h : a = 0 ∨ b = 0
  · rw [if_pos (decide_eq_true h), mul_eq_zero.2 h]
    rfl
  · rw [if_neg (by simpa using h)]
    exact ofEReal_mul (fun ha => h (.inl ha)) fun hb => h (.inr hb)

end Extended

namespace Interval

/-- The range between two extended reals. -/
def between (a b : EReal) : Interval ℝ := ⟨.ofEReal a, .ofEReal b⟩

variable {i j : Interval ℝ} {a b c d : EReal} {x y : ℝ}

private theorem contains_between : (between a b).Contains x ↔ a ≤ (x : EReal) ∧ (x : EReal) ≤ b :=
  and_congr Extended.ofEReal_le_finite_iff Extended.finite_le_ofEReal_iff

private theorem ranged_between : (between a b).Ranged ↔ a < ⊤ ∧ ⊥ < b :=
  and_congr Extended.ofEReal_lt_posInf_iff Extended.negInf_lt_ofEReal_iff

/-- A range runs between extended reals. -/
theorem Ranged.exists_between (h : i.Ranged) : ∃ a b : EReal, i = between a b := by
  obtain ⟨l, u⟩ := i
  obtain ⟨hl, hu⟩ := h
  obtain ⟨a, rfl⟩ : ∃ a : EReal, l = .ofEReal a := by
    obtain rfl | ⟨x, rfl⟩ := Extended.lt_posInf_iff.1 hl
    · exact ⟨⊥, rfl⟩
    · exact ⟨x, rfl⟩
  obtain ⟨b, rfl⟩ : ∃ b : EReal, u = .ofEReal b := by
    obtain rfl | ⟨x, rfl⟩ := Extended.negInf_lt_iff.1 hu
    · exact ⟨⊤, rfl⟩
    · exact ⟨x, rfl⟩
  exact ⟨a, b, rfl⟩

/-- The product runs between the smallest and the largest product of ends. -/
theorem product_between (a b c d : EReal) : (between a b).product (between c d) =
    between (min (min (min (a * c) (a * d)) (b * c)) (b * d))
      (max (max (max (a * c) (a * d)) (b * c)) (b * d)) := by
  have htop : (Extended.posInf : Extended ℝ) = .ofEReal ⊤ := rfl
  have hbot : (Extended.negInf : Extended ℝ) = .ofEReal ⊥ := rfl
  simp only [product, between, Extended.endProduct_ofEReal, List.foldl_cons, List.foldl_nil, htop,
    hbot, Extended.min_ofEReal, Extended.max_ofEReal, min_top_left, max_bot_left]

private theorem corner_le {a b c d x y : EReal} (hax : a ≤ x) (hxb : x ≤ b) (hcy : c ≤ y)
    (hyd : y ≤ d) : a * c ≤ x * y ∨ a * d ≤ x * y ∨ b * c ≤ x * y ∨ b * d ≤ x * y := by
  have hturn : ∀ {r s t : EReal}, s ≤ t → r ≤ 0 → r * t ≤ r * s := fun {r s t} hst hr => by
    rw [mul_comm r, mul_comm r]
    exact EReal.mul_le_mul_of_nonpos_right hst hr
  rcases le_total 0 y with hy | hy
  · have hx : a * y ≤ x * y := mul_le_mul_of_nonneg_right hax hy
    rcases le_total 0 a with ha | ha
    · exact .inl ((mul_le_mul_of_nonneg_left hcy ha).trans hx)
    · exact .inr (.inl ((hturn hyd ha).trans hx))
  · have hx : b * y ≤ x * y := EReal.mul_le_mul_of_nonpos_right hxb hy
    rcases le_total 0 b with hb | hb
    · exact .inr (.inr (.inl ((mul_le_mul_of_nonneg_left hcy hb).trans hx)))
    · exact .inr (.inr (.inr ((hturn hyd hb).trans hx)))

private theorem le_corner {a b c d x y : EReal} (hax : a ≤ x) (hxb : x ≤ b) (hcy : c ≤ y)
    (hyd : y ≤ d) : x * y ≤ a * d ∨ x * y ≤ a * c ∨ x * y ≤ b * d ∨ x * y ≤ b * c := by
  have h := corner_le hax hxb (EReal.neg_le_neg_iff.2 hyd) (EReal.neg_le_neg_iff.2 hcy)
  simpa only [mul_neg, EReal.neg_le_neg_iff] using h

/-- A product of ranges contains the products of what the ranges contain. -/
theorem Contains.product (hx : i.Contains x) (hy : j.Contains y) :
    (i.product j).Contains (x * y) := by
  obtain ⟨a, b, rfl⟩ := hx.ranged.exists_between
  obtain ⟨c, d, rfl⟩ := hy.ranged.exists_between
  rw [contains_between] at hx hy
  rw [product_between, contains_between, EReal.coe_mul]
  simp only [min_le_iff, le_max_iff, or_assoc]
  refine ⟨corner_le hx.1 hx.2 hy.1 hy.2, ?_⟩
  obtain h | h | h | h := le_corner hx.1 hx.2 hy.1 hy.2
  · exact .inr (.inl h)
  · exact .inl h
  · exact .inr (.inr (.inr h))
  · exact .inr (.inr (.inl h))

private theorem exists_corner_lt_top {a b c d : EReal} (ha : a < ⊤) (hb : ⊥ < b) (hc : c < ⊤)
    (hd : ⊥ < d) : a * c < ⊤ ∨ a * d < ⊤ ∨ b * c < ⊤ ∨ b * d < ⊤ := by
  by_contra! h
  simp only [top_le_iff, EReal.mul_eq_top] at h
  grind

private theorem exists_bot_lt_corner {a b c d : EReal} (ha : a < ⊤) (hb : ⊥ < b) (hc : c < ⊤)
    (hd : ⊥ < d) : ⊥ < a * d ∨ ⊥ < a * c ∨ ⊥ < b * d ∨ ⊥ < b * c := by
  have hneg : ∀ {e : EReal}, -e < ⊤ ↔ ⊥ < e := EReal.neg_lt_comm.trans (by simp)
  have hturn : ∀ {e : EReal}, ⊥ < -e ↔ e < ⊤ := EReal.lt_neg_comm.trans (by simp)
  have h := exists_corner_lt_top ha hb (hneg.2 hd) (hturn.2 hc)
  simpa only [mul_neg, hneg] using h

/-- A product of ranges has ends that can be bounds. -/
theorem Ranged.product (hi : i.Ranged) (hj : j.Ranged) : (i.product j).Ranged := by
  obtain ⟨a, b, rfl⟩ := hi.exists_between
  obtain ⟨c, d, rfl⟩ := hj.exists_between
  rw [ranged_between] at hi hj
  rw [product_between, ranged_between]
  simp only [min_lt_iff, lt_max_iff, or_assoc]
  refine ⟨exists_corner_lt_top hi.1 hi.2 hj.1 hj.2, ?_⟩
  obtain h | h | h | h := exists_bot_lt_corner hi.1 hi.2 hj.1 hj.2
  · exact .inr (.inl h)
  · exact .inl h
  · exact .inr (.inr (.inr h))
  · exact .inr (.inr (.inl h))

end Interval

/-! ## Norms -/

namespace Extended

/-- The magnitude of an extended real. -/
theorem abs_ofEReal (a : EReal) : Scalar.abs (ofEReal a) = ofEReal (max a (-a)) := by
  induction a using EReal.rec with
  | bot => simp only [EReal.neg_bot, max_top_right]; rfl
  | coe x =>
    rw [← EReal.coe_neg, ← EReal.coe_strictMono.monotone.map_max, ← abs_eq_max_neg]
    rfl
  | top => simp only [max_top_left]; rfl

end Extended

namespace Interval

variable {i : Interval ℝ} {x : ℝ}

/-- The larger magnitude of the ends. -/
noncomputable def magnitude (i : Interval ℝ) : Extended ℝ :=
  Scalar.max (Scalar.abs i.lower) (Scalar.abs i.upper)

private theorem magnitude_between (a b : EReal) :
    (between a b).magnitude = .ofEReal (max (max a (-a)) (max b (-b))) := by
  rw [magnitude, between, Extended.abs_ofEReal, Extended.abs_ofEReal, Extended.max_ofEReal]

/-- No contained value has a larger magnitude. -/
theorem Contains.abs_le_magnitude (h : i.Contains x) : .finite |x| ≤ i.magnitude := by
  obtain ⟨a, b, rfl⟩ := h.ranged.exists_between
  rw [contains_between] at h
  rw [magnitude_between, Extended.finite_le_ofEReal_iff, abs_eq_max_neg,
    EReal.coe_strictMono.monotone.map_max, EReal.coe_neg]
  exact max_le (h.2.trans (le_max_of_le_right (le_max_left _ _)))
    ((EReal.neg_le_neg_iff.2 h.1).trans (le_max_of_le_left (le_max_right _ _)))

/-- A magnitude is not negative. -/
theorem Ranged.magnitude_nonneg (h : i.Ranged) : .finite 0 ≤ i.magnitude := by
  obtain ⟨a, b, rfl⟩ := h.exists_between
  rw [magnitude_between, Extended.finite_le_ofEReal_iff, EReal.coe_zero]
  refine le_max_of_le_left ?_
  rcases le_total 0 a with ha | ha
  · exact le_max_of_le_left ha
  · exact le_max_of_le_right (EReal.neg_nonneg.2 ha)

end Interval

namespace Extended

variable {e : Extended ℝ} {x : ℝ}

/-- A bound of a magnitude is its own magnitude. -/
theorem abs_of_abs_le (h : .finite |x| ≤ e) : Scalar.abs e = e := by
  obtain rfl | ⟨y, rfl, hy⟩ := finite_le_iff.1 h
  · rfl
  · exact congrArg Extended.finite (abs_of_nonneg ((abs_nonneg x).trans hy))

/-- The square of a bound of a magnitude bounds the square. -/
theorem mul_self_le (h : .finite |x| ≤ e) : .finite (x * x) ≤ e * e := by
  obtain rfl | ⟨y, rfl, hy⟩ := finite_le_iff.1 h
  · exact finite_le_posInf (x * x)
  · rw [finite_mul_finite, finite_le_finite, ← abs_mul_abs_self x]
    exact mul_self_le_mul_self (abs_nonneg x) hy

/-- The root of a bound bounds the root. -/
theorem sqrt_le (h : .finite x ≤ e) : .finite (Real.sqrt x) ≤ Scalar.sqrt e := by
  obtain rfl | ⟨y, rfl, hy⟩ := finite_le_iff.1 h
  · exact finite_le_posInf _
  · change .finite (Real.sqrt x) ≤ Extended.ofScalar (Real.sqrt y)
    rw [ofScalar_real, finite_le_finite]
    exact Real.sqrt_le_sqrt hy

/-- The larger of two bounds bounds the larger value. -/
theorem finite_max_le {e' : Extended ℝ} {x' : ℝ} (h : .finite x ≤ e) (h' : .finite x' ≤ e') :
    .finite (max x x') ≤ Scalar.max e e' := by
  obtain ⟨a, rfl⟩ : ∃ a : EReal, e = ofEReal a := by
    obtain rfl | ⟨y, rfl, -⟩ := finite_le_iff.1 h
    · exact ⟨⊤, rfl⟩
    · exact ⟨y, rfl⟩
  obtain ⟨b, rfl⟩ : ∃ b : EReal, e' = ofEReal b := by
    obtain rfl | ⟨y, rfl, -⟩ := finite_le_iff.1 h'
    · exact ⟨⊤, rfl⟩
    · exact ⟨y, rfl⟩
  rw [finite_le_ofEReal_iff] at h h'
  rw [max_ofEReal, finite_le_ofEReal_iff, EReal.coe_strictMono.monotone.map_max]
  exact max_le_max h h'

end Extended

private theorem bounds_foldl_add {xs : List ℝ} {es : List (Extended ℝ)}
    (h : List.Forall₂ (fun x e => .finite x ≤ e) xs es) {x : ℝ} {e : Extended ℝ}
    (hx : .finite x ≤ e) : .finite (xs.foldl (· + ·) x) ≤ es.foldl (· + ·) e := by
  induction h generalizing x e with
  | nil => exact hx
  | @cons y d _ _ hy _ ih =>
    have hsum : Side.upper.Bounds (e + d) (x + y) := Side.Bounds.add hx hy
    exact ih hsum

/-- The norm of bounds of magnitudes bounds the norm. -/
theorem NormKind.apply_le_apply (n : NormKind) {xs : List ℝ} {es : List (Extended ℝ)}
    (h : List.Forall₂ (fun x e => .finite |x| ≤ e) xs es) : .finite (n.apply xs) ≤ n.apply es := by
  cases n with
  | one =>
    refine bounds_foldl_add ?_ (Extended.finite_le_finite.2 le_rfl)
    rw [List.forall₂_map_left_iff, List.forall₂_map_right_iff]
    refine h.imp fun x e hx => ?_
    rw [Extended.abs_of_abs_le hx]
    exact hx
  | two =>
    refine Extended.sqrt_le (bounds_foldl_add ?_ (Extended.finite_le_finite.2 le_rfl))
    rw [List.forall₂_map_left_iff, List.forall₂_map_right_iff]
    exact h.imp fun x e hx => Extended.mul_self_le hx
  | infinity =>
    suffices hfold : ∀ (m : ℝ) (e : Extended ℝ), .finite m ≤ e →
        .finite (xs.foldl (fun m x => Scalar.max m (Scalar.abs x)) m) ≤
          es.foldl (fun m x => Scalar.max m (Scalar.abs x)) e from
      hfold 0 0 (Extended.finite_le_finite.2 le_rfl)
    induction h with
    | nil => exact fun m e hm => hm
    | @cons x d _ _ hx _ ih =>
      intro m e hm
      refine ih _ _ ?_
      change .finite (Scalar.max m (Scalar.abs x)) ≤ Scalar.max e (Scalar.abs d)
      rw [Extended.abs_of_abs_le hx, Scalar.max_real, Scalar.abs_real]
      exact Extended.finite_max_le hm hx

end AdjustableRobust
