import AdjustableRobust.ModelError
import AdjustableRobust.Proofs.Runs
import AdjustableRobust.Proofs.Scalar.Interval

/-!
# Guarded arithmetic

The sum of opposite infinities and the product of zero and an infinity have no value. Guarded
arithmetic ends without a result where it meets one of them. Multiples, products and norms of ranges
whose ends can be bounds come past all guards.
-/

namespace AdjustableRobust

/-- A computation that may end without a result, or fail. -/
abbrev Guarded (β : Type) := OptionT (Except (ModelError ℝ)) β

namespace Guarded

variable {α β : Type}

/-! ## Computations that come past their guards -/

/-- A sequence is unguarded when its parts are. The second part matters for results of the first
one only. -/
theorem bind_eq_lift {x : Guarded α} {y : Except (ModelError ℝ) α} {f : α → Guarded β}
    {g : α → Except (ModelError ℝ) β} (hx : x = OptionT.lift y)
    (hf : ∀ a, y = .ok a → f a = OptionT.lift (g a)) : x >>= f = OptionT.lift (y >>= g) := by
  subst hx
  cases y with
  | error e => rfl
  | ok a => exact hf a rfl

/-- A fold is unguarded when its steps are. They may rely on what all of them keep. -/
theorem foldlM_eq_lift {I : β → Prop} {f : β → α → Guarded β}
    {g : β → α → Except (ModelError ℝ) β} {xs : List α}
    (hI : ∀ b, ∀ x ∈ xs, ∀ c, I b → g b x = .ok c → I c)
    (hstep : ∀ b, I b → ∀ x ∈ xs, f b x = OptionT.lift (g b x)) {b : β} (hb : I b) :
    xs.foldlM f b = OptionT.lift (xs.foldlM g b) := by
  induction xs generalizing b with
  | nil => rfl
  | cons x xs ih =>
    rw [List.foldlM_cons, List.foldlM_cons]
    refine bind_eq_lift (hstep b hb x List.mem_cons_self) fun c hc => ?_
    exact ih (fun b y hy => hI b y (List.mem_cons_of_mem x hy))
      (fun b hb y hy => hstep b hb y (List.mem_cons_of_mem x hy))
      (hI b x List.mem_cons_self c hb hc)

/-- A map is unguarded when it is at all entries. -/
theorem mapM_eq_lift {f : α → Guarded β} {g : α → Except (ModelError ℝ) β} {xs : List α}
    (h : ∀ x ∈ xs, f x = OptionT.lift (g x)) : xs.mapM f = OptionT.lift (xs.mapM g) := by
  induction xs with
  | nil => rfl
  | cons x xs ih =>
    rw [List.mapM_cons, List.mapM_cons]
    refine bind_eq_lift (h x List.mem_cons_self) fun b _ => ?_
    exact bind_eq_lift (ih fun y hy => h y (List.mem_cons_of_mem x hy)) fun bs _ => rfl

end Guarded

namespace Extended

/-! ## Sums and products -/

/-- One of the two infinities. -/
def isInfinite : Extended ℝ → Bool
  | .negInf => true
  | .posInf => true
  | _ => false

/-- Sum, unless it is one of opposite infinities. -/
noncomputable def plus (x y : Extended ℝ) : Guarded (Extended ℝ) :=
  if x.isInfinite && y == -x then failure else pure (x + y)

/-- Product, unless it is one of zero and an infinity. -/
noncomputable def times (x y : Extended ℝ) : Guarded (Extended ℝ) :=
  if (x.isInfinite && y == 0) || (x == 0 && y.isInfinite) then failure else pure (x * y)

/-- Bounds from one side are never opposite infinities. -/
theorem plus_of_admits {x y : Extended ℝ} {side : Side} (hx : side.Admits x) (hy : side.Admits y) :
    plus x y = pure (x + y) := by
  obtain rfl | ⟨x, rfl⟩ := Side.admits_iff.1 hx
  · obtain rfl | ⟨y, rfl⟩ := Side.admits_iff.1 hy <;> cases side <;> rfl
  · rfl

/-- A factor other than zero meets no zero but a finite one. -/
theorem times_of_ne_zero {c : ℝ} (hc : c ≠ 0) (x : Extended ℝ) :
    times (.finite c) x = pure (.finite c * x) := by
  have hzero : (Extended.finite c == 0) = false := decide_eq_false hc
  simp [times, isInfinite, hzero]

/-- Zero and infinities have their squares. -/
theorem times_self (x : Extended ℝ) : times x x = pure (x * x) := by
  cases x with
  | finite x => simp [times, isInfinite]
  | negInf => rfl
  | posInf => rfl
  | undefined => rfl

/-- Sum from left to right, starting at zero. -/
noncomputable def guardedSum (es : List (Extended ℝ)) : Guarded (Extended ℝ) := es.foldlM plus 0

/-- Bounds from one side can be summed. -/
theorem guardedSum_eq {es : List (Extended ℝ)} (side : Side) (h : ∀ e ∈ es, side.Admits e) :
    guardedSum es = pure (Scalar.sum es) := by
  suffices hfold : ∀ e, side.Admits e → es.foldlM plus e = pure (es.foldl (· + ·) e) from
    hfold 0 (side.admits_finite 0)
  induction es with
  | nil => exact fun e _ => rfl
  | cons d es ih =>
    intro e he
    obtain ⟨hd, hes⟩ := List.forall_mem_cons.1 h
    rw [List.foldlM_cons, plus_of_admits he hd, pure_bind, ih hes _ (he.add hd), List.foldl_cons]

end Extended

namespace Interval

/-! ## Multiples and products of ranges -/

/-- The range multiplied by a scalar. -/
noncomputable def guardedScale (factor : ℝ) (i : Interval ℝ) : Guarded (Interval ℝ) :=
  if factor == 0 then pure ⟨.finite 0, .finite 0⟩
  else
    let k := Extended.ofScalar factor
    if 0 < factor then do return ⟨← k.times i.lower, ← k.times i.upper⟩
    else do return ⟨← k.times i.upper, ← k.times i.lower⟩

/-- Scaling the range by a real takes no operation without a value. -/
theorem guardedScale_eq (factor : ℝ) (i : Interval ℝ) :
    i.guardedScale factor = pure (i.scale factor) := by
  by_cases hfactor : factor = 0
  · simp [guardedScale, scale, hfactor]
  · by_cases hpos : 0 < factor
    · simp [guardedScale, scale, hfactor, hpos, Extended.times_of_ne_zero]
    · simp [guardedScale, scale, hfactor, hpos, Extended.times_of_ne_zero]

/-- Product of two ends, in which a zero absorbs an infinity. -/
noncomputable def guardedEndProduct (x y : Extended ℝ) : Guarded (Extended ℝ) :=
  if x == 0 || y == 0 then pure 0 else x.times y

private theorem guardedEndProduct_eq (x y : Extended ℝ) :
    guardedEndProduct x y = pure (endProduct x y) := by
  rw [guardedEndProduct, endProduct]
  cases hx : x == 0 <;> cases hy : y == 0 <;> simp [Extended.times, hx, hy]

/-- The range of all products of two values. -/
noncomputable def guardedProduct (i j : Interval ℝ) : Guarded (Interval ℝ) := do
  let corners := [← guardedEndProduct i.lower j.lower, ← guardedEndProduct i.lower j.upper,
    ← guardedEndProduct i.upper j.lower, ← guardedEndProduct i.upper j.upper]
  return ⟨corners.foldl Scalar.min .posInf, corners.foldl Scalar.max .negInf⟩

/-- The product of ranges takes no operation without a value. -/
theorem guardedProduct_eq (i j : Interval ℝ) : i.guardedProduct j = pure (i.product j) := by
  simp only [guardedProduct, guardedEndProduct_eq, pure_bind, product]

end Interval

namespace NormKind

/-! ## Norms -/

/-- Value of the norm on a list of coordinates. The largest magnitude takes no arithmetic. -/
noncomputable def guardedApply (n : NormKind) (es : List (Extended ℝ)) : Guarded (Extended ℝ) :=
  match n with
  | .one => Extended.guardedSum (es.map Scalar.abs)
  | .two => do
    let squares ← es.mapM fun e => e.times e
    return Scalar.sqrt (← Extended.guardedSum squares)
  | .infinity => pure (NormKind.infinity.apply es)

/-- Magnitudes can be summed, and so can their squares. -/
theorem guardedApply_eq (n : NormKind) {es : List (Extended ℝ)} (h : ∀ e ∈ es, .finite 0 ≤ e) :
    n.guardedApply es = pure (n.apply es) := by
  have hzero : ∀ e ∈ es, .finite |(0 : ℝ)| ≤ e := by simpa only [abs_zero] using h
  cases n with
  | one =>
    refine Extended.guardedSum_eq .upper (List.forall_mem_map.2 fun e he => ?_)
    have hbounds : Side.upper.Bounds e 0 := h e he
    rw [Extended.abs_of_abs_le (hzero e he)]
    exact hbounds.admits
  | two =>
    have hsum : Extended.guardedSum (es.map fun e => e * e) =
        pure (Scalar.sum (es.map fun e => e * e)) := by
      refine Extended.guardedSum_eq .upper (List.forall_mem_map.2 fun e he => ?_)
      have hbounds : Side.upper.Bounds (e * e) (0 * 0) := Extended.mul_self_le (hzero e he)
      exact hbounds.admits
    simp only [guardedApply, Extended.times_self, List.mapM_pure, pure_bind, hsum]
    rfl
  | infinity => rfl

end NormKind

end AdjustableRobust
