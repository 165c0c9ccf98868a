import AdjustableRobust.Proofs.Decimal.ReadBack

/-!
# Exchanged numbers

An exchange is lawful when a finite scalar is written as a number that is read as the scalar, and
every other one as null, which is not read as a number. The exchange of doubles as their shortest
decimals is lawful, as literals are rounded correctly.
-/

namespace AdjustableRobust.ScalarExchange

open Json

/-- Finite scalars are written as numbers that are read back, all others as null. -/
structure Lawful {α : Type} [ScalarExchange α] (isFinite : α → Bool) : Prop where
  number : ∀ x, isFinite x = true →
    ∃ literal, toJson x = .number literal ∧ IsLiteral literal ∧ ofLiteral? literal = some x
  null : ∀ x, isFinite x = false → toJson x = .null

namespace Lawful

variable {α : Type} [ScalarExchange α] {isFinite : α → Bool} {x y : α}

/-- What is written for a scalar is well formed. -/
theorem wellFormed_toJson (h : Lawful isFinite) (x : α) : (toJson x).WellFormed := by
  cases hx : isFinite x with
  | true =>
    obtain ⟨literal, hjson, hliteral, -⟩ := h.number x hx
    exact hjson ▸ .number hliteral
  | false => exact h.null x hx ▸ .null

/-- A scalar is read back, if it is finite. -/
theorem ofJson?_toJson (h : Lawful isFinite) (x : α) :
    ofJson? (toJson x) = if isFinite x then some x else none := by
  cases hx : isFinite x with
  | true =>
    obtain ⟨literal, hjson, -, hread⟩ := h.number x hx
    rw [hjson, ofJson?, hread, if_pos rfl]
  | false =>
    rw [h.null x hx]
    rfl

/-- No other scalar is written as a finite one is. -/
theorem eq_of_toJson_eq (h : Lawful isFinite) (hx : isFinite x = true)
    (heq : toJson y = toJson x) : y = x := by
  have hread := h.ofJson?_toJson y
  rw [heq, h.ofJson?_toJson x, if_pos hx] at hread
  split at hread
  · exact (Option.some.inj hread).symm
  · exact absurd hread (by simp)

end Lawful

/-- A finite double is read back from its shortest decimal. -/
theorem lawful_float : Lawful Float.isFinite where
  number x hx := ⟨(Decimal.NumberFormat.exchange.print x).toList, if_pos hx,
    Decimal.isLiteral_print hx, Decimal.ofLiteral?_print hx⟩
  null _ hx := if_neg (Bool.eq_false_iff.1 hx)

end AdjustableRobust.ScalarExchange
